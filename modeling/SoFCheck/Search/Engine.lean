import SoFCheck.Search.JobCommunicator
import SoFCheck.Search.Iterations

namespace SoFCheck.Search.Engine

open SoFCheck.Util.Imperative SoFCheck.Util.Cache SoFCheck.Util.Transition
open SoFCheck.Core.Types SoFCheck.Core.BoardState SoFCheck.Core.Moves SoFCheck.Core.Attack
open SoFCheck.Core.Validate SoFCheck.Core.Position SoFCheck.Core.MoveMake SoFCheck.Core.MakeBoard
open SoFCheck.Core.MakeRefine SoFCheck.Core.Movegen SoFCheck.Core.Legality SoFCheck.Core.CheckMask
open SoFCheck.Core.PseudoLegal SoFCheck.Core.LegalMoves SoFCheck.Core.Sequence
open SoFCheck.Eval SoFCheck.Eval.Score SoFCheck.Eval.Weights SoFCheck.Eval.Evaluate
open SoFCheck.Eval.Impl SoFCheck.Eval.Shipped SoFCheck.Eval.PawnCache
open SoFCheck.Search.Pickers SoFCheck.Search.PickerSteps SoFCheck.Search.TableData SoFCheck.Search.Job
open SoFCheck.Search.Types SoFCheck.Search.Discipline SoFCheck.Search.Evaluations
open SoFCheck.Search.Windows (Sane)
open SoFCheck.Search.UnwindPv (after)
open SoFCheck.Search.Deepening (Phase)
open SoFCheck.Search.JobCommunicator (MainPhase JobPhase)
open SoFCheck.Search.JobRun SoFCheck.Search.Iterations
open SoFCheck.Search.Aborts (keepingShuffler)

scoped instance instEvaluatorShipped : Evaluator := shippedEvaluator

section Evaluation

def applyColor (result : Int) (c : Color) : Int :=
  if c = .white then result else toScore (-result)

/-- `Evaluator<score_t>::evalForCur` -/
def evalForCur (cache : Entries) (b : Board) (tag : Tag ScorePair) : Option (Int × Entries) :=
  (scoreForWhite weightValues shippedFeatures cache b tag).map fun out =>
    (applyColor out.1 b.side, out.2)

end Evaluation

section Model

variable [Globals]

/-- What is kept from one search to the next: the entries that have been stored in the table, and the
caches of the evaluators. The boards that these were asked about are kept for the record. -/
structure Memory where
  stores : List (Board × Data)
  caches : Nat → Entries
  probed : List Board
  evaluated : List Board

/-- What the jobs and the main thread share. The depths that were finished and the lines that were
added and sent are kept for the record. -/
structure Shared extends Memory where
  depth : Nat
  stopped : Bool
  lines : List SearchResult
  main : MainPhase
  bestDepth : Nat
  bestMove : Move
  finished : List Nat
  added : List SearchResult
  sent : List SearchResult

def Memory.fresh : Memory := ⟨[], fun _ => PawnCache.fresh, [], []⟩

/-- `JobCommunicator::reset`, and a new main thread. -/
def Memory.start (memory : Memory) : Shared where
  toMemory := memory
  depth := 1
  stopped := false
  lines := []
  main := .mainLoop
  bestDepth := 0
  bestMove := Move.null
  finished := []
  added := []
  sent := []

def Shared.probe (w : Shared) (board : Board) : Shared := { w with probed := board :: w.probed }

def Shared.addLine (w : Shared) (line : SearchResult) : Shared :=
  { w with lines := w.lines ++ [line], added := w.added ++ [line] }

/-- What a job may be answered, and what becomes of the shared state. The table has an entry that
was stored for a board of the same hash, perhaps in another epoch, or none. -/
def Answers (w : Shared) (job : Nat) :
    (q : Question ⊕ Request) → Joint Answer Reply q → Shared → Prop
  | .inl .isStopped, stopped, w' => stopped = w.stopped ∧ w' = w
  | .inl .checkTimeout, timeout, w' => w' = { w with stopped := w.stopped || timeout }
  | .inl .depth, depth, w' => depth = w.depth ∧ w' = w
  | .inl (.load board), data, w' => w' = w.probe board ∧ (Data.isValid data = true →
      ∃ board' data', (board', data') ∈ w.stores ∧ board'.hash = board.hash ∧
        data = { data' with epoch_ := (data : Data).epoch_ })
  | .inl (.isCurrentEpoch _), _, w' => w' = w
  | .inl (.store board data), _, w' =>
    w' = { w.probe board with stores := (board, data) :: w.stores }
  | .inl (.evalForCur board tag), score, w' => ∃ cache,
      evalForCur (w.caches job) board tag = some (score, cache) ∧
        w' = { w with
          caches := Function.update w.caches job cache
          evaluated := board :: w.evaluated }
  | .inl .useScore, _, w' => w' = w
  | .inr .isStopped, stopped, w' => stopped = w.stopped ∧ w' = w
  | .inr (.finishDepth depth), first, w' => first = decide (w.depth = depth) ∧
      w' = if w.depth = depth then
        { w with depth := depth + 1, finished := w.finished ++ [depth] } else w
  | .inr (.addLine line), _, w' => w' = w.addLine line
  | .inr .stop, _, w' => w' = { w with stopped := true }

def lineOf (line : SearchResult) : JobCommunicator.Line := ⟨line.depth, line.pv⟩

def Shared.extractLines (w : Shared) : Shared :=
  let lines := w.lines.insertionSort fun a b => a.depth ≤ b.depth
  let best := (lines.map lineOf).foldl JobCommunicator.consider (w.bestDepth, w.bestMove)
  { w with lines := [], bestDepth := best.1, bestMove := best.2, sent := w.sent ++ lines }

/-- The first move of a shuffled list that is legal. -/
def pickRandomMove (board : Board) (shuffled : List Move) : Move :=
  (shuffled.find? (isMoveLegal board)).getD Move.null

variable {n : Nat}

/-- The threads of the jobs, and what they share. -/
abbrev State (n : Nat) := Pool (Fin n) (Joint Answer Reply) Unit Shared

/-- The steps of the main thread in `MainThread::run`, and `stop` from the outside. -/
inductive MainStep (last : Board) (p : State n) : Shared → Prop
  | stop : MainStep last p { p.shared with stopped := true }
  | newLines (h : p.shared.main = .mainLoop) (hlines : p.shared.lines ≠ []) :
      MainStep last p { p.shared with main := .extractLines }
  | leave (h : p.shared.main = .mainLoop) (hlines : p.shared.lines = [])
      (hstopped : p.shared.stopped = true) : MainStep last p { p.shared with main := .joinThreads }
  | timeout (h : p.shared.main = .mainLoop) (hlines : p.shared.lines = [])
      (hstopped : p.shared.stopped = false) : MainStep last p { p.shared with main := .mustStop }
  | extractLines (h : p.shared.main = .extractLines) :
      MainStep last p { p.shared.extractLines with main := .mustStop }
  | mustStop (limitReached : Bool) (h : p.shared.main = .mustStop) :
      MainStep last p
        { p.shared with stopped := p.shared.stopped || limitReached, main := .mainLoop }
  | joinThreads (h : p.shared.main = .joinThreads) (hdone : ∀ i, p.threads i = .done ()) :
      MainStep last p { p.shared with main := .finishSearch }
  | finishSearch (shuffled : List Move) (h : p.shared.main = .finishSearch)
      (hperm : shuffled.Perm (mkMoveGen last).genAllMoves) :
      MainStep last p { p.shared with
        main := .finished
          (if p.shared.bestMove = Move.null then pickRandomMove last shuffled
          else p.shared.bestMove) }

variable (S : Sorter) (D : Shuffler) (turns : Nat)

/-- The jobs of a search have just been created. -/
def begin (n : Nat) (memory : Memory) (position : Position) (depthLimit : Nat) : State n where
  shared := memory.start
  threads i := jobRun S D i turns depthLimit position

abbrev Step (last : Board) : State n → State n → Prop :=
  Pool.Step (fun w i => Answers w i) (MainStep last)

/-- The searches that were made one after another, with what they have answered, and what they
leave behind. In between, entries may get lost, and evaluators may be replaced by new ones. -/
inductive Session : List (Board × Move) → Memory → Prop
  | fresh : Session [] Memory.fresh
  | lose {log : List (Board × Move)} {memory : Memory} (h : Session log memory)
      (stores : List (Board × Data)) (replaced : Nat → Bool) (hstores : stores ⊆ memory.stores) :
      Session log { memory with
        stores := stores
        caches := fun i => if replaced i then PawnCache.fresh else memory.caches i }
  | search {log : List (Board × Move)} {memory : Memory} (h : Session log memory) (S : Sorter)
      (D : Shuffler) (turns n depthLimit : Nat) {first : Board} {moves : List Move}
      (hvalid : Valid (Position.fromMoves first moves).last) {p : State n} {answer : Move}
      (hrun : Relation.ReflTransGen (Step (Position.fromMoves first moves).last)
        (begin S D turns n memory (Position.fromMoves first moves) depthLimit) p)
      (hanswer : p.shared.main = .finished answer) :
      Session (log ++ [((Position.fromMoves first moves).last, answer)]) p.shared.toMemory

end Model

section Chess

variable [Globals] {b b' : Board} {m : Move}

theorem safeMove_iff_chess (hb : Valid b) :
    SafeMove b m ↔ ∃ k s t, untag m = mkMove k s t ∧ (position b).Legal k s t := by
  obtain ⟨hr, hl⟩ := valid_iff.mp hb
  constructor
  · intro h
    obtain hnull | ⟨k, s, t, he, hp⟩ := playable_cases hr h.1.playable
    · exact absurd (congrArg Move.kind hnull) h.1.kind_ne
    · have hsafe : wasMoveLegal (moveMake b (untag m)).1 = true := h.2
      rw [he, wasMoveLegal_moveMake hr hl hp] at hsafe
      exact ⟨k, s, t, he, legal_iff.mpr ⟨hp, hsafe⟩⟩
  · intro h
    obtain ⟨k, s, t, he, hlegal⟩ := h
    obtain ⟨hp, hsafe⟩ := legal_iff.mp hlegal
    have hpseudo : (mkMove k s t).isWellFormed b.side = true ∧ isMoveValid b (mkMove k s t) = true :=
      (isMoveValid_iff hr).mpr hp
    have hmade : wasMoveLegal (moveMake b (untag m)).1 = true := by
      rw [he, wasMoveLegal_moveMake hr hl hp]
      exact hsafe
    rw [← he] at hpseudo
    exact ⟨hpseudo, hmade⟩

theorem valid_of_position (hb : Valid b) (hb' : Regular b') (h : position b = position b') : Valid b' := by
  obtain ⟨hr, hl⟩ := valid_iff.mp hb
  have hside : b.side = b'.side := congrArg (fun p => p.side) h
  refine valid_iff.mpr ⟨hb', ?_⟩
  rw [wasMoveLegal_iff hb', ← h, ← hside]
  exact (wasMoveLegal_iff hr).mp hl

theorem safeMove_of_position (hb : Valid b) (hb' : Valid b') (h : position b = position b')
    (hm : SafeMove b m) : SafeMove b' m := by
  rw [safeMove_iff_chess hb']
  rw [safeMove_iff_chess hb, h] at hm
  exact hm

/-- A legal move of the rules of chess, or the null move if there is none. -/
def Settled (b : Board) (answer : Move) : Prop :=
  (answer = Move.null ↔ ∀ k s t, ¬(position b).Legal k s t) ∧
    (answer ≠ Move.null → ∃ k s t, untag answer = mkMove k s t ∧ (position b).Legal k s t)

theorem settled_legal (hb : Valid b) (h : SafeMove b m) : Settled b m := by
  obtain ⟨k, s, t, hm, hlegal⟩ := (safeMove_iff_chess hb).mp h
  have hne : m ≠ Move.null := fun he => absurd (congrArg Move.kind he) h.1.kind_ne
  exact ⟨⟨fun he => absurd he hne, fun hnone => absurd hlegal (hnone k s t)⟩, fun _ =>
    ⟨k, s, t, hm, hlegal⟩⟩

theorem settled_pickRandomMove (hb : Valid b) {shuffled : List Move}
    (hperm : shuffled.Perm (mkMoveGen b).genAllMoves) : Settled b (pickRandomMove b shuffled) := by
  obtain ⟨hr, hl⟩ := valid_iff.mp hb
  rw [pickRandomMove]
  cases hfind : shuffled.find? (isMoveLegal b) with
  | none =>
    refine ⟨⟨fun _ k s t hlegal => ?_, fun _ => rfl⟩, fun hne => absurd rfl hne⟩
    obtain ⟨hp, hsafe⟩ := legal_iff.mp hlegal
    have hmem : mkMove k s t ∈ (mkMoveGen b).genAllMoves := by
      by_contra hm
      by_cases hc : (position b).InCheck b.side
      · exact hsafe (inCheck_of_not_mem hr hc hp hm)
      · exact hm ((mem_genAllMoves hr hc).mpr hp)
    exact List.find?_eq_none.mp hfind _ (hperm.mem_iff.mpr hmem) ((isMoveLegal_iff hr hl hp).mpr hsafe)
  | some move =>
    obtain ⟨k, s, t, rfl, hp⟩ :=
      pseudo_of_mem_genImpl hr (hperm.mem_iff.mp (List.mem_of_find?_eq_some hfind))
    have hsafe := (isMoveLegal_iff hr hl hp).mp (List.find?_some hfind)
    exact settled_legal hb ((safeMove_iff_chess hb).mpr ⟨k, s, t, rfl, legal_iff.mpr ⟨hp, hsafe⟩⟩)

end Chess

section Memory

variable [Globals] {boards : List Board} {b b' : Board} {w w' : Shared}

/-- No two positions share a key of the table. -/
def Distinct (boards : List Board) : Prop :=
  ∀ b ∈ boards, ∀ b' ∈ boards, b.hash = b'.hash → position b = position b'

/-- No two placements of the pawns share a key of the caches. -/
def PawnsDistinct (boards : List Board) : Prop :=
  ∀ b ∈ boards, ∀ b' ∈ boards, calcPawnHash b = calcPawnHash b' → SamePawns b b'

/-- What is stored in the table. -/
structure Stored (fair : Prop) (b : Board) (data : Data) : Prop where
  valid : Valid b
  storable : Storable maxDepth b data
  isValid : data.isValid = true
  sane : fair → Sane data

/-- Everything that is kept belongs to a board that was asked about. The evaluations are fair if the
caches are never mistaken. -/
structure Memory.Sound (probed evaluated : List Board) (memory : Memory) : Prop where
  stores : ∀ b data, (b, data) ∈ memory.stores →
    b ∈ probed ∧ Stored (PawnsDistinct evaluated) b data
  caches : PawnsDistinct evaluated →
    ∀ i, Truthful layout (PawnsOf weightValues shippedFeatures evaluated) (memory.caches i)

theorem Memory.sound_fresh {probed evaluated : List Board} : Memory.fresh.Sound probed evaluated where
  stores _ _ h := absurd h List.not_mem_nil
  caches _ _ := truthful_fresh

theorem Stored.load {fair : Prop} {data : Data} (h : Stored fair b data) (hb' : Regular b')
    (hpos : position b = position b') (epoch : BitVec 8) :
    Valid b' ∧ SafeMove b' ({ data with epoch_ := epoch } : Data).move ∧
      (fair → Sane { data with epoch_ := epoch }) := by
  have hvalid := valid_of_position h.valid hb' hpos
  exact ⟨hvalid, safeMove_of_position h.valid hvalid hpos h.storable.1, h.sane⟩

omit [Globals] in
theorem applyColor_bounds {score : Int} (c : Color) (hlo : -scoreCheckmateThreshold < score)
    (hhi : score < scoreCheckmateThreshold) :
    -scoreCheckmateThreshold < applyColor score c ∧ applyColor score c < scoreCheckmateThreshold := by
  rw [scoreCheckmateThreshold] at hlo hhi ⊢
  rw [applyColor]
  split
  · exact ⟨hlo, hhi⟩
  · rw [toScore_eq] <;> omega

theorem evalForCur_spec (hdistinct : PawnsDistinct boards) (hmem : b ∈ boards) (hb : Valid b)
    {cache : Entries} (hcache : Truthful layout (PawnsOf weightValues shippedFeatures boards) cache) :
    ∃ score cache', evalForCur cache b (shippedTag b) = some (score, cache') ∧
      -scoreCheckmateThreshold < score ∧ score < scoreCheckmateThreshold ∧
      Truthful layout (PawnsOf weightValues shippedFeatures boards) cache' := by
  obtain ⟨exact, hexact, hlo, hhi⟩ := Bounds.exactScore_bounds (valid_iff.mp hb).1
  have huncached := score_exact weightValues shippedFeatures b hexact
  obtain ⟨score, cache', hscore, hrun, hcache'⟩ :=
    scoreForWhite_spec hdistinct hmem hcache (shippedTag b)
  have heq : score = exact := Option.some.inj (hscore.symm.trans huncached)
  subst heq
  obtain ⟨hlo', hhi'⟩ := applyColor_bounds b.side (hlo.trans_lt' (by decide)) (hhi.trans_lt (by decide))
  refine ⟨applyColor score b.side, cache', ?_, hlo', hhi', hcache'⟩
  rw [evalForCur, hrun]
  rfl

end Memory

/-- The tag is that of the board. -/
def ok (tag : Tag ScorePair) (b : Board) : Prop := tag = shippedTag b

section Models

variable [Globals] {n limit : Nat} {root : Board} {repeated fair : Prop} {w w' : Shared}
variable {v : Fin n → Phase} {i : Fin n} {p : State n}

/-- Where a job stands for the main thread. -/
def jobOf : Phase → JobPhase
  | .running d _ | .checking d _ | .returned d _ => .searching d
  | .tested d _ => .tested d
  | .adding d _ => .adding d
  | .stopping => .stopping
  | .terminated => .terminated

/-- What the model of iterative deepening has of the shared state. -/
def deepeningOf (w : Shared) (v : Fin n → Phase) : Deepening.State n where
  depth := w.depth
  stopped := w.stopped
  jobs := v
  lines := w.added.map fun line => ⟨line.depth, false⟩
  finished := w.finished

/-- What the model of the communicator and the main thread has of it. -/
def communicatorOf (w : Shared) (v : Fin n → Phase) : JobCommunicator.State n where
  depth := w.depth
  stopped := w.stopped
  lines := w.lines.map lineOf
  jobs := jobOf ∘ v
  main := w.main
  bestDepth := w.bestDepth
  bestMove := w.bestMove
  added := w.added.map lineOf
  considered := w.sent.map lineOf

/-- Both of them can get there. -/
structure Modelled (limit : Nat) (w : Shared) (v : Fin n → Phase) : Prop where
  deepening : (Deepening.system limit n).Reachable (deepeningOf w v)
  communicator : (JobCommunicator.system limit n).Reachable (communicatorOf w v)

omit [Globals] in
theorem jobOf_nextDepth (d : Nat) :
    jobOf (Deepening.nextDepth limit d) = JobCommunicator.nextDepth limit d := by
  rw [Deepening.nextDepth, JobCommunicator.nextDepth]
  split <;> rfl

omit [Globals] in
theorem modelled_start (memory : Memory) :
    Modelled limit memory.start fun _ : Fin n => Deepening.nextDepth limit 1 where
  deepening := .init
  communicator := by
    have hjobs : (jobOf ∘ fun _ : Fin n => Deepening.nextDepth limit 1) =
        fun _ => JobCommunicator.nextDepth limit 1 := funext fun _ => jobOf_nextDepth 1
    rw [communicatorOf, hjobs]
    exact .init

omit [Globals] in
theorem communicatorOf_update (phase : Phase) : communicatorOf w (Function.update v i phase) =
    (communicatorOf w v).setJob i (jobOf phase) := by
  rw [communicatorOf, Function.comp_update]
  rfl

omit [Globals] in
theorem communicatorOf_update_same {phase : Phase} (h : jobOf phase = jobOf (v i)) :
    communicatorOf w (Function.update v i phase) = communicatorOf w v := by
  rw [communicatorOf, Function.comp_update, h]
  exact congrArg (fun jobs => { communicatorOf w v with jobs := jobs }) (Function.update_eq_self i _)

omit [Globals] in
theorem Modelled.aborted (h : Modelled limit w v) {d : Nat} {aborted : Bool}
    (hv : v i = .tested d aborted ∨ v i = .adding d aborted)
    (hd : v i = .tested d aborted → w.depth = d) : aborted = false := by
  have hsound : (v i).Sound w.depth w.stopped := (Deepening.inv_of_reachable h.deepening).sound i
  obtain hv | hv := hv
  · rw [hv] at hsound
    cases aborted with
    | false => rfl
    | true => exact absurd (hsound.2.2 rfl) (hd hv ▸ lt_irrefl _)
  · rw [hv] at hsound
    exact hsound.2.2

omit [Globals] in
theorem Modelled.plain (h : Modelled limit w v) (hw : ∀ v : Fin n → Phase,
    deepeningOf w' v = deepeningOf w v ∧ communicatorOf w' v = communicatorOf w v) :
    Modelled limit w' (Function.update v i (v i)) := by
  rw [Function.update_eq_self]
  exact ⟨(hw v).1 ▸ h.deepening, (hw v).2 ▸ h.communicator⟩

omit [Globals] in
theorem Modelled.silent (h : Modelled limit w v) {phase : Phase} {a : Deepening.JobAction}
    (hd : Deepening.jobStep limit (deepeningOf w v) i a =
      some (deepeningOf w' (Function.update v i phase)))
    (hphase : jobOf phase = jobOf (v i)) (hc : communicatorOf w' v = communicatorOf w v) :
    Modelled limit w' (Function.update v i phase) := by
  refine ⟨h.deepening.step (a := .job i a) trivial hd, ?_⟩
  rw [communicatorOf_update_same hphase, hc]
  exact h.communicator

omit [Globals] in
theorem Modelled.job (h : Modelled limit w v) {phase : Phase} {a : Deepening.JobAction}
    {c : JobCommunicator.JobAction} (hd : Deepening.jobStep limit (deepeningOf w v) i a =
      some (deepeningOf w' (Function.update v i phase)))
    (hc : JobCommunicator.jobStep limit (communicatorOf w v) i c =
      some ((communicatorOf w' v).setJob i (jobOf phase))) :
    Modelled limit w' (Function.update v i phase) := by
  refine ⟨h.deepening.step (a := .job i a) trivial hd, ?_⟩
  rw [communicatorOf_update]
  exact h.communicator.step (a := .job i c) trivial hc

omit [Globals] in
theorem deepeningOf_addLine (line : SearchResult) : deepeningOf (w.addLine line) v =
    { deepeningOf w v with lines := (deepeningOf w v).lines ++ [⟨line.depth, false⟩] } := by
  simp only [deepeningOf, Shared.addLine, List.map_append, List.map_singleton]

omit [Globals] in
theorem communicatorOf_addLine {line : SearchResult} {move : Move} {rest : List Move}
    (hpv : line.pv = move :: rest) : communicatorOf (w.addLine line) v =
      (communicatorOf w v).addLine ⟨line.depth, move :: rest⟩ := by
  simp only [communicatorOf, Shared.addLine, JobCommunicator.State.addLine, List.map_append,
    List.map_singleton, lineOf, hpv]

/-- A job of the engine does what a job of the models may do. -/
theorem Modelled.answer (h : Modelled limit w v) {q : Question ⊕ Request} {a : Joint Answer Reply q}
    (hasks : Asks (v i) q) (hpromise : Promises ok root repeated fair q) (ha : Answers w i q a w') :
    Modelled limit w' (Function.update v i (follow limit (v i) q a)) := by
  cases q with
  | inl q =>
    cases q with
    | isStopped =>
      obtain ⟨d, aborted, hv⟩ := hasks
      obtain ⟨rfl, rfl⟩ := ha
      have hjob : (deepeningOf w' v).jobs i = .running d aborted := hv
      rw [hv, follow_isStopped, looked]
      refine h.silent (a := .isStopped) ?_ ?_ rfl
      · simp only [Deepening.jobStep, hjob]
        rfl
      · rw [hv]
        split <;> rfl
    | checkTimeout =>
      obtain ⟨d, aborted, hv⟩ := hasks
      obtain rfl := ha
      have hjob : (deepeningOf w v).jobs i = .checking d aborted := hv
      have hjob' : (communicatorOf w v).jobs i = .searching d := congrArg jobOf hv
      rw [hv]
      cases a with
      | false =>
        refine h.silent (a := .checkTimeout false) ?_ ?_ ?_
        · simp only [Deepening.jobStep, hjob]
          rfl
        · rw [hv]
          rfl
        · rw [Bool.or_false]
      | true =>
        refine h.job (a := .checkTimeout true) (c := .checkTimeout) ?_ ?_
        · simp only [Deepening.jobStep, hjob]
          rfl
        · have hsame : Function.update (jobOf ∘ v) i (.searching d) = jobOf ∘ v := by
            rw [← hjob']
            exact Function.update_eq_self i _
          simp only [JobCommunicator.jobStep, hjob']
          show _ = some { communicatorOf _ v with jobs := Function.update (jobOf ∘ v) i (.searching d) }
          rw [hsame, Bool.or_true]
          rfl
    | depth =>
      obtain ⟨d, aborted, hv⟩ := hasks
      obtain ⟨rfl, rfl⟩ := ha
      have hjob : (deepeningOf w' v).jobs i = .checking d aborted := hv
      rw [hv]
      refine h.silent (a := .readDepth) ?_ ?_ rfl
      · simp only [Deepening.jobStep, hjob]
        rfl
      · rw [hv]
        rfl
    | load b =>
      obtain ⟨rfl, -⟩ := ha
      exact h.plain fun _ => ⟨rfl, rfl⟩
    | isCurrentEpoch data =>
      obtain rfl := ha
      exact h.plain fun _ => ⟨rfl, rfl⟩
    | store b data =>
      obtain rfl := ha
      exact h.plain fun _ => ⟨rfl, rfl⟩
    | evalForCur b tag =>
      obtain ⟨cache, -, rfl⟩ := ha
      exact h.plain fun _ => ⟨rfl, rfl⟩
    | useScore =>
      obtain rfl := ha
      exact h.plain fun _ => ⟨rfl, rfl⟩
  | inr r =>
    cases r with
    | isStopped =>
      obtain ⟨d, aborted, hv⟩ := hasks
      obtain ⟨rfl, rfl⟩ := ha
      have hjob : (deepeningOf w' v).jobs i = .running d aborted := hv
      have hret : Modelled limit w' (Function.update v i (.returned d aborted)) := by
        refine h.silent (a := .ret) ?_ ?_ rfl
        · simp only [Deepening.jobStep, hjob]
          rfl
        · rw [hv]
          rfl
      have hret' : (deepeningOf w' (Function.update v i (.returned d aborted))).jobs i =
          .returned d aborted := Function.update_self i _ v
      have hjob' : (communicatorOf w' (Function.update v i (.returned d aborted))).jobs i =
          .searching d := congrArg jobOf hret'
      rw [hv, ← Function.update_idem (Phase.returned d aborted) _ v]
      refine hret.job (a := .test) (c := .run) ?_ ?_
      · simp only [Deepening.jobStep, hret']
        rfl
      · simp only [JobCommunicator.jobStep, hjob']
        show some ((communicatorOf w' _).setJob i (if w'.stopped = true then .terminated else .tested d)) =
          some ((communicatorOf w' _).setJob i (jobOf (afterSearch w'.stopped (.running d aborted))))
        rw [afterSearch]
        split <;> rfl
    | finishDepth d =>
      obtain ⟨aborted, hv⟩ := hasks
      obtain ⟨rfl, rfl⟩ := ha
      have hjob : (deepeningOf w v).jobs i = .tested d aborted := hv
      have hjob' : (communicatorOf w v).jobs i = .tested d := congrArg jobOf hv
      have hfollow : follow limit (v i) (.inr (.finishDepth d)) (decide (w.depth = d)) =
        if w.depth = d then .adding d aborted else Deepening.nextDepth limit (d + 1) := by
        rw [hv]
        show (if decide (w.depth = d) = true then _ else _) = _
        simp only [decide_eq_true_eq]
      rw [hfollow]
      by_cases hd : w.depth = d
      · rw [if_pos hd, if_pos hd]
        refine h.job (a := .finishDepth) (c := .finishDepth) ?_ ?_
        · simp only [Deepening.jobStep, hjob]
          exact if_pos hd
        · simp only [JobCommunicator.jobStep, hjob']
          exact if_pos hd
      · rw [if_neg hd, if_neg hd]
        refine h.job (a := .finishDepth) (c := .finishDepth) ?_ ?_
        · simp only [Deepening.jobStep, hjob]
          exact if_neg hd
        · simp only [JobCommunicator.jobStep, hjob', jobOf_nextDepth]
          exact if_neg hd
    | addLine line =>
      obtain ⟨aborted, hv⟩ := hasks
      obtain rfl := ha
      have hfalse := h.aborted (Or.inr hv) fun he => by rw [hv] at he; cases he
      subst hfalse
      have hjob : (deepeningOf w v).jobs i = .adding line.depth false := hv
      have hjob' : (communicatorOf w v).jobs i = .adding line.depth := congrArg jobOf hv
      obtain ⟨move, rest, hpv, -⟩ := hpromise.moves
      refine h.job (a := .addLine) (c := .addLine move rest) ?_ ?_
      · simp only [Deepening.jobStep, hjob, deepeningOf_addLine]
        rfl
      · simp only [JobCommunicator.jobStep, hjob', communicatorOf_addLine hpv]
        rw [follow, jobOf_nextDepth]
    | stop =>
      have hv : v i = .stopping := hasks
      obtain rfl := ha
      have hjob : (deepeningOf w v).jobs i = .stopping := hv
      have hjob' : (communicatorOf w v).jobs i = .stopping := congrArg jobOf hv
      refine h.job (a := .stop) (c := .stop) ?_ ?_
      · simp only [Deepening.jobStep, hjob]
        rfl
      · simp only [JobCommunicator.jobStep, hjob']
        rfl

omit [Globals] in
theorem communicatorOf_extractLines :
    communicatorOf w.extractLines v = (communicatorOf w v).extractLines := by
  have hsort : (w.lines.insertionSort fun a b => a.depth ≤ b.depth).map lineOf =
      (w.lines.map lineOf).insertionSort fun a b => a.depth ≤ b.depth :=
    List.map_insertionSort _ _ lineOf w.lines fun _ _ _ _ => Iff.rfl
  simp only [communicatorOf, Shared.extractLines, JobCommunicator.State.extractLines, List.map_append,
    List.map_nil, hsort]

omit [Globals] in
theorem Modelled.event (h : Modelled limit w v) {a : JobCommunicator.Action n}
    (hs : JobCommunicator.step limit (communicatorOf w v) a = some (communicatorOf w' v))
    (hd : deepeningOf w' v = deepeningOf w v) : Modelled limit w' v :=
  ⟨hd ▸ h.deepening, h.communicator.step trivial hs⟩

/-- The main thread of the engine does what that of the models may do. -/
theorem Modelled.main (h : Modelled limit p.shared v)
    (hdone : ∀ i, p.threads i = .done () → v i = .terminated) (hs : MainStep root p w) :
    Modelled limit w v := by
  cases hs with
  | stop =>
    exact ⟨h.deepening.step (a := .stop) trivial rfl, h.communicator.step (a := .stop) trivial rfl⟩
  | newLines hm hlines =>
    have hmain : (communicatorOf p.shared v).main = .mainLoop := hm
    refine h.event (a := .waitForEvent) ?_ rfl
    have hlines' : (communicatorOf p.shared v).lines ≠ [] := fun he => hlines (List.map_eq_nil_iff.mp he)
    rw [JobCommunicator.step, if_pos hmain, if_pos hlines']
    rfl
  | leave hm hlines hstopped =>
    have hmain : (communicatorOf p.shared v).main = .mainLoop := hm
    refine h.event (a := .waitForEvent) ?_ rfl
    have hlines' : (communicatorOf p.shared v).lines = [] := List.map_eq_nil_iff.mpr hlines
    rw [JobCommunicator.step, if_pos hmain, if_neg (not_not.mpr hlines')]
    exact if_pos hstopped
  | timeout hm hlines hstopped =>
    have hmain : (communicatorOf p.shared v).main = .mainLoop := hm
    refine h.event (a := .waitForEvent) ?_ rfl
    have hlines' : (communicatorOf p.shared v).lines = [] := List.map_eq_nil_iff.mpr hlines
    have hstopped' : ¬(communicatorOf p.shared v).stopped = true := (Bool.not_eq_true _).mpr hstopped
    rw [JobCommunicator.step, if_pos hmain, if_neg (not_not.mpr hlines'), if_neg hstopped']
    rfl
  | extractLines hm =>
    have hmain : (communicatorOf p.shared v).main = .extractLines := hm
    refine h.event (a := .extractLines) ?_ rfl
    rw [JobCommunicator.step, if_pos hmain, ← communicatorOf_extractLines]
    rfl
  | mustStop limitReached hm =>
    have hmain : (communicatorOf p.shared v).main = .mustStop := hm
    have hstep : JobCommunicator.step limit (communicatorOf p.shared v) (.mustStop limitReached) =
        some (communicatorOf
          { p.shared with stopped := p.shared.stopped || limitReached, main := .mainLoop } v) := by
      rw [JobCommunicator.step, if_pos hmain]
      rfl
    refine ⟨?_, h.communicator.step (a := .mustStop limitReached) trivial hstep⟩
    cases limitReached with
    | false =>
      rw [Bool.or_false]
      exact h.deepening
    | true =>
      rw [Bool.or_true]
      exact h.deepening.step (a := .stop) trivial rfl
  | joinThreads hm hjoined =>
    have hmain : (communicatorOf p.shared v).main = .joinThreads := hm
    refine h.event (a := .joinThreads) ?_ rfl
    have hall : ∀ i, (communicatorOf p.shared v).jobs i = .terminated := fun i =>
      congrArg jobOf (hdone i (hjoined i))
    rw [JobCommunicator.step, if_pos ⟨hmain, hall⟩]
    rfl
  | finishSearch shuffled hm hperm =>
    have hmain : (communicatorOf p.shared v).main = .finishSearch := hm
    refine h.event (a := .finishSearch (pickRandomMove root shuffled)) ?_ rfl
    rw [JobCommunicator.step, if_pos hmain]
    rfl

end Models

section Invariant

variable [Globals] {n limit : Nat} {probed evaluated : List Board} {root : Board} {repeated : Prop}
variable {memory : Memory} {w w' : Shared} {v : Fin n → Phase} {i : Fin n} {p p' : State n}
variable {q : Question ⊕ Request} {a : Joint Answer Reply q}

/-- What has been asked is among so many boards. -/
def Memory.Within (probed evaluated : List Board) (memory : Memory) : Prop :=
  memory.probed ⊆ probed ∧ memory.evaluated ⊆ evaluated

/-- What holds of the shared state as long as the boards of the table can be told apart. -/
structure Inv (limit : Nat) (probed evaluated : List Board) (root : Board) (repeated : Prop) (w : Shared)
    (v : Fin n → Phase) : Prop where
  modelled : Modelled limit w v
  memory : w.toMemory.Sound probed evaluated
  added : ∀ line ∈ w.added, Good root repeated (PawnsDistinct evaluated) line
  lines : ∀ line ∈ w.lines, line ∈ w.added
  sent : ∀ line ∈ w.sent, line ∈ w.added
  best : w.bestMove = Move.null ∨ SafeMove root w.bestMove
  answer : ∀ move, w.main = .finished move → Settled root move

theorem Memory.Sound.answer (hsub : w'.Within probed evaluated) (h : w.toMemory.Sound probed evaluated)
    (hpromise : Promises ok root repeated (PawnsDistinct evaluated) q) (ha : Answers w i q a w') :
    w'.toMemory.Sound probed evaluated := by
  cases q with
  | inl q =>
    cases q with
    | isStopped | depth =>
      obtain ⟨-, rfl⟩ := ha
      exact h
    | checkTimeout | isCurrentEpoch data | useScore =>
      obtain rfl := ha
      exact h
    | load b =>
      obtain ⟨rfl, -⟩ := ha
      exact ⟨h.stores, h.caches⟩
    | store b data =>
      obtain rfl := ha
      obtain ⟨hvalid, hstorable, hdata, hsane⟩ := hpromise
      refine ⟨fun b' data' hmem => ?_, h.caches⟩
      obtain he | hmem := List.mem_cons.mp hmem
      · obtain ⟨rfl, rfl⟩ := Prod.mk.inj he
        exact ⟨hsub.1 List.mem_cons_self, hvalid, hstorable, hdata, hsane⟩
      · exact h.stores b' data' hmem
    | evalForCur b tag =>
      obtain ⟨cache, heval, rfl⟩ := ha
      obtain ⟨hvalid, htag⟩ := hpromise
      refine ⟨h.stores, fun hdistinct j => ?_⟩
      obtain ⟨score, cache', heval', -, -, hcache⟩ :=
        evalForCur_spec hdistinct (hsub.2 List.mem_cons_self) hvalid (h.caches hdistinct i)
      rw [htag, heval'] at heval
      obtain ⟨-, rfl⟩ := Prod.mk.inj (Option.some.inj heval)
      show Truthful layout _ (Function.update w.caches i cache' j)
      by_cases hj : j = i
      · rw [hj, Function.update_self]
        exact hcache
      · rw [Function.update_of_ne hj]
        exact h.caches hdistinct j
  | inr r =>
    cases r with
    | isStopped =>
      obtain ⟨-, rfl⟩ := ha
      exact h
    | finishDepth d =>
      obtain ⟨-, rfl⟩ := ha
      split <;> exact h
    | addLine line | stop =>
      obtain rfl := ha
      exact h

/-- The others keep what a job expects of them. -/
theorem Inv.expects (hdistinct : Distinct probed) (hsub : w'.Within probed evaluated)
    (h : Inv limit probed evaluated root repeated w v) (hasks : Asks (v i) q)
    (hpromise : Promises ok root repeated (PawnsDistinct evaluated) q) (ha : Answers w i q a w') :
    Expects (PawnsDistinct evaluated) (v i) q a := by
  cases q with
  | inl q =>
    cases q with
    | load b =>
      obtain ⟨rfl, hload⟩ := ha
      intro hvalid
      obtain ⟨b', data', hmem, hhash, hdata⟩ := hload hvalid
      obtain ⟨hb', hstored⟩ := h.memory.stores b' data' hmem
      rw [hdata]
      exact hstored.load hpromise (hdistinct b' hb' b (hsub.1 List.mem_cons_self) hhash) _
    | evalForCur b tag =>
      obtain ⟨cache, heval, rfl⟩ := ha
      obtain ⟨hvalid, htag⟩ := hpromise
      intro hpawns
      obtain ⟨score, cache', heval', hlo, hhi, -⟩ :=
        evalForCur_spec hpawns (hsub.2 List.mem_cons_self) hvalid (h.memory.caches hpawns i)
      rw [htag, heval'] at heval
      obtain ⟨rfl, -⟩ := Prod.mk.inj (Option.some.inj heval)
      exact ⟨hlo, hhi⟩
    | isStopped | checkTimeout | depth | isCurrentEpoch data | store b data | useScore => trivial
  | inr r =>
    cases r with
    | finishDepth d =>
      obtain ⟨aborted, hv⟩ := hasks
      obtain ⟨rfl, -⟩ := ha
      intro hfirst
      have hfalse := h.modelled.aborted (Or.inl hv) fun _ => of_decide_eq_true hfirst
      rw [hv, hfalse]
    | isStopped | addLine line | stop => trivial

/-- An answer keeps to the contract, and the invariant goes on. -/
theorem Inv.step (hdistinct : Distinct probed) (hsub : w'.Within probed evaluated)
    (h : Inv limit probed evaluated root repeated w v)
    (hguar : (contract ok root repeated (PawnsDistinct evaluated) limit).guar (v i) q)
    (ha : Answers w i q a w') :
    ∃ phase, (contract ok root repeated (PawnsDistinct evaluated) limit).rely (v i) q a phase ∧
      Inv limit probed evaluated root repeated w' (Function.update v i phase) := by
  obtain ⟨hasks, hpromise⟩ := hguar
  refine ⟨_, ⟨hasks, h.expects hdistinct hsub hasks hpromise ha, rfl⟩, ?_⟩
  have hmodelled := h.modelled.answer hasks hpromise ha
  have hmemory := h.memory.answer hsub hpromise ha
  cases q with
  | inl q =>
    cases q with
    | isStopped | depth =>
      obtain ⟨-, rfl⟩ := ha
      exact ⟨hmodelled, hmemory, h.added, h.lines, h.sent, h.best, h.answer⟩
    | checkTimeout | isCurrentEpoch data | useScore | store b data =>
      obtain rfl := ha
      exact ⟨hmodelled, hmemory, h.added, h.lines, h.sent, h.best, h.answer⟩
    | load b =>
      obtain ⟨rfl, -⟩ := ha
      exact ⟨hmodelled, hmemory, h.added, h.lines, h.sent, h.best, h.answer⟩
    | evalForCur b tag =>
      obtain ⟨cache, -, rfl⟩ := ha
      exact ⟨hmodelled, hmemory, h.added, h.lines, h.sent, h.best, h.answer⟩
  | inr r =>
    cases r with
    | isStopped =>
      obtain ⟨-, rfl⟩ := ha
      exact ⟨hmodelled, hmemory, h.added, h.lines, h.sent, h.best, h.answer⟩
    | finishDepth d =>
      obtain ⟨-, hw⟩ := ha
      by_cases hd : w.depth = d
      · rw [if_pos hd] at hw
        subst hw
        exact ⟨hmodelled, hmemory, h.added, h.lines, h.sent, h.best, h.answer⟩
      · rw [if_neg hd] at hw
        subst hw
        exact ⟨hmodelled, hmemory, h.added, h.lines, h.sent, h.best, h.answer⟩
    | stop =>
      obtain rfl := ha
      exact ⟨hmodelled, hmemory, h.added, h.lines, h.sent, h.best, h.answer⟩
    | addLine line =>
      obtain rfl := ha
      refine ⟨hmodelled, hmemory, ?_, ?_, ?_, h.best, h.answer⟩
      · intro line' hline
        obtain hline | hline := List.mem_append.mp hline
        · exact h.added line' hline
        · rw [List.mem_singleton.mp hline]
          exact hpromise
      · intro line' hline
        obtain hline | hline := List.mem_append.mp hline
        · exact List.mem_append_left _ (h.lines line' hline)
        · exact List.mem_append_right _ hline
      · intro line' hline
        exact List.mem_append_left _ (h.sent line' hline)

end Invariant

section Runs

variable [Globals] {n limit : Nat} {probed evaluated : List Board} {root : Board} {repeated : Prop}
variable {memory : Memory} {w w' : Shared} {v : Fin n → Phase} {p p' : State n} {moves : List Move}
variable {log : List (Board × Move)} {S : Sorter} {D : Shuffler} {turns depthLimit : Nat} {first : Board}

omit [Globals] in
theorem foldl_consider {P : Move → Prop} {lines : List JobCommunicator.Line} {best : Nat × Move}
    (h : P best.2) (hlines : ∀ line ∈ lines, ∀ move rest, line.pv = move :: rest → P move) :
    P (lines.foldl JobCommunicator.consider best).2 := by
  induction lines generalizing best with
  | nil => exact h
  | cons line lines ih =>
    rw [List.foldl_cons]
    refine ih ?_ fun line' hmem => hlines line' (List.mem_cons_of_mem _ hmem)
    rw [JobCommunicator.consider]
    split
    · exact h
    · rename_i move rest hpv
      split
      · exact hlines line List.mem_cons_self move rest hpv
      · exact h

/-- The main thread goes on with the invariant. -/
theorem Inv.main (hroot : Valid root) (h : Inv limit probed evaluated root repeated p.shared v)
    (hdone : ∀ i, p.threads i = .done () → v i = .terminated) (hs : MainStep root p w) :
    Inv limit probed evaluated root repeated w v := by
  have hmodelled := h.modelled.main hdone hs
  cases hs with
  | stop => exact ⟨hmodelled, h.memory, h.added, h.lines, h.sent, h.best, h.answer⟩
  | newLines | leave | timeout | mustStop | joinThreads =>
    exact ⟨hmodelled, h.memory, h.added, h.lines, h.sent, h.best, fun _ he => by cases he⟩
  | extractLines hm =>
    refine ⟨hmodelled, h.memory, h.added, ?_, ?_, ?_, fun _ he => by cases he⟩
    · exact fun line hline => absurd hline List.not_mem_nil
    · intro line hline
      obtain hline | hline := List.mem_append.mp hline
      · exact h.sent line hline
      · exact h.lines line ((List.mem_insertionSort _).mp hline)
    · refine foldl_consider (P := fun m => m = Move.null ∨ SafeMove root m) h.best ?_
      intro line hline move rest hpv
      obtain ⟨line', hline', rfl⟩ := List.mem_map.mp hline
      obtain ⟨move', rest', hpv', hmove, -⟩ :=
        (h.added line' (h.lines line' ((List.mem_insertionSort _).mp hline'))).moves
      have hsame : move' :: rest' = move :: rest := hpv'.symm.trans hpv
      obtain ⟨rfl, -⟩ := List.cons.inj hsame
      exact hmove
  | finishSearch shuffled hm hperm =>
    refine ⟨hmodelled, h.memory, h.added, h.lines, h.sent, h.best, fun move he => ?_⟩
    obtain rfl := MainPhase.finished.inj he
    split
    · exact settled_pickRandomMove hroot hperm
    · rename_i hbest
      exact settled_legal hroot (h.best.resolve_left hbest)

/-- Nothing that was asked is forgotten. -/
theorem within_of_step {last : Board} (hs : Step last p p') (h : p'.shared.Within probed evaluated) :
    p.shared.Within probed evaluated := by
  cases hs with
  | @answer i q k a w hask ha =>
    have hw : p.shared.probed ⊆ w.probed ∧ p.shared.evaluated ⊆ w.evaluated := by
      cases q with
      | inl q =>
        cases q with
        | isStopped | depth => exact ha.2 ▸ ⟨List.Subset.refl _, List.Subset.refl _⟩
        | checkTimeout | isCurrentEpoch data | useScore =>
          obtain rfl := ha
          exact ⟨List.Subset.refl _, List.Subset.refl _⟩
        | load b =>
          obtain ⟨rfl, -⟩ := ha
          exact ⟨List.subset_cons_self _ _, List.Subset.refl _⟩
        | store b data =>
          obtain rfl := ha
          exact ⟨List.subset_cons_self _ _, List.Subset.refl _⟩
        | evalForCur b tag =>
          obtain ⟨cache, -, rfl⟩ := ha
          exact ⟨List.Subset.refl _, List.subset_cons_self _ _⟩
      | inr r =>
        cases r with
        | isStopped => exact ha.2 ▸ ⟨List.Subset.refl _, List.Subset.refl _⟩
        | finishDepth d =>
          obtain ⟨-, rfl⟩ := ha
          split <;> exact ⟨List.Subset.refl _, List.Subset.refl _⟩
        | addLine line | stop =>
          obtain rfl := ha
          exact ⟨List.Subset.refl _, List.Subset.refl _⟩
    exact ⟨List.Subset.trans hw.1 h.1, List.Subset.trans hw.2 h.2⟩
  | other hw =>
    cases hw <;> exact h

theorem within_of_run {last : Board} (hs : Relation.ReflTransGen (Step last) p p')
    (h : p'.shared.Within probed evaluated) : p.shared.Within probed evaluated := by
  induction hs with
  | refl => exact h
  | tail _ hs ih => exact ih (within_of_step hs h)

/-- All the jobs and the main thread keep to the contract together. -/
def Kept (limit : Nat) (probed evaluated : List Board) (root : Board) (repeated : Prop) (p : State n)
    (v : Fin n → Phase) : Prop :=
  Pool.Kept (contract ok root repeated (PawnsDistinct evaluated) limit)
    (fun phase _ => phase = .terminated) (Inv limit probed evaluated root repeated) p v

theorem Kept.done (h : Kept limit probed evaluated root repeated p v) (i : Fin n)
    (hdone : p.threads i = .done ()) : v i = .terminated := by
  have hkeeps := h.threads i
  rw [hdone] at hkeeps
  exact hkeeps

theorem kept_begin (hvalid : Valid (Position.fromMoves first moves).last)
    (hmemory : memory.Sound probed evaluated) :
    Kept (min depthLimit maxDepth) probed evaluated (Position.fromMoves first moves).last
      (Repeated (Position.fromMoves first moves)) (begin S D turns n memory (Position.fromMoves first moves) depthLimit)
      fun _ => Deepening.nextDepth (min depthLimit maxDepth) 1 where
  shared := by
    refine ⟨modelled_start memory, hmemory, ?_, ?_, ?_, Or.inl rfl, fun _ he => by cases he⟩
    · exact fun line hline => absurd hline List.not_mem_nil
    · exact fun line hline => absurd hline List.not_mem_nil
    · exact fun line hline => absurd hline List.not_mem_nil
  threads i := by
    have hlast : Valid (after (Position.fromMoves first moves).first
      (Position.fromMoves first moves).moves) := hvalid
    exact keeps_jobRun S D i turns tracks_shipped hlast

theorem kept_run (hvalid : Valid (Position.fromMoves first moves).last) (hdistinct : Distinct probed)
    (hmemory : memory.Sound probed evaluated)
    (hrun : Relation.ReflTransGen (Step (Position.fromMoves first moves).last)
      (begin S D turns n memory (Position.fromMoves first moves) depthLimit) p)
    (hsub : p.shared.Within probed evaluated) :
    ∃ v, Kept (min depthLimit maxDepth) probed evaluated (Position.fromMoves first moves).last
      (Repeated (Position.fromMoves first moves)) p v := by
  refine Pool.Kept.run (E := fun w => w.Within probed evaluated) ?_ ?_ ?_ (kept_begin hvalid hmemory)
    hrun hsub
  · exact fun p p' hs h => within_of_step hs h
  · exact fun w v i q a w' hsub h hguar ha => h.step hdistinct hsub hguar ha
  · exact fun p v w hkept hs => hkept.shared.main hvalid (fun i => Kept.done hkept i) hs

theorem Session.sound (h : Session log memory) (hdistinct : Distinct probed)
    (hsub : memory.Within probed evaluated) :
    memory.Sound probed evaluated ∧ ∀ b answer, (b, answer) ∈ log → Settled b answer := by
  induction h with
  | fresh => exact ⟨Memory.sound_fresh, fun b answer h => absurd h List.not_mem_nil⟩
  | @lose log memory h stores replaced hstores ih =>
    obtain ⟨hsound, hlog⟩ := ih hsub
    refine ⟨⟨fun b data hmem => hsound.stores b data (hstores hmem), fun hpawns i => ?_⟩, hlog⟩
    dsimp only
    split
    · exact truthful_fresh
    · exact hsound.caches hpawns i
  | @search log memory h S D turns n depthLimit first moves hvalid p answer hrun hanswer ih =>
    obtain ⟨hsound, hlog⟩ := ih (within_of_run hrun hsub)
    obtain ⟨v, hkept⟩ := kept_run hvalid hdistinct hsound hrun hsub
    refine ⟨hkept.shared.memory, fun b move hmem => ?_⟩
    obtain hmem | hmem := List.mem_append.mp hmem
    · exact hlog b move hmem
    · obtain ⟨rfl, rfl⟩ := Prod.mk.inj (List.mem_singleton.mp hmem)
      exact hkept.shared.answer move hanswer

end Runs

section Answers

variable [Globals] {n : Nat} {memory : Memory} {log : List (Board × Move)} {p : State n}
variable {S : Sorter} {D : Shuffler} {turns depthLimit : Nat} {first : Board} {moves : List Move}

/-- Whatever was searched before and however the jobs, the clock and the requests to stop interleave:
what is answered is a legal move, or the null move where there is none. -/
theorem session_settled (h : Session log memory) (hdistinct : Distinct memory.probed) :
    ∀ b answer, (b, answer) ∈ log → Settled b answer :=
  (h.sound hdistinct ⟨List.Subset.refl _, List.Subset.refl memory.evaluated⟩).2

end Answers

section OutAndBack

variable [Globals] {n : Nat} {last : Board} {job : Nat} {w w' : Shared} {i : Fin n}

/-- What a job is answered if nothing is found in the table and time does not run out. -/
def reply (w : Shared) (job : Nat) :
    (q : Question ⊕ Request) → Option (Joint Answer Reply q × Shared)
  | .inl .isStopped => some (w.stopped, w)
  | .inl .checkTimeout => some (false, { w with stopped := w.stopped || false })
  | .inl .depth => some (w.depth, w)
  | .inl (.load board) => some (Data.zero, w.probe board)
  | .inl (.isCurrentEpoch _) => some (true, w)
  | .inl (.store board data) => some ((), { w.probe board with stores := (board, data) :: w.stores })
  | .inl (.evalForCur board tag) =>
    (evalForCur (w.caches job) board tag).map fun out =>
      (out.1, { w with
        caches := Function.update w.caches job out.2
        evaluated := board :: w.evaluated })
  | .inl .useScore => some ((), w)
  | .inr .isStopped => some (w.stopped, w)
  | .inr (.finishDepth depth) => some (decide (w.depth = depth),
      if w.depth = depth then { w with depth := depth + 1, finished := w.finished ++ [depth] } else w)
  | .inr (.addLine line) => some ((), w.addLine line)
  | .inr .stop => some ((), { w with stopped := true })

omit [Globals] in
theorem answers_reply {q : Question ⊕ Request} {a : Joint Answer Reply q}
    (h : reply w job q = some (a, w')) : Answers w job q a w' := by
  cases q with
  | inl q =>
    cases q with
    | isStopped | depth =>
      cases h
      exact ⟨rfl, rfl⟩
    | checkTimeout | isCurrentEpoch data | store b data | useScore =>
      cases h
      rfl
    | load b =>
      cases h
      exact ⟨rfl, fun hvalid => absurd hvalid (by decide)⟩
    | evalForCur b tag =>
      obtain ⟨⟨score, cache⟩, heval, hout⟩ := Option.map_eq_some_iff.mp h
      obtain ⟨rfl, rfl⟩ := Prod.mk.inj hout
      exact ⟨cache, heval, rfl⟩
  | inr r =>
    cases r with
    | isStopped | finishDepth d =>
      cases h
      exact ⟨rfl, rfl⟩
    | addLine line | stop =>
      cases h
      rfl

/-- A job goes on alone to its end. -/
def drive (job : Nat) : (turns : Nat) → Dialogue (Joint Answer Reply) Unit → Shared → Option Shared
  | 0, _, _ => none
  | _ + 1, .done _, w => some w
  | _ + 1, .stuck, _ => none
  | turns + 1, .ask q k, w => (reply w job q).bind fun out => drive job turns (k out.1) out.2

theorem steps_drive {turns : Nat} {t : Dialogue (Joint Answer Reply) Unit}
    {threads : Fin n → Dialogue (Joint Answer Reply) Unit} (ht : threads i = t)
    (h : drive i turns t w = some w') :
    Relation.ReflTransGen (Step last) ⟨w, threads⟩ ⟨w', Function.update threads i (.done ())⟩ := by
  induction turns generalizing t w threads with
  | zero => cases h
  | succ turns ih =>
    cases t with
    | stuck => cases h
    | done a =>
      cases h
      rw [show (Dialogue.done () : Dialogue (Joint Answer Reply) Unit) = threads i from ht.symm,
        Function.update_eq_self]
    | ask q k =>
      obtain ⟨⟨a, w₁⟩, hreply, hdrive⟩ := Option.bind_eq_some_iff.mp h
      have hrest := ih (Function.update_self i (k a) threads) hdrive
      rw [Function.update_idem] at hrest
      exact .head (.answer ht (answers_reply hreply)) hrest

theorem steps_main {p : State n} (hmain : p.shared.main = .mainLoop) (hlines : p.shared.lines ≠ [])
    (hstopped : p.shared.stopped = true) (hdone : ∀ i, p.threads i = .done ()) :
    ∃ answer p', Relation.ReflTransGen (Step last) p p' ∧ p'.shared.main = .finished answer ∧
      p'.shared.toMemory = p.shared.toMemory ∧ p'.shared.sent.length = p.shared.sent.length +
        p.shared.lines.length := by
  let w₁ : Shared := { p.shared with main := .extractLines }
  let w₂ : Shared := { w₁.extractLines with main := .mustStop }
  let w₃ : Shared := { w₂ with stopped := w₂.stopped || false, main := .mainLoop }
  let w₄ : Shared := { w₃ with main := .joinThreads }
  let w₅ : Shared := { w₄ with main := .finishSearch }
  have hstop : w₃.stopped = true := (Bool.or_false _).trans hstopped
  have h₁ : Step last p ⟨w₁, p.threads⟩ := .other (.newLines hmain hlines)
  have h₂ : Step last ⟨w₁, p.threads⟩ ⟨w₂, p.threads⟩ := .other (.extractLines rfl)
  have h₃ : Step last ⟨w₂, p.threads⟩ ⟨w₃, p.threads⟩ := .other (.mustStop false rfl)
  have h₄ : Step last ⟨w₃, p.threads⟩ ⟨w₄, p.threads⟩ := .other (.leave rfl rfl hstop)
  have h₅ : Step last ⟨w₄, p.threads⟩ ⟨w₅, p.threads⟩ := .other (.joinThreads rfl hdone)
  have h₆ : Step last ⟨w₅, p.threads⟩ _ := .other (.finishSearch _ rfl (List.Perm.refl _))
  refine ⟨_, _, .head h₁ (.head h₂ (.head h₃ (.head h₄ (.head h₅ (.single h₆))))), rfl, rfl, ?_⟩
  exact (List.length_append ..).trans (congrArg (_ + ·) (List.length_insertionSort _ _))

variable (S : Sorter) (D : Shuffler) {turns depthLimit : Nat} {position : Position} {memory : Memory}

theorem steps_begin {w₁ w₂ : Shared}
    (h₁ : drive 0 turns (jobRun S D 0 turns depthLimit position) memory.start = some w₁)
    (h₂ : drive 1 turns (jobRun S D 1 turns depthLimit position) w₁ = some w₂) :
    Relation.ReflTransGen (Step last) (begin S D turns 2 memory position depthLimit)
      ⟨w₂, fun _ => .done ()⟩ := by
  have hfirst : Relation.ReflTransGen (Step last)
      ⟨memory.start, (begin S D turns 2 memory position depthLimit).threads⟩ ⟨w₁, _⟩ :=
    steps_drive (i := 0) rfl h₁
  have hsecond : Relation.ReflTransGen (Step last) ⟨w₁, Function.update
      (begin S D turns 2 memory position depthLimit).threads 0 (.done ())⟩ ⟨w₂, _⟩ :=
    steps_drive (i := 1) rfl h₂
  have hthreads : Function.update (Function.update
      (begin S D turns 2 memory position depthLimit).threads 0 (.done ())) 1 (.done ()) =
      fun _ => .done () := by
    funext i
    fin_cases i <;> rfl
  rw [hthreads] at hsecond
  exact hfirst.trans hsecond

omit [Globals] in
theorem drive_outAndBackGame : letI := spreadGlobals
    ((drive 0 9 (jobRun Sorter.inserting keepingShuffler 0 9 1 (outAndBackGame 2)) Memory.fresh.start).bind
        (drive 1 9 (jobRun Sorter.inserting keepingShuffler 1 9 1 (outAndBackGame 2)))).any
      (fun w => decide (w.lines.map lineOf = [⟨1, [Move.null]⟩] ∧ w.main = .mainLoop ∧
        w.stopped = true ∧ w.probed.length = 1 ∧ w.evaluated.length = 0)) = true := by
  decide +kernel

omit [Globals] in
theorem run_outAndBackGame : letI := spreadGlobals
    ∃ (answer : Move) (p : State 2), Relation.ReflTransGen (Step (outAndBackGame 2).last)
        (begin Sorter.inserting keepingShuffler 9 2 Memory.fresh (outAndBackGame 2) 1) p ∧
      p.shared.main = .finished answer ∧ Distinct p.shared.probed ∧ PawnsDistinct p.shared.evaluated ∧
      p.shared.sent ≠ [] := by
  let _ := spreadGlobals
  obtain ⟨w₂, hdrive, hw⟩ := (Option.any_eq_true _ _).mp drive_outAndBackGame
  obtain ⟨w₁, h₁, h₂⟩ := Option.bind_eq_some_iff.mp hdrive
  obtain ⟨hlines, hmain, hstopped, hprobed, hevaluated⟩ := of_decide_eq_true hw
  have hne : w₂.lines ≠ [] := by
    intro he
    rw [he] at hlines
    cases hlines
  let done : State 2 := ⟨w₂, fun _ => .done ()⟩
  obtain ⟨answer, p, hrun, hanswer, hmemory, hsent⟩ :
      ∃ answer p, Relation.ReflTransGen (Step (outAndBackGame 2).last) done p ∧
        p.shared.main = .finished answer ∧ p.shared.toMemory = w₂.toMemory ∧
        p.shared.sent.length = w₂.sent.length + w₂.lines.length :=
    steps_main hmain hne hstopped fun _ => rfl
  refine ⟨answer, p, (steps_begin _ _ h₁ h₂).trans hrun, hanswer, ?_, ?_, ?_⟩
  · intro b hb b' hb' _
    rw [hmemory] at hb hb'
    obtain ⟨x, hx⟩ := List.length_eq_one_iff.mp hprobed
    have hlist : ∀ y ∈ w₂.toMemory.probed, y = x := fun y hy => List.mem_singleton.mp (hx ▸ hy)
    rw [hlist b hb, hlist b' hb']
  · intro b hb
    rw [hmemory] at hb
    exact absurd (List.eq_nil_of_length_eq_zero hevaluated ▸ hb : b ∈ []) List.not_mem_nil
  · intro he
    rw [he] at hsent
    have hpos := List.length_pos_iff.mpr hne
    rw [List.length_nil] at hsent
    omega

omit [Globals] in
theorem session_settled_outAndBack : letI := spreadGlobals
    ∃ answer memory, Session [((outAndBackGame 2).last, answer)] memory ∧
      ∀ b answer', (b, answer') ∈ [((outAndBackGame 2).last, answer)] → Settled b answer' := by
  let _ := spreadGlobals
  obtain ⟨answer, p, hrun, hanswer, hdistinct, -, -⟩ := run_outAndBackGame
  have hvalid := valid_last_outAndBackGame 2 (by decide)
  have hsession : Session ([] ++ [((outAndBackGame 2).last, answer)]) p.shared.toMemory :=
    .search .fresh _ _ _ _ _ hvalid hrun hanswer
  exact ⟨answer, p.shared.toMemory, hsession, session_settled hsession hdistinct⟩

end OutAndBack

end SoFCheck.Search.Engine
