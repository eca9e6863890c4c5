import SoFCheck.Eval.Costs
import SoFCheck.Search.Deepening
import SoFCheck.Search.Evaluations
import SoFCheck.Search.RootMove
import SoFCheck.Search.Types
import SoFCheck.Search.UnwindPv

namespace SoFCheck.Search.JobRun

open SoFCheck.Util.Imperative SoFCheck.Util.Imperative.Program
open SoFCheck.Core.Types SoFCheck.Core.BoardState SoFCheck.Core.Moves SoFCheck.Core.Attack
open SoFCheck.Core.Validate SoFCheck.Core.MoveMake SoFCheck.Core.MakeBoard SoFCheck.Core.MakeRefine
open SoFCheck.Core.Sequence SoFCheck.Core.LegalMoves SoFCheck.Eval.Score SoFCheck.Eval.Costs
open SoFCheck.Search.Tables SoFCheck.Search.Pickers SoFCheck.Search.PickerSteps
open SoFCheck.Search.TableData SoFCheck.Search.Job SoFCheck.Search.Types SoFCheck.Search.Discipline
open SoFCheck.Search.Deepening (Phase nextDepth)
open SoFCheck.Search.UnwindPv (stops)
open SoFCheck.Search.Windows (Sane)
open SoFCheck.Search.RootMove

/-- An intermediate result of the search. -/
structure SearchResult where
  depth : Nat
  pv : List Move
  cost : PositionCost
  bound : PositionCostBound

/-- What a job asks of the communicator, beside what its searches ask. -/
inductive Request where
  | isStopped
  | finishDepth (depth : Nat)
  | addLine (line : SearchResult)
  | stop

abbrev Reply : Request → Type
  | .isStopped | .finishDepth _ => Bool
  | .addLine _ | .stop => Unit

section Model

variable [Evaluator]

abbrev JobPart (ρ α : Type) : Type := Program (Joint Answer Reply) Searcher ρ α

abbrev request {ρ : Type} (r : Request) : JobPart ρ (Reply r) := ask (A := Joint Answer Reply) (.inr r)

abbrev loadFor {ρ : Type} (board : Board) : JobPart ρ Data :=
  ask (A := Joint Answer Reply) (.inl (.load board))

variable [Globals]

/-- The loop of `unwindPv`, for at most so many turns. The table may change on the way. -/
def unwindLoop : (turns : Nat) → Board → RepetitionTable → List Move → JobPart (List Move) (List Move)
  | 0, _, _, _ => stuck
  | turns + 1, board, repetitions, pv => do
    let data ← loadFor board
    if stops data then pure pv
    else
      let move := data.move
      let board := (moveMake board move).1
      let inserted ← tryModify fun s => (repetitions.insert board.hash).map fun out => (out, s)
      if !inserted.1 then pure pv else unwindLoop turns board inserted.2 (pv ++ [move])

def unwindPv (turns : Nat) (board : Board) (bestMove : Move) : JobPart (List Move) (List Move) := do
  let inserted ← tryModify fun s => (RepetitionTable.empty.insert board.hash).map fun out => (out, s)
  let pv := [bestMove]
  let board := (moveMake board bestMove).1
  let inserted ← tryModify fun s => (inserted.2.insert board.hash).map fun out => (out, s)
  unwindLoop turns board inserted.2 pv

omit [Evaluator] in
/-- The loop of `Job::run` over the moves of the position. -/
def fillRepetitions : List Move → Board → (singleRepeat doubleRepeat : RepetitionTable) →
    Option (Board × RepetitionTable)
  | [], board, _, doubleRepeat => some (board, doubleRepeat)
  | move :: moves, board, singleRepeat, doubleRepeat =>
    (singleRepeat.insert board.hash).bind fun inserted =>
      if !inserted.1 then
        (doubleRepeat.insert board.hash).bind fun doubled =>
          fillRepetitions moves (moveMake board move).1 inserted.2 doubled.2
      else fillRepetitions moves (moveMake board move).1 inserted.2 doubleRepeat

variable (S : Sorter) (D : Shuffler) (jobId turns : Nat)

/-- One turn of the loop of iterative deepening. -/
def iterate (depth : Nat) : JobPart Unit Unit := do
  let out ← call ((run S D jobId depth).left Reply)
  let stopped ← request .isStopped
  if stopped then earlyReturn ()
  else
    let first ← request (.finishDepth depth)
    if first then
      let board ← gets Searcher.board
      let pv ← call (unwindPv turns board out.2)
      request (.addLine ⟨depth, pv, scoreToPositionCost out.1, .exact⟩)
    else pure ()

/-- The turns from a depth on, and what follows them. -/
def iterations : (left depth : Nat) → JobPart Unit Unit
  | 0, _ => request .stop
  | left + 1, depth => do
    iterate S D jobId turns depth
    iterations left (depth + 1)

/-- `Job::run`. -/
def jobRun (depthLimit : Nat) (position : Position) : Dialogue (Joint Answer Reply) Unit :=
  match fillRepetitions position.moves position.first .empty .empty with
  | none => .stuck
  | some (board, doubleRepeat) =>
    (iterations S D jobId turns (min depthLimit maxDepth) 1 (Searcher.create board doubleRepeat)).bind
      fun _ => .done ()

end Model

section Repetitions

variable [Globals] {moves : List Move} {board : Board} {k : BoardHash}

/-- The hashes of the boards that the moves of a game were made on. -/
def passed (board : Board) : List Move → List BoardHash
  | [] => []
  | move :: moves => board.hash :: passed (moveMake board move).1 moves

theorem count_passed (move : Move) : (passed board (move :: moves)).count k =
    (passed (moveMake board move).1 moves).count k + if board.hash = k then 1 else 0 := by
  simp [passed, List.count_cons]

/-- The table that a job starts with holds what has occurred at least twice before. -/
theorem fillRepetitions_spec {singleRepeat doubleRepeat : RepetitionTable}
    (hsingle : ∃ e ≤ 62, singleRepeat.Sound e) (hdouble : ∃ e ≤ 62, doubleRepeat.Sound e) :
    ∃ t, fillRepetitions moves board singleRepeat doubleRepeat = some (UnwindPv.after board moves, t) ∧
      (∃ e ≤ 62, t.Sound e) ∧ ∀ k, k ≠ 0 → (t.Holds k ↔ doubleRepeat.Holds k ∨
        2 ≤ (passed board moves).count k ∨ 1 ≤ (passed board moves).count k ∧ singleRepeat.Holds k) := by
  induction moves generalizing board singleRepeat doubleRepeat with
  | nil => exact ⟨doubleRepeat, rfl, hdouble, fun k _ => by simp [passed]⟩
  | cons move moves ih =>
    obtain ⟨e, he, hs⟩ := hsingle
    obtain ⟨t, e', ht, hs', he', hkeys⟩ := RepetitionTable.insert_spec hs he board.hash
    rw [fillRepetitions, ht, Option.bind_some]
    cases hhas : singleRepeat.has board.hash with
    | false =>
      obtain ⟨t', hfill, hs'', hholds⟩ := @ih (moveMake board move).1 t doubleRepeat ⟨e', he', hs'⟩ hdouble
      refine ⟨t', hfill, hs'', fun k hk => (hholds k hk).trans (or_congr_right ?_)⟩
      rw [count_passed, hkeys k hk]
      by_cases hkb : board.hash = k
      · subst hkb
        have hnew : ¬singleRepeat.Holds board.hash := fun h => by
          rw [← hs.has_iff he hk, hhas] at h
          cases h
        simp only [hnew, if_pos, and_true, and_false, or_false]
        omega
      · simp only [Ne.symm hkb, if_neg hkb, false_or, Nat.add_zero]
    | true =>
      obtain ⟨e₂, he₂, hd⟩ := hdouble
      obtain ⟨d, e₃, hd', hs₃, he₃, hkeys'⟩ := RepetitionTable.insert_spec hd he₂ board.hash
      obtain ⟨t', hfill, hs'', hholds⟩ := @ih (moveMake board move).1 t d ⟨e', he', hs'⟩ ⟨e₃, he₃, hs₃⟩
      refine ⟨t', ?_, hs'', fun k hk => (hholds k hk).trans ?_⟩
      · rw [hd']
        exact hfill
      · rw [count_passed, hkeys k hk, hkeys' k hk]
        by_cases hkb : board.hash = k
        · subst hkb
          have hold : singleRepeat.Holds board.hash := (hs.has_iff he hk).mp hhas
          rw [if_pos rfl]
          simp only [hold, true_or, and_true, true_iff]
          omega
        · simp only [Ne.symm hkb, if_neg hkb, false_or, Nat.add_zero]

end Repetitions

section Promises

variable [Evaluator] [Globals]

/-- Where in the loop of `Job::run` a question belongs. -/
def Asks (phase : Phase) : Question ⊕ Request → Prop
  | .inl .isStopped | .inr .isStopped => ∃ d aborted, phase = .running d aborted
  | .inl .checkTimeout | .inl .depth => ∃ d aborted, phase = .checking d aborted
  | .inr (.finishDepth d) => ∃ aborted, phase = .tested d aborted
  | .inr (.addLine line) => ∃ aborted, phase = .adding line.depth aborted
  | .inr .stop => phase = .stopping
  | .inl _ => True

omit [Evaluator] [Globals] in
/-- `mustStop` has returned, or is going on to its second question. -/
def looked (stopped : Bool) : Phase → Phase
  | .running d aborted => if stopped then .running d true else .checking d aborted
  | phase => phase

omit [Evaluator] [Globals] in
/-- `mustStop` returns. -/
def learned (out : Nat → Bool) : Phase → Phase
  | .checking d aborted => .running d (aborted || out d)
  | phase => phase

omit [Evaluator] [Globals] in
def afterSearch (stopped : Bool) : Phase → Phase
  | .running d aborted => if stopped then .terminated else .tested d aborted
  | phase => phase

omit [Evaluator] [Globals] in
def afterFinish (depthLimit : Nat) (first : Bool) : Phase → Phase
  | .tested d aborted => if first then .adding d aborted else nextDepth depthLimit (d + 1)
  | phase => phase

/-- Where an answer leads to. -/
def follow (depthLimit : Nat) (phase : Phase) : (q : Question ⊕ Request) → Joint Answer Reply q → Phase
  | .inl .isStopped, stopped => looked stopped phase
  | .inl .checkTimeout, timeout => learned (fun _ => timeout) phase
  | .inl .depth, depth => learned (fun d => decide ((depth : Nat) ≠ d)) phase
  | .inr .isStopped, stopped => afterSearch stopped phase
  | .inr (.finishDepth _), first => afterFinish depthLimit first phase
  | .inr (.addLine line), _ => nextDepth depthLimit (line.depth + 1)
  | .inr .stop, _ => .terminated
  | .inl _, _ => phase

/-- The moves of a line are legal. If the evaluations were fair, its cost is one of a search, and there
is no best move only where the position counts as repeated. -/
structure Good (root : Board) (repeated fair : Prop) (line : SearchResult) : Prop where
  moves : ∃ move rest, line.pv = move :: rest ∧ (move = Move.null ∨ SafeMove root move) ∧
    Along SafeMove (moveMake root move).1 rest ∧
    (fair → root.hash ≠ 0 → (∃ m, SafeMove root m) → (move = Move.null ↔ repeated))
  cost : ∃ score, line.cost = scoreToPositionCost score ∧
    (fair → -scoreCheckmate ≤ score ∧ score ≤ scoreCheckmate)
  bound : line.bound = .exact

variable (ok : Evaluator.Tag → Board → Prop) (root : Board) (repeated fair : Prop)

def Promises : Question ⊕ Request → Prop
  | .inl (.load b) => Regular b
  | .inl (.store b data) =>
    Valid b ∧ Storable maxDepth b data ∧ data.isValid = true ∧ (fair → Sane data)
  | .inl (.evalForCur b tag) => Valid b ∧ ok tag b
  | .inr (.addLine line) => Good root repeated fair line
  | _ => True

/-- A move of the table can be made, an evaluation looks like no mate, and nobody else finishes the
depth of a search that was told to stop. -/
def Expects (phase : Phase) : (q : Question ⊕ Request) → Joint Answer Reply q → Prop
  | .inl (.load b), data => Data.isValid data = true →
      Valid b ∧ SafeMove b (Data.move data) ∧ (fair → Sane data)
  | .inl (.evalForCur _ _), score => fair → -scoreCheckmateThreshold < (score : Int) ∧
      (score : Int) < scoreCheckmateThreshold
  | .inr (.finishDepth d), first => (first : Bool) = true → phase = .tested d false
  | _, _ => True

/-- What a job promises, and what it is promised. -/
def contract (depthLimit : Nat) : Contract (Joint Answer Reply) Phase where
  guar phase q := Asks phase q ∧ Promises ok root repeated fair q
  rely phase q a phase' := Asks phase q ∧ Expects fair phase q a ∧ phase' = follow depthLimit phase q a
  mayStick := True

end Promises

section Runs

variable [Evaluator] [Globals] {ok : Evaluator.Tag → Board → Prop} {root : Board} {repeated fair : Prop}
variable {depthLimit d : Nat} {s s' : Searcher}

/-- The searcher between two of its runs. -/
structure Between (root : Board) (repeated : Prop) (s : Searcher) : Prop where
  ready : Ready root.side 0 s
  board : s.board = root
  best : (s.stack 0).bestMove = Move.null ∨ SafeMove root (s.stack 0).bestMove
  keys : root.hash ≠ 0 → (s.repetitions.Holds root.hash ↔ repeated)
  unnamed : root.hash ≠ 0 → repeated → (s.stack 0).bestMove = Move.null

omit [Evaluator] in
theorem Between.has_iff (h : Between root repeated s) (hhash : root.hash ≠ 0) :
    s.repetitions.has s.board.hash = true ↔ repeated := by
  obtain ⟨e, he, hsound⟩ := h.ready.room
  rw [h.board, hsound.has_iff he hhash]
  exact h.keys hhash

/-- The contract of a job, with other promises. -/
def promising (ok : Evaluator.Tag → Board → Prop) (root : Board) (repeated fair : Prop)
    (depthLimit : Nat)
    (promise : Phase → Question ⊕ Request → Prop) : Contract (Joint Answer Reply) Phase where
  guar := promise
  rely := (contract ok root repeated fair depthLimit).rely
  mayStick := True

/-- What a search says to the others, as a part of its job. -/
def asking (ok : Evaluator.Tag → Board → Prop) (root : Board) (repeated fair : Prop)
    (depthLimit : Nat) :
    Contract Answer Phase where
  guar phase q := Asks phase (.inl q)
  rely phase q a := (contract ok root repeated fair depthLimit).rely phase (.inl q) a
  mayStick := True

omit [Globals] in
theorem asks_plain {q : Question} (hq : Protocol.Plain q) (phase : Phase) : Asks phase (.inl q) := by
  cases q with
  | isStopped | checkTimeout | depth => exact hq.elim
  | load b | isCurrentEpoch data | store b data | evalForCur b tag | useScore => trivial

omit [Globals] in
theorem follow_plain {q : Question} (hq : Protocol.Plain q) (phase : Phase) (a : Answer q) :
    follow depthLimit phase (.inl q) a = phase := by
  cases q with
  | isStopped | checkTimeout | depth => exact hq.elim
  | load b | isCurrentEpoch data | store b data | evalForCur b tag | useScore => rfl

omit [Globals] in
theorem follow_isStopped (phase : Phase) (stopped : Bool) :
    follow depthLimit phase (.inl .isStopped) stopped = looked stopped phase := rfl

theorem keeping_running : Protocol.Keeping (asking ok root repeated fair depthLimit)
    fun phase s => s.depth = d ∧ ∃ aborted, phase = .running d aborted where
  mayStick := trivial
  congr hs h := ⟨hs.trans h.1, h.2⟩
  plain hq h := by
    refine ⟨asks_plain hq _, fun a phase hr => ?_⟩
    rw [hr.2.2, follow_plain hq]
    exact h
  mustStop h := by
    obtain ⟨hd, aborted, rfl⟩ := h
    rw [mustStop]
    simp only [wp_bind, wp_ask, wp_ite, wp_pure, wp_modify, wp_gets]
    refine ⟨⟨_, _, rfl⟩, fun stopped phase hr => ?_⟩
    obtain ⟨-, -, rfl⟩ := hr
    split
    · rename_i hstopped
      refine ⟨hd, true, ?_⟩
      rw [follow_isStopped, looked, if_pos hstopped]
    · rename_i hstopped
      rw [follow_isStopped, looked, if_neg hstopped]
      split
      · refine ⟨⟨_, _, rfl⟩, fun timeout phase hr => ?_⟩
        obtain ⟨-, -, rfl⟩ := hr
        exact ⟨hd, _, rfl⟩
      · refine ⟨⟨_, _, rfl⟩, fun depth phase hr => ?_⟩
        obtain ⟨-, -, rfl⟩ := hr
        exact ⟨hd, _, rfl⟩

/-- What the parts of a search that are proved apart promise together. -/
def searching (ok : Evaluator.Tag → Board → Prop) (fair : Prop) (d : Nat) : Contract Answer Unit :=
  ((Discipline.contract d).both (Evaluations.contract ok d)).both (Windows.contract.erase.given fair)

variable (S : Sorter) (D : Shuffler) (jobId turns : Nat)

theorem wp_asking : wp (promising ok root repeated fair depthLimit Asks) ((run S D jobId d).left Reply)
    (fun _ phase _ => ∃ aborted, phase = .running d aborted)
    (fun _ phase _ => ∃ aborted, phase = .running d aborted) (.running d false) s := by
  have hrun : wp (asking ok root repeated fair depthLimit) (run S D jobId d)
      (fun _ phase s => s.depth = d ∧ ∃ aborted, phase = .running d aborted)
      (fun _ phase s => s.depth = d ∧ ∃ aborted, phase = .running d aborted) (.running d false) s :=
    Protocol.wp_run keeping_running S D jobId ⟨rfl, false, rfl⟩
  have hleft := wp_left (L := promising ok root repeated fair depthLimit Asks) (I := fun v u => v = u)
    (O := fun _ => False) ?_ ?_ ?_ trivial rfl hrun
  · refine wp_mono hleft (fun _ _ _ h => ?_) fun _ _ _ h => ?_
    · obtain ⟨_, rfl, -, h⟩ := h.resolve_right id
      exact h
    · obtain ⟨_, rfl, -, h⟩ := h.resolve_right id
      exact h
  · rintro v _ q rfl hq
    exact hq
  · rintro v _ q a u' rfl - hr
    exact Or.inl ⟨u', hr, rfl⟩
  · exact fun _ _ h => h.elim

omit [Evaluator] in
theorem storable_mono {limit limit' : Int} (hle : limit ≤ limit') {b : Board} {data : Data}
    (h : Storable limit b data) : Storable limit' b data := by
  obtain ⟨hmove, move, score, depth, bound, hdata, hmin, hmax⟩ := h
  exact ⟨hmove, move, score, depth, bound, hdata, hmin, hmax.trans hle⟩

omit [Evaluator] in
theorem storable_isValid {limit : Int} {b : Board} {data : Data} (h : Storable limit b data) :
    data.isValid = true := by
  obtain ⟨-, move, score, depth, bound, rfl, -, -⟩ := h
  exact Data.isValid_of move score depth bound

theorem wp_run_between (h : Between root repeated s) (hd : 1 ≤ d) :
    wp (Discipline.contract d) (run S D jobId d)
      (fun out _ s' => Between root repeated s' ∧ (out.2 = Move.null ∨ SafeMove root out.2) ∧
        (root.hash ≠ 0 → repeated → out.2 = Move.null)) (fun _ _ _ => False) () s := by
  have hlegal := wp_run_legal (s := s) S D jobId h.ready (h.board.symm ▸ h.best) hd
  have hrepeated : wp (Discipline.contract d) (run S D jobId d)
      (fun out _ _ => root.hash ≠ 0 → repeated → out.2 = Move.null) (fun _ _ _ => True) () s := by
    by_cases hrep : root.hash ≠ 0 ∧ repeated
    · refine wp_mono (wp_run_repeated S D jobId h.ready ((h.has_iff hrep.1).mpr hrep.2) d)
        (fun out _ _ hout _ _ => ?_) fun _ _ _ hout => hout.elim
      rw [hout]
      exact h.unnamed hrep.1 hrep.2
    · exact wp_mono hlegal (fun _ _ _ _ hhash hrepeated => absurd ⟨hhash, hrepeated⟩ hrep)
        fun _ _ _ _ => trivial
  refine wp_mono (wp_and hlegal hrepeated) (fun out _ s' hout => ?_) fun _ _ _ hout => hout.1
  obtain ⟨⟨hrestored, hbest, hmove⟩, hnull⟩ := hout
  rw [h.board] at hmove
  refine ⟨⟨h.ready.after hrestored, hrestored.board.trans h.board, hbest ▸ hmove, fun hhash => ?_,
    fun hhash hrepeated => ?_⟩, hmove, hnull⟩
  · exact (hrestored.keys _ hhash).trans (h.keys hhash)
  · rw [← hbest]
    exact hnull hhash hrepeated

theorem wp_searchAlone (hok : Evaluations.Tracks ok) (h : Between root repeated s) (hd : 1 ≤ d) :
    wp (searching ok fair d) (run S D jobId d)
      (fun out _ s' => (Between root repeated s' ∧ (out.2 = Move.null ∨ SafeMove root out.2) ∧
        (root.hash ≠ 0 → repeated → out.2 = Move.null)) ∧
        (fair → -scoreCheckmate ≤ out.1 ∧ out.1 ≤ scoreCheckmate)) (fun _ _ _ => False) () s := by
  have hevals : wp (Evaluations.contract ok d) (run S D jobId d) (fun _ _ _ => True)
      (fun _ _ _ => True) () s := Evaluations.evals_run S D jobId hok h.ready d
  have hscore := wp_erase Windows.silent_contract (Windows.wp_notedRun (s := s) S D jobId d)
  rw [NotedJob.erase_run] at hscore
  have hall := wp_both (wp_both (wp_run_between S D jobId h hd) hevals) (wp_given fun _ : fair => hscore)
  exact wp_mono hall (fun _ _ _ hout => ⟨hout.1.1, hout.2⟩) fun _ _ _ hout => hout.1.1

/-- So it keeps the promises about the table, whatever the other jobs do. -/
theorem wp_searching (hok : Evaluations.Tracks ok) (h : Between root repeated s) (hd : 1 ≤ d)
    (hmax : d ≤ maxDepth) :
    wp (promising ok root repeated fair depthLimit fun _ => Promises ok root repeated fair)
      ((run S D jobId d).left Reply)
      (fun out _ s' => Between root repeated s' ∧ (out.2 = Move.null ∨ SafeMove root out.2) ∧
        (root.hash ≠ 0 → repeated → out.2 = Move.null) ∧
        (fair → -scoreCheckmate ≤ out.1 ∧ out.1 ≤ scoreCheckmate)) (fun _ _ _ => False) (.running d false) s := by
  have hlimit : (d : Int) ≤ maxDepth := Int.ofNat_le.mpr hmax
  have halone : wp (searching ok fair d) (run S D jobId d) _ _ () s :=
    wp_searchAlone S D jobId hok h hd
  have hleft := wp_left
    (L := promising ok root repeated fair depthLimit fun _ => Promises ok root repeated fair)
    (I := fun _ _ => True) (O := fun _ => False) (u := .running d false) ?_ ?_ ?_ trivial trivial
    halone
  · refine wp_mono hleft (fun out _ s' hout => ?_) fun _ _ _ hout => ?_
    · obtain ⟨-, -, ⟨hbetween, hlegal, hnull⟩, hrange⟩ := hout.resolve_right id
      exact ⟨hbetween, hlegal, hnull, hrange⟩
    · obtain ⟨-, -, hfalse⟩ := hout.resolve_right id
      exact hfalse
  · intro _ u q _ hq
    obtain ⟨⟨hstorable, heval⟩, hsane⟩ := hq
    cases q with
    | load b => exact (valid_iff.mp heval).1
    | store b data =>
      exact ⟨heval, storable_mono hlimit hstorable, storable_isValid hstorable, fun hfair =>
        (hsane hfair).2⟩
    | evalForCur b tag => exact heval
    | isStopped | checkTimeout | depth | isCurrentEpoch data | useScore => trivial
  · intro _ u q a u' _ _ hr
    obtain ⟨-, hexpects, -⟩ := hr
    refine Or.inl ⟨(), ?_, trivial⟩
    cases q with
    | load b =>
      have hfits : Fits b a := fun hvalid => Or.inr (hexpects hvalid).2.1.1
      exact ⟨⟨hfits, hfits⟩, fun hfair hvalid => (hexpects hvalid).2.2 hfair⟩
    | evalForCur b tag => exact ⟨⟨trivial, trivial⟩, hexpects⟩
    | isStopped | checkTimeout | depth | isCurrentEpoch data | store b data | useScore =>
      exact ⟨⟨trivial, trivial⟩, fun _ => trivial⟩
  · exact fun _ _ hoff => hoff.elim

omit [Globals] in
theorem told_follow {phase : Phase} {q : Question} {a : Answer q}
    (h : phase = .running d true ∨ phase = .checking d true) :
    follow depthLimit phase (.inl q) a = .running d true ∨
      follow depthLimit phase (.inl q) a = .checking d true := by
  cases q with
  | isStopped =>
    obtain rfl | rfl := h
    · cases a with
      | false => exact Or.inr rfl
      | true => exact Or.inl rfl
    · exact Or.inr rfl
  | checkTimeout | depth =>
    obtain rfl | rfl := h
    · exact Or.inl rfl
    · exact Or.inl rfl
  | load b | isCurrentEpoch data | store b data | evalForCur b tag | useScore => exact h

/-- Either the answer does not stop the search, or it does. -/
theorem steady_or_told {phase : Phase} {q : Question} {a : Answer q} (hfair : fair)
    (h : phase = .running d false ∨ phase = .checking d false) (hasks : Asks phase (.inl q))
    (hexpects : Expects fair phase (.inl q) a) :
    (∃ v, (steady d).rely () q a v ∧ (follow depthLimit phase (.inl q) a = .running d false ∨
        follow depthLimit phase (.inl q) a = .checking d false)) ∨
      (follow depthLimit phase (.inl q) a = .running d true ∨
        follow depthLimit phase (.inl q) a = .checking d true) := by
  cases q with
  | isStopped =>
    obtain ⟨_, _, rfl⟩ := hasks
    obtain hrun := h.resolve_right fun he => by cases he
    cases hrun
    cases a with
    | false => exact Or.inl ⟨(), ⟨trivial, trivial, by simp [Aborts.outcome]⟩, Or.inr rfl⟩
    | true => exact Or.inr (Or.inl rfl)
  | checkTimeout =>
    obtain ⟨_, _, rfl⟩ := hasks
    obtain hcheck := h.resolve_left fun he => by cases he
    cases hcheck
    cases a with
    | false => exact Or.inl ⟨(), ⟨trivial, trivial, by simp [Aborts.outcome]⟩, Or.inl rfl⟩
    | true => exact Or.inr (Or.inl rfl)
  | depth =>
    obtain ⟨_, _, rfl⟩ := hasks
    obtain hcheck := h.resolve_left fun he => by cases he
    cases hcheck
    by_cases hne : (a : Nat) ≠ d
    · refine Or.inr (Or.inl ?_)
      show Phase.running d (false || decide ((a : Nat) ≠ d)) = _
      rw [decide_eq_true hne]
      rfl
    · refine Or.inl ⟨(), ⟨trivial, trivial, by simpa [Aborts.outcome] using hne⟩, Or.inl ?_⟩
      show Phase.running d (false || decide ((a : Nat) ≠ d)) = _
      rw [decide_eq_false hne]
      rfl
  | load b =>
    have hfits : Fits b a := fun hvalid => Or.inr (hexpects hvalid).2.1.1
    exact Or.inl ⟨(), ⟨hfits, fun hvalid => (hexpects hvalid).2.2 hfair, by simp [Aborts.outcome]⟩, h⟩
  | evalForCur b tag => exact Or.inl ⟨(), ⟨trivial, hexpects hfair, by simp [Aborts.outcome]⟩, h⟩
  | isCurrentEpoch data | store b data | useScore =>
    exact Or.inl ⟨(), ⟨trivial, trivial, by simp [Aborts.outcome]⟩, h⟩

theorem wp_unaborted (h : Between root repeated s) (hd : 1 ≤ d) (hmove : ∃ m, SafeMove root m)
    (hhash : root.hash ≠ 0) (hnew : ¬repeated) (hfair : fair) :
    wp (promising ok root repeated fair depthLimit fun _ _ => True) ((run S D jobId d).left Reply)
      (fun out phase _ => phase = .running d false → SafeMove root out.2)
      (fun _ _ _ => True) (.running d false) s := by
  have hhas : s.repetitions.has s.board.hash = false := by
    rw [← Bool.not_eq_true, h.has_iff hhash]
    exact hnew
  have hsteady := wp_run_steady S D jobId h.ready hd (h.board.symm ▸ hmove)
  have hleft := wp_left (L := promising ok root repeated fair depthLimit fun _ _ => True)
    (I := fun _ phase => phase = .running d false ∨ phase = .checking d false)
    (O := fun phase => phase = .running d true ∨ phase = .checking d true)
    (u := .running d false) ?_ ?_ ?_ trivial (Or.inl rfl) hsteady
  · refine wp_mono hleft (fun out phase s' hout hphase => ?_) fun _ _ _ _ => trivial
    subst hphase
    obtain ⟨-, -, hlegal, -⟩ | hoff := hout
    · exact h.board ▸ hlegal hhas
    · simp at hoff
  · exact fun _ _ _ _ _ => trivial
  · intro _ u q a u' hu _ hr
    obtain ⟨hasks, hexpects, rfl⟩ := hr
    exact steady_or_told hfair hu hasks hexpects
  · intro u q hoff
    refine ⟨trivial, fun a u' hr => ?_⟩
    obtain ⟨-, -, rfl⟩ := hr
    exact told_follow hoff

/-- The parts come together: a run of a search keeps to the contract of its job. -/
theorem wp_searchRun (hok : Evaluations.Tracks ok) (h : Between root repeated s) (hd : 1 ≤ d)
    (hmax : d ≤ maxDepth) :
    wp (contract ok root repeated fair depthLimit) ((run S D jobId d).left Reply)
      (fun out phase s' => (∃ aborted, phase = .running d aborted) ∧ Between root repeated s' ∧
        (out.2 = Move.null ∨ SafeMove root out.2) ∧
        (fair → -scoreCheckmate ≤ out.1 ∧ out.1 ≤ scoreCheckmate) ∧ (phase = .running d false → fair →
          root.hash ≠ 0 → (∃ m, SafeMove root m) → (out.2 = Move.null ↔ repeated)))
      (fun _ _ _ => False) (.running d false) s := by
  have hlegal : wp (promising ok root repeated fair depthLimit fun _ _ => True) ((run S D jobId d).left Reply)
      (fun out phase _ => phase = .running d false → fair → root.hash ≠ 0 → (∃ m, SafeMove root m) →
        ¬repeated → SafeMove root out.2) (fun _ _ _ => True) (.running d false) s := by
    by_cases hfresh : fair ∧ root.hash ≠ 0 ∧ (∃ m, SafeMove root m) ∧ ¬repeated
    · obtain ⟨hfair, hhash, hmove, hnew⟩ := hfresh
      exact wp_mono (wp_unaborted S D jobId h hd hmove hhash hnew hfair)
        (fun _ _ _ hout hphase _ _ _ _ => hout hphase) fun _ _ _ _ => trivial
    · have hall : wp (promising ok root repeated fair depthLimit fun _ => Promises ok root repeated fair)
          ((run S D jobId d).left Reply) _ _ (.running d false) s := wp_searching S D jobId hok h hd hmax
      refine wp_adapt ?_ ?_ ?_ (wp_mono hall (fun _ _ _ _ _ hfair hhash hmove hnew =>
        absurd ⟨hfair, hhash, hmove, hnew⟩ hfresh) fun _ _ _ _ => trivial)
      · exact fun _ _ _ => trivial
      · exact fun _ _ _ _ hr => hr
      · exact fun _ => trivial
  have hasks : wp (promising ok root repeated fair depthLimit Asks) ((run S D jobId d).left Reply)
      (fun _ phase _ => ∃ aborted, phase = .running d aborted)
      (fun _ phase _ => ∃ aborted, phase = .running d aborted) (.running d false) s :=
    wp_asking S D jobId
  have hkeeps : wp (promising ok root repeated fair depthLimit fun _ => Promises ok root repeated fair)
      ((run S D jobId d).left Reply) _ _ (.running d false) s := wp_searching S D jobId hok h hd hmax
  have hboth := wp_both (wp_both hasks hkeeps) hlegal
  refine wp_mono (wp_adapt ?_ ?_ ?_ hboth) (fun out phase s' hout => ?_) fun _ _ _ hout => hout.1.2
  · exact fun _ _ hq => hq.1
  · exact fun _ _ _ _ hr => ⟨⟨hr, hr⟩, hr⟩
  · exact fun _ => trivial
  · obtain ⟨⟨hphase, hbetween, hbest, hnull, hrange⟩, hmove⟩ := hout
    refine ⟨hphase, hbetween, hbest, hrange, fun hrun hfair hhash hsome => ?_⟩
    refine ⟨fun hout => ?_, hnull hhash⟩
    by_contra hnew
    have hlegal' := hmove hrun hfair hhash hsome hnew
    rw [hout] at hlegal'
    exact Bool.false_ne_true hlegal'.1.2

omit [Evaluator] in
theorem valid_made {b : Board} {move : Move} (hb : Valid b) (hm : SafeMove b move) :
    Valid (moveMake b move).1 :=
  valid_iff.mpr ⟨regular_playable hb hm.1.playable, hm.2⟩

/-- The moves that are added to the line are those of the table, and they can be made. -/
theorem wp_unwindLoop {board : Board} (hb : Regular board) (repetitions : RepetitionTable)
    (pv : List Move) (phase : Phase) {R : List Move → Phase → Searcher → Prop} :
    wp (contract ok root repeated fair depthLimit) (unwindLoop turns board repetitions pv)
      (fun out phase' s' => (phase' = phase ∧ s' = s) ∧
        ∃ rest, out = pv ++ rest ∧ Along SafeMove board rest) R phase s := by
  induction turns generalizing board repetitions pv with
  | zero => trivial
  | succ turns ih =>
    rw [unwindLoop, wp_bind, wp_ask]
    refine ⟨⟨trivial, hb⟩, fun data phase' hr => ?_⟩
    obtain ⟨-, hexpects, rfl⟩ := hr
    rw [wp_ite]
    split
    · exact ⟨⟨rfl, rfl⟩, [], (List.append_nil pv).symm, trivial⟩
    · rename_i hstops
      have hvalid : Data.isValid data = true := by
        rw [Bool.not_eq_true, stops, Bool.or_eq_false_iff, Bool.or_eq_false_iff, Bool.not_eq_false'] at hstops
        exact hstops.1.1
      obtain ⟨hvalidBoard, hmove, -⟩ := hexpects hvalid
      have hnext := (valid_iff.mp (valid_made hvalidBoard hmove)).1
      rw [wp_bind, wp_tryModify]
      refine ⟨fun _ => trivial, fun inserted s₁ hsome => ?_⟩
      obtain ⟨_, -, hpair⟩ := Option.map_eq_some_iff.mp hsome
      obtain ⟨rfl, rfl⟩ := Prod.mk.inj hpair
      rw [wp_ite]
      split
      · exact ⟨⟨rfl, rfl⟩, [], (List.append_nil pv).symm, trivial⟩
      · refine wp_mono (ih hnext _ _) (fun out phase' s' hout => ?_) fun _ _ _ hR => hR
        obtain ⟨hsame, rest, rfl, hrest⟩ := hout
        exact ⟨hsame, Data.move data :: rest, List.append_assoc _ _ _, hmove, hrest⟩

theorem wp_unwindPv {board : Board} {bestMove : Move} (hb : Regular (moveMake board bestMove).1)
    (phase : Phase) {R : List Move → Phase → Searcher → Prop} :
    wp (contract ok root repeated fair depthLimit) (unwindPv turns board bestMove)
      (fun pv phase' s' => (phase' = phase ∧ s' = s) ∧
        ∃ rest, pv = bestMove :: rest ∧ Along SafeMove (moveMake board bestMove).1 rest) R phase s := by
  rw [unwindPv, wp_bind, wp_tryModify]
  refine ⟨fun _ => trivial, fun inserted s₁ hsome => ?_⟩
  obtain ⟨_, -, hpair⟩ := Option.map_eq_some_iff.mp hsome
  obtain ⟨rfl, rfl⟩ := Prod.mk.inj hpair
  rw [wp_bind, wp_tryModify]
  refine ⟨fun _ => trivial, fun inserted' s₁ hsome' => ?_⟩
  obtain ⟨_, -, hpair⟩ := Option.map_eq_some_iff.mp hsome'
  obtain ⟨rfl, rfl⟩ := Prod.mk.inj hpair
  exact wp_unwindLoop turns hb _ _ phase

/-- One turn of iterative deepening. -/
theorem wp_iterate (hok : Evaluations.Tracks ok) (h : Between root repeated s) (hd : 1 ≤ d)
    (hmax : d ≤ maxDepth) :
    wp (contract ok root repeated fair depthLimit) (iterate S D jobId turns d)
      (fun _ phase s' => phase = nextDepth depthLimit (d + 1) ∧ Between root repeated s')
      (fun _ phase _ => phase = .terminated) (.running d false) s := by
  rw [iterate, wp_bind, wp_call]
  refine wp_mono (wp_searchRun S D jobId hok h hd hmax) (fun out phase s' hout => ?_)
    fun _ _ _ hout => hout.elim
  obtain ⟨⟨aborted, rfl⟩, h', hbest, hrange, hnull⟩ := hout
  rw [wp_bind, wp_ask]
  refine ⟨⟨⟨_, _, rfl⟩, trivial⟩, fun stopped phase hr => ?_⟩
  obtain ⟨-, -, rfl⟩ := hr
  rw [wp_ite]
  split
  · rename_i hstopped
    show afterSearch stopped (.running d aborted) = _
    rw [afterSearch, if_pos hstopped]
  · rename_i hstopped
    have hphase : follow depthLimit (.running d aborted) (.inr .isStopped) stopped = .tested d aborted := by
      show afterSearch stopped (.running d aborted) = _
      rw [afterSearch, if_neg hstopped]
    rw [hphase, wp_bind, wp_ask]
    refine ⟨⟨⟨_, rfl⟩, trivial⟩, fun first phase hr => ?_⟩
    obtain ⟨-, hexpects, rfl⟩ := hr
    rw [wp_ite]
    split
    · rename_i hfirst
      have htested := hexpects hfirst
      cases htested
      have hphase : follow depthLimit (.tested d false) (.inr (.finishDepth d)) first = .adding d false := by
        show afterFinish depthLimit first (.tested d false) = _
        rw [afterFinish, if_pos hfirst]
      have hregular : Regular (moveMake s'.board out.2).1 := by
        have hvalid := h'.ready.valid
        rw [h'.board] at hvalid ⊢
        cases hbest with
        | inl he =>
          rw [he]
          exact regular_null (valid_iff.mp hvalid).1
        | inr hm => exact (valid_iff.mp (valid_made hvalid hm)).1
      rw [hphase, wp_bind, wp_gets, wp_bind, wp_call]
      refine wp_mono (wp_unwindPv (s := s') turns hregular (.adding d false)) (fun pv phase s'' hout => ?_)
        fun _ _ _ hout => hout
      obtain ⟨⟨rfl, rfl⟩, rest, hpv, hrest⟩ := hout
      rw [h'.board] at hrest
      refine ⟨⟨⟨_, rfl⟩, ⟨out.2, rest, hpv, hbest, hrest, hnull rfl⟩, ⟨out.1, rfl, hrange⟩, rfl⟩,
        fun _ phase hr => ⟨hr.2.2, h'⟩⟩
    · rename_i hfirst
      refine ⟨?_, h'⟩
      show afterFinish depthLimit first (.tested d aborted) = _
      rw [afterFinish, if_neg hfirst]

theorem wp_iterations (hok : Evaluations.Tracks ok) (left : Nat) (h : Between root repeated s) (hd : 1 ≤ d)
    (hleft : d + left = depthLimit + 1) (hmax : depthLimit ≤ maxDepth) :
    wp (contract ok root repeated fair depthLimit) (iterations S D jobId turns left d)
      (fun _ phase _ => phase = .terminated) (fun _ phase _ => phase = .terminated)
      (nextDepth depthLimit d) s := by
  induction left generalizing d s with
  | zero =>
    have hphase : nextDepth depthLimit d = .stopping := by
      rw [nextDepth, if_neg (by omega)]
    rw [hphase]
    exact ⟨⟨rfl, trivial⟩, fun _ _ hr => hr.2.2⟩
  | succ left ih =>
    have hphase : nextDepth depthLimit d = .running d false := by
      rw [nextDepth, if_pos (by omega)]
    rw [hphase, iterations, wp_bind]
    refine wp_mono (wp_iterate S D jobId turns hok h hd (by omega)) (fun _ phase s' hout => ?_)
      fun _ _ _ hout => hout
    obtain ⟨rfl, h'⟩ := hout
    exact ih h' (by omega) (by omega)

/-- A position counts as repeated if it has occurred twice before. -/
def Repeated (position : Position) : Prop :=
  2 ≤ (passed position.first position.moves).count (UnwindPv.after position.first position.moves).hash

omit [Evaluator] in
theorem between_create {position : Position}
    (hvalid : Valid (UnwindPv.after position.first position.moves)) :
    ∃ t, fillRepetitions position.moves position.first .empty .empty =
        some (UnwindPv.after position.first position.moves, t) ∧
      Between (UnwindPv.after position.first position.moves) (Repeated position)
        (Searcher.create (UnwindPv.after position.first position.moves) t) := by
  have hempty : ∃ e ≤ 62, RepetitionTable.empty.Sound e := ⟨5, by decide, RepetitionTable.Sound.empty⟩
  obtain ⟨t, hfill, hsound, hholds⟩ :=
    @fillRepetitions_spec _ position.moves position.first .empty .empty hempty hempty
  refine ⟨t, hfill, Recursion.ready_create hvalid hsound, rfl, Or.inl rfl, fun hhash => ?_,
    fun _ _ => rfl⟩
  refine (hholds _ hhash).trans ?_
  have hnever := Aborts.not_holds_empty hhash
  simp only [Repeated, hnever, false_or, and_false, or_false]

theorem keeps_jobRun (hok : Evaluations.Tracks ok) {position : Position}
    (hvalid : Valid (UnwindPv.after position.first position.moves)) :
    (jobRun S D jobId turns depthLimit position).Keeps
      (contract ok (UnwindPv.after position.first position.moves) (Repeated position) fair
        (min depthLimit maxDepth))
      (fun phase _ => phase = .terminated) (nextDepth (min depthLimit maxDepth) 1) := by
  obtain ⟨t, hfill, hbetween⟩ := between_create hvalid
  rw [jobRun, hfill]
  have hwp : wp (contract ok _ _ fair (min depthLimit maxDepth)) (iterations S D jobId turns _ 1) _ _ _ _ :=
    wp_iterations S D jobId turns hok (min depthLimit maxDepth) hbetween le_rfl (Nat.add_comm 1 _)
      (min_le_right _ _)
  refine Dialogue.keeps_bind.mpr (Dialogue.Keeps.mono hwp fun phase out hout => ?_)
  obtain ⟨out, s'⟩ := out
  cases out with
  | ok a => exact hout
  | error r => exact hout

end Runs

end SoFCheck.Search.JobRun
