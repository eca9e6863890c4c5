import SoFCheck.Core.Moves
import SoFCheck.Util.Transition

namespace SoFCheck.Search.JobCommunicator

open SoFCheck.Core.Moves SoFCheck.Util.Transition

/-- What the main thread reads of a search result. -/
structure Line where
  depth : Nat
  pv : List Move
  deriving DecidableEq

/-- Where a job stands in the loop of `Job::run`. -/
inductive JobPhase where
  | searching (depth : Nat)
  /-- Past the test of `isStopped`, about to call `finishDepth`. -/
  | tested (depth : Nat)
  /-- The first to finish the depth, about to call `addLine`. -/
  | adding (depth : Nat)
  | stopping
  | terminated
  deriving DecidableEq

/-- Where the main thread stands in `MainThread::run`. -/
inductive MainPhase where
  | mainLoop
  | extractLines
  | mustStop
  | joinThreads
  | finishSearch
  | finished (answer : Move)
  deriving DecidableEq

/-- The communicator, the `n` jobs and the main thread. The lines that were added
and those that were considered are kept for the record. -/
structure State (n : Nat) where
  depth : Nat
  stopped : Bool
  lines : List Line
  jobs : Fin n → JobPhase
  main : MainPhase
  bestDepth : Nat
  bestMove : Move
  added : List Line
  considered : List Line

inductive JobAction where
  | checkTimeout
  | run
  | finishDepth
  | addLine (bestMove : Move) (rest : List Move)
  | stop

/-- The steps of the jobs, of the main thread and, with `stop`, of the outside. -/
inductive Action (n : Nat) where
  | job (i : Fin n) (a : JobAction)
  | stop
  | waitForEvent
  | extractLines
  | mustStop (limitReached : Bool)
  | joinThreads
  | finishSearch (randomMove : Move)

section Model

variable {n : Nat} (maxDepth : Nat)

/-- The head of the loop of `Job::run`. -/
def nextDepth (depth : Nat) : JobPhase :=
  if depth ≤ maxDepth then .searching depth else .stopping

def initial : State n where
  depth := 1
  stopped := false
  lines := []
  jobs := fun _ => nextDepth maxDepth 1
  main := .mainLoop
  bestDepth := 0
  bestMove := Move.null
  added := []
  considered := []

def State.setJob (s : State n) (i : Fin n) (phase : JobPhase) : State n :=
  { s with jobs := Function.update s.jobs i phase }

def State.addLine (s : State n) (line : Line) : State n :=
  { s with lines := s.lines ++ [line], added := s.added ++ [line] }

def jobStep (s : State n) (i : Fin n) (a : JobAction) : Option (State n) :=
  match a, s.jobs i with
  | .checkTimeout, .searching _ => some { s with stopped := true }
  | .run, .searching depth => some (s.setJob i (if s.stopped then .terminated else .tested depth))
  | .finishDepth, .tested depth =>
    if s.depth = depth then some ({ s with depth := depth + 1 }.setJob i (.adding depth))
    else some (s.setJob i (nextDepth maxDepth (depth + 1)))
  | .addLine bestMove rest, .adding depth =>
    some ((s.addLine ⟨depth, bestMove :: rest⟩).setJob i (nextDepth maxDepth (depth + 1)))
  | .stop, .stopping => some ({ s with stopped := true }.setJob i .terminated)
  | _, _ => none

/-- One turn of the loop of `extractLines`. -/
def consider (best : Nat × Move) (line : Line) : Nat × Move :=
  match line.pv with
  | [] => best
  | move :: _ => if best.1 < line.depth then (line.depth, move) else best

def State.extractLines (s : State n) : State n :=
  let lines := s.lines.insertionSort fun a b => a.depth ≤ b.depth
  let best := lines.foldl consider (s.bestDepth, s.bestMove)
  { s with
    lines := [], bestDepth := best.1, bestMove := best.2, considered := s.considered ++ lines }

def step (s : State n) : Action n → Option (State n)
  | .job i a => jobStep maxDepth s i a
  | .stop => some { s with stopped := true }
  | .waitForEvent =>
    if s.main = .mainLoop then
      if s.lines ≠ [] then some { s with main := .extractLines }
      else if s.stopped then some { s with main := .joinThreads }
      else some { s with main := .mustStop }
    else none
  | .extractLines =>
    if s.main = .extractLines then some { s.extractLines with main := .mustStop } else none
  | .mustStop limitReached =>
    if s.main = .mustStop then
      some { s with stopped := s.stopped || limitReached, main := .mainLoop }
    else none
  | .joinThreads =>
    if s.main = .joinThreads ∧ ∀ i, s.jobs i = .terminated then
      some { s with main := .finishSearch }
    else none
  | .finishSearch randomMove =>
    if s.main = .finishSearch then
      some { s with main := .finished (if s.bestMove = Move.null then randomMove else s.bestMove) }
    else none

def system (n : Nat) : System (State n) (Action n) := ⟨initial maxDepth, step maxDepth⟩

end Model

section Jobs

variable {n maxDepth : Nat} {s s' : State n} {i : Fin n}

/-- What a step of a job can do. -/
inductive JobStep (maxDepth : Nat) (s : State n) (i : Fin n) : JobAction → State n → Prop
  | checkTimeout {depth : Nat} (h : s.jobs i = .searching depth) :
      JobStep maxDepth s i .checkTimeout { s with stopped := true }
  | run {depth : Nat} (h : s.jobs i = .searching depth) :
      JobStep maxDepth s i .run (s.setJob i (if s.stopped then .terminated else .tested depth))
  | first (h : s.jobs i = .tested s.depth) :
      JobStep maxDepth s i .finishDepth
        ({ s with depth := s.depth + 1 }.setJob i (.adding s.depth))
  | late {depth : Nat} (h : s.jobs i = .tested depth) (hne : s.depth ≠ depth) :
      JobStep maxDepth s i .finishDepth (s.setJob i (nextDepth maxDepth (depth + 1)))
  | addLine {depth : Nat} {bestMove : Move} {rest : List Move} (h : s.jobs i = .adding depth) :
      JobStep maxDepth s i (.addLine bestMove rest)
        ((s.addLine ⟨depth, bestMove :: rest⟩).setJob i (nextDepth maxDepth (depth + 1)))
  | stop (h : s.jobs i = .stopping) :
      JobStep maxDepth s i .stop ({ s with stopped := true }.setJob i .terminated)

theorem jobStep_cases {a : JobAction} (hs : jobStep maxDepth s i a = some s') :
    JobStep maxDepth s i a s' := by
  unfold jobStep at hs
  split at hs
  · rename_i h
    cases hs
    exact .checkTimeout h
  · rename_i h
    cases hs
    exact .run h
  · rename_i depth h
    split at hs
    · rename_i hd
      cases hs
      subst hd
      exact .first h
    · rename_i hd
      cases hs
      exact .late h hd
  · rename_i h
    cases hs
    exact .addLine h
  · rename_i h
    cases hs
    exact .stop h
  · cases hs

/-- A job that is going to add a line whatever the others do, unless one of them
adds a line of the same depth first. -/
def JobPhase.Pending (depth : Nat) : JobPhase → Prop
  | .adding _ => True
  | .tested d => d = depth
  | _ => False

instance (depth : Nat) : (phase : JobPhase) → Decidable (phase.Pending depth)
  | .adding _ => isTrue trivial
  | .tested d => inferInstanceAs (Decidable (d = depth))
  | .searching _ | .stopping | .terminated => isFalse id

def Pending (s : State n) : Prop := ∃ i, (s.jobs i).Pending s.depth

/-- There is a line, or there will be one. -/
def Unheard (s : State n) : Prop := s.lines ≠ [] ∨ Pending s

theorem nextDepth_not_pending (depth d : Nat) : ¬(nextDepth maxDepth d).Pending depth := by
  unfold nextDepth
  split <;> exact id

theorem pending_setJob {phase : JobPhase} (h : ¬(s.jobs i).Pending s.depth)
    (h' : ¬phase.Pending s.depth) : Pending (s.setJob i phase) ↔ Pending s := by
  apply exists_congr
  intro j
  by_cases hj : j = i
  · subst hj
    simp [State.setJob, h, h']
  · simp [State.setJob, hj]

theorem unheard_jobStep {a : JobAction} (hstopped : s.stopped = true)
    (hs : jobStep maxDepth s i a = some s') : Unheard s' ↔ Unheard s := by
  cases jobStep_cases hs with
  | checkTimeout h => exact Iff.rfl
  | run h =>
    apply or_congr Iff.rfl
    apply pending_setJob
    · simp [h, JobPhase.Pending]
    · simp [hstopped, JobPhase.Pending]
  | first h =>
    apply iff_of_true
    · exact Or.inr ⟨i, by simp [State.setJob, JobPhase.Pending]⟩
    · exact Or.inr ⟨i, by simp [h, JobPhase.Pending]⟩
  | late h hne =>
    apply or_congr Iff.rfl
    apply pending_setJob
    · simpa [h, JobPhase.Pending] using hne.symm
    · exact nextDepth_not_pending _ _
  | addLine h =>
    apply iff_of_true
    · exact Or.inl (by simp [State.setJob, State.addLine])
    · exact Or.inr ⟨i, by simp [h, JobPhase.Pending]⟩
  | stop h =>
    apply or_congr Iff.rfl
    exact pending_setJob (s := { s with stopped := true }) (by simp [h, JobPhase.Pending]) id

end Jobs

section Best

theorem foldl_consider_le (lines : List Line) (best : Nat × Move) (hpv : ∀ l ∈ lines, l.pv ≠ []) :
    best.1 ≤ (lines.foldl consider best).1 ∧
      ∀ l ∈ lines, l.depth ≤ (lines.foldl consider best).1 := by
  induction lines generalizing best with
  | nil => simp
  | cons line lines ih =>
    have hstep : best.1 ≤ (consider best line).1 ∧ line.depth ≤ (consider best line).1 := by
      have hne := hpv line (by simp)
      unfold consider
      split
      · rename_i h
        exact absurd h hne
      · split <;> simp <;> omega
    obtain ⟨hle, hall⟩ := ih (consider best line) fun l hl => hpv l (by simp [hl])
    refine ⟨hstep.1.trans hle, ?_⟩
    intro l hl
    cases List.mem_cons.mp hl with
    | inl h =>
      subst h
      exact hstep.2.trans hle
    | inr h => exact hall l h

/-- The line names a move. -/
def Line.Named (line : Line) : Prop := ∃ move rest, line.pv = move :: rest ∧ move ≠ Move.null

theorem foldl_consider_null (lines : List Line) (best : Nat × Move)
    (hlines : ∀ l ∈ lines, 1 ≤ l.depth ∧ l.Named) (hbest : best.2 = Move.null → best.1 = 0)
    (h : (lines.foldl consider best).2 = Move.null) : best.2 = Move.null ∧ lines = [] := by
  induction lines generalizing best with
  | nil => exact ⟨h, rfl⟩
  | cons line lines ih =>
    exfalso
    obtain ⟨hd, move, rest, hpv, hmove⟩ := hlines line (by simp)
    have hnull : (consider best line).2 ≠ Move.null := by
      simp only [consider, hpv]
      split
      · exact hmove
      · intro hn
        have := hbest hn
        omega
    exact hnull (ih (consider best line) (fun l hl => hlines l (by simp [hl]))
      (fun hn => absurd hn hnull) h).1

end Best

section Run

variable {n maxDepth : Nat} {s s' : State n} {a : Action n}

/-- The main thread has seen that the search is stopped. -/
def Left : MainPhase → Prop
  | .joinThreads | .finishSearch | .finished _ => True
  | _ => False

def Joined : MainPhase → Prop
  | .finishSearch | .finished _ => True
  | _ => False

/-- The depths that a job may be at, beside the depth of the communicator. -/
def JobPhase.Within (depth : Nat) : JobPhase → Prop
  | .searching d | .tested d => 1 ≤ d ∧ d ≤ depth
  | .adding d => 1 ≤ d ∧ d < depth
  | .stopping | .terminated => True

theorem JobPhase.Within.mono {depth depth' : Nat} (h : depth ≤ depth') {phase : JobPhase}
    (hp : phase.Within depth) : phase.Within depth' := by
  cases phase <;> simp only [Within] at hp ⊢ <;> omega

theorem within_nextDepth {depth d : Nat} (h : 1 ≤ d) (hd : d ≤ depth) :
    (nextDepth maxDepth d).Within depth := by
  unfold nextDepth
  split
  · exact ⟨h, hd⟩
  · trivial

/-- Every line that was added is either considered or waiting. -/
structure Accounted (s : State n) : Prop where
  within : ∀ i, (s.jobs i).Within s.depth
  perm : (s.considered ++ s.lines).Perm s.added
  sound : ∀ l ∈ s.lines, 1 ≤ l.depth ∧ l.pv ≠ []
  deepest : ∀ l ∈ s.considered, l.depth ≤ s.bestDepth
  left : Left s.main → s.stopped = true
  joined : Joined s.main → ∀ i, s.jobs i = .terminated

theorem accounted_initial : Accounted (initial maxDepth : State n) where
  within := fun _ => within_nextDepth le_rfl le_rfl
  perm := .nil
  sound := by simp [initial]
  deepest := by simp [initial]
  left := by simp [initial, Left]
  joined := by simp [initial, Joined]

theorem within_setJob {i : Fin n} {phase : JobPhase} (h : ∀ i, (s.jobs i).Within s.depth)
    (hp : phase.Within s.depth) (j : Fin n) : ((s.setJob i phase).jobs j).Within s.depth := by
  by_cases hj : j = i
  · subst hj
    simpa [State.setJob] using hp
  · simpa [State.setJob, hj] using h j

theorem Accounted.jobStep (h : Accounted s) {i : Fin n} {a : JobAction}
    (hs : jobStep maxDepth s i a = some s') : Accounted s' := by
  have hrun : ∀ {d}, s.jobs i = d → Joined s.main → d = .terminated := fun hd hj => by
    rw [← hd]
    exact h.joined hj i
  have hi := h.within i
  cases jobStep_cases hs with
  | checkTimeout hi => exact ⟨h.within, h.perm, h.sound, h.deepest, fun _ => rfl, h.joined⟩
  | run hd =>
    refine ⟨?_, h.perm, h.sound, h.deepest, h.left, fun hj => absurd (hrun hd hj) (by simp)⟩
    apply within_setJob h.within
    split
    · trivial
    · simpa [hd, JobPhase.Within] using hi
  | first hd =>
    refine ⟨?_, h.perm, h.sound, h.deepest, h.left, fun hj => absurd (hrun hd hj) (by simp)⟩
    apply within_setJob (s := { s with depth := s.depth + 1 })
    · intro j
      exact (h.within j).mono (Nat.le_succ _)
    · simp only [hd, JobPhase.Within] at hi ⊢
      omega
  | late hd hne =>
    refine ⟨?_, h.perm, h.sound, h.deepest, h.left, fun hj => absurd (hrun hd hj) (by simp)⟩
    simp only [hd, JobPhase.Within] at hi
    apply within_setJob h.within
    apply within_nextDepth <;> omega
  | addLine hd =>
    simp only [hd, JobPhase.Within] at hi
    refine ⟨?_, ?_, ?_, h.deepest, h.left, fun hj => absurd (hrun hd hj) (by simp)⟩
    · apply within_setJob (s := s.addLine _) h.within
      exact within_nextDepth (Nat.le_add_left 1 _) hi.2
    · simp only [State.setJob, State.addLine, ← List.append_assoc]
      exact h.perm.append_right _
    · simp only [State.setJob, State.addLine, List.mem_append, List.mem_singleton]
      intro l hl
      cases hl with
      | inl hl => exact h.sound l hl
      | inr hl =>
        subst hl
        exact ⟨hi.1, by simp⟩
  | stop hd =>
    refine ⟨?_, h.perm, h.sound, h.deepest, fun _ => rfl, fun hj => absurd (hrun hd hj) (by simp)⟩
    exact within_setJob (s := { s with stopped := true }) h.within trivial

theorem Accounted.extractLines (h : Accounted s) :
    Accounted { s.extractLines with main := .mustStop } where
  within := h.within
  perm := by
    simp only [State.extractLines, List.append_nil]
    exact ((List.perm_insertionSort _ s.lines).append_left _).trans h.perm
  sound := by simp [State.extractLines]
  deepest := by
    simp only [State.extractLines, List.mem_append]
    have hpv : ∀ l ∈ s.lines.insertionSort (fun a b => a.depth ≤ b.depth), l.pv ≠ [] := by
      intro l hl
      exact (h.sound l ((List.mem_insertionSort _).mp hl)).2
    obtain ⟨hle, hall⟩ := foldl_consider_le _ (s.bestDepth, s.bestMove) hpv
    intro l hl
    cases hl with
    | inl hl => exact (h.deepest l hl).trans hle
    | inr hl => exact hall l hl
  left := by simp [Left]
  joined := by simp [Joined]

theorem Accounted.step (h : Accounted s) (hs : step maxDepth s a = some s') : Accounted s' := by
  cases a with
  | job i a => exact h.jobStep hs
  | stop =>
    cases hs
    exact ⟨h.within, h.perm, h.sound, h.deepest, fun _ => rfl, h.joined⟩
  | waitForEvent =>
    simp only [JobCommunicator.step, Option.ite_none_right_eq_some] at hs
    obtain ⟨hm, hs⟩ := hs
    split at hs
    · cases hs
      exact ⟨h.within, h.perm, h.sound, h.deepest, by simp [Left], by simp [Joined]⟩
    · split at hs
      · rename_i hstopped
        cases hs
        exact ⟨h.within, h.perm, h.sound, h.deepest, fun _ => hstopped, by simp [Joined]⟩
      · cases hs
        exact ⟨h.within, h.perm, h.sound, h.deepest, by simp [Left], by simp [Joined]⟩
  | extractLines =>
    simp only [JobCommunicator.step, Option.ite_none_right_eq_some, Option.some.injEq] at hs
    obtain ⟨-, rfl⟩ := hs
    exact h.extractLines
  | mustStop limitReached =>
    simp only [JobCommunicator.step, Option.ite_none_right_eq_some, Option.some.injEq] at hs
    obtain ⟨-, rfl⟩ := hs
    exact ⟨h.within, h.perm, h.sound, h.deepest, by simp [Left], by simp [Joined]⟩
  | joinThreads =>
    simp only [JobCommunicator.step, Option.ite_none_right_eq_some, Option.some.injEq] at hs
    obtain ⟨⟨hm, hall⟩, rfl⟩ := hs
    exact ⟨h.within, h.perm, h.sound, h.deepest, fun _ => h.left (by simp [hm, Left]), fun _ => hall⟩
  | finishSearch randomMove =>
    simp only [JobCommunicator.step, Option.ite_none_right_eq_some, Option.some.injEq] at hs
    obtain ⟨hm, rfl⟩ := hs
    exact ⟨h.within, h.perm, h.sound, h.deepest, fun _ => h.left (by simp [hm, Left]),
      fun _ => h.joined (by simp [hm, Joined])⟩

theorem accounted_of_reach {C : State n → Action n → Prop} (h : (system maxDepth n).Reach C s) :
    Accounted s := by
  apply h.invariant accounted_initial
  intro s a s' ha _ hs
  exact ha.step hs

theorem jobStep_frame {i : Fin n} {a : JobAction} (hs : jobStep maxDepth s i a = some s') :
    s'.main = s.main ∧ s'.bestDepth = s.bestDepth ∧ s'.bestMove = s.bestMove ∧
      s'.considered = s.considered := by
  cases jobStep_cases hs <;> exact ⟨rfl, rfl, rfl, rfl⟩

theorem unheard_step (h : Accounted s) (hl : Left s.main) (hs : step maxDepth s a = some s') :
    Left s'.main ∧ (Unheard s' ↔ Unheard s) := by
  cases a with
  | job i a =>
    rw [(jobStep_frame hs).1]
    exact ⟨hl, unheard_jobStep (h.left hl) hs⟩
  | stop =>
    cases hs
    exact ⟨hl, Iff.rfl⟩
  | waitForEvent =>
    simp only [step, Option.ite_none_right_eq_some] at hs
    simp [hs.1, Left] at hl
  | extractLines =>
    simp only [step, Option.ite_none_right_eq_some] at hs
    simp [hs.1, Left] at hl
  | mustStop limitReached =>
    simp only [step, Option.ite_none_right_eq_some] at hs
    simp [hs.1, Left] at hl
  | joinThreads =>
    simp only [step, Option.ite_none_right_eq_some, Option.some.injEq] at hs
    obtain ⟨-, rfl⟩ := hs
    exact ⟨trivial, Iff.rfl⟩
  | finishSearch randomMove =>
    simp only [step, Option.ite_none_right_eq_some, Option.some.injEq] at hs
    obtain ⟨-, rfl⟩ := hs
    exact ⟨trivial, Iff.rfl⟩

theorem unheard_run (acts : List (Action n)) (h : Accounted s) (hl : Left s.main)
    (hr : (system maxDepth n).run s acts = some s') : Unheard s' ↔ Unheard s := by
  induction acts generalizing s with
  | nil =>
    cases hr
    exact Iff.rfl
  | cons a acts ih =>
    obtain ⟨t, ht, hr'⟩ := Option.bind_eq_some_iff.mp hr
    obtain ⟨hl', hu⟩ := unheard_step h hl ht
    exact (ih (h.step ht) hl' hr').trans hu

theorem Accounted.unheard_iff (h : Accounted s) (hm : s.main = .finishSearch) :
    Unheard s ↔ s.lines ≠ [] := by
  apply or_iff_left
  intro hp
  obtain ⟨i, hi⟩ := hp
  rw [h.joined (by simp [hm, Joined]) i] at hi
  exact hi

/-- The main thread only takes the search as stopped when no job is on its way
from `isStopped` to `addLine`. -/
def Drained (s : State n) : Action n → Prop
  | .waitForEvent => s.stopped = true → s.lines = [] → ¬Pending s
  | _ => True

/-- Every line that is added starts with a move. -/
def AddsMove (_ : State n) : Action n → Prop
  | .job _ (.addLine bestMove _) => bestMove ≠ Move.null
  | _ => True

instance (s : State n) : Decidable (Pending s) :=
  inferInstanceAs (Decidable (∃ _, _))

instance (s : State n) : (a : Action n) → Decidable (Drained s a)
  | .waitForEvent => inferInstanceAs (Decidable (_ → _ → _))
  | .job _ _ | .stop | .extractLines | .mustStop _ | .joinThreads | .finishSearch _ =>
    isTrue trivial

instance (s : State n) : (a : Action n) → Decidable (AddsMove s a)
  | .job _ (.addLine _ _) => inferInstanceAs (Decidable (_ ≠ _))
  | .job _ .checkTimeout | .job _ .run | .job _ .finishDepth | .job _ .stop => isTrue trivial
  | .waitForEvent | .stop | .extractLines | .mustStop _ | .joinThreads | .finishSearch _ =>
    isTrue trivial

theorem left_waitForEvent (hs : step maxDepth s .waitForEvent = some s')
    (hl : Left s'.main) : Unheard s' ↔ ¬Drained s .waitForEvent := by
  simp only [step, Option.ite_none_right_eq_some] at hs
  obtain ⟨-, hs⟩ := hs
  split at hs
  · cases hs
    simp [Left] at hl
  · rename_i hlines
    split at hs
    · rename_i hstopped
      cases hs
      have hnil : s.lines = [] := not_not.mp hlines
      simp only [Unheard, Drained, hnil, hstopped, forall_const, not_not, ne_eq, not_true,
        false_or]
      exact Iff.rfl
    · cases hs
      simp [Left] at hl

theorem heard_of_reach (h : (system maxDepth n).Reach Drained s) : Left s.main → ¬Unheard s := by
  have hboth : Accounted s ∧ (Left s.main → ¬Unheard s) := by
    apply h.invariant ⟨accounted_initial, fun hl => by simp [system, initial, Left] at hl⟩
    intro s a s' hi hc hs
    have hs : step maxDepth s a = some s' := hs
    refine ⟨hi.1.step hs, fun hl' => ?_⟩
    by_cases hl : Left s.main
    · rw [(unheard_step hi.1 hl hs).2]
      exact hi.2 hl
    · -- The main loop can only be left when the search is found to be stopped.
      cases a with
      | waitForEvent =>
        rw [left_waitForEvent hs hl', not_not]
        exact hc
      | job i a =>
        rw [(jobStep_frame hs).1] at hl'
        exact absurd hl' hl
      | stop =>
        cases hs
        exact absurd hl' hl
      | extractLines =>
        simp only [step, Option.ite_none_right_eq_some, Option.some.injEq] at hs
        obtain ⟨-, rfl⟩ := hs
        simp [Left] at hl'
      | mustStop limitReached =>
        simp only [step, Option.ite_none_right_eq_some, Option.some.injEq] at hs
        obtain ⟨-, rfl⟩ := hs
        simp [Left] at hl'
      | joinThreads =>
        simp only [step, Option.ite_none_right_eq_some] at hs
        simp [hs.1.1, Left] at hl
      | finishSearch randomMove =>
        simp only [step, Option.ite_none_right_eq_some] at hs
        simp [hs.1, Left] at hl
  exact hboth.2

/-- As long as every line names a move, the best move is only missing when no line
was considered. -/
structure Naming (s : State n) : Prop where
  lines : ∀ l ∈ s.lines, 1 ≤ l.depth ∧ l.Named
  missing : s.bestMove = Move.null → s.bestDepth = 0 ∧ s.considered = []

theorem Naming.step (ha : Accounted s) (h : Naming s) (hc : AddsMove s a)
    (hs : step maxDepth s a = some s') : Naming s' := by
  cases a with
  | job i a =>
    obtain ⟨-, hd, hm, hcons⟩ := jobStep_frame hs
    refine ⟨?_, by rw [hd, hm, hcons]; exact h.missing⟩
    have hi := ha.within i
    cases jobStep_cases hs with
    | addLine hj =>
      simp only [hj, JobPhase.Within] at hi
      simp only [State.setJob, State.addLine, List.mem_append, List.mem_singleton]
      intro l hl
      cases hl with
      | inl hl => exact h.lines l hl
      | inr hl =>
        subst hl
        exact ⟨hi.1, _, _, rfl, hc⟩
    | _ => exact h.lines
  | extractLines =>
    simp only [JobCommunicator.step, Option.ite_none_right_eq_some, Option.some.injEq] at hs
    obtain ⟨-, rfl⟩ := hs
    refine ⟨by simp [State.extractLines], fun hnull => ?_⟩
    have hlines : ∀ l ∈ s.lines.insertionSort (fun a b => a.depth ≤ b.depth),
        1 ≤ l.depth ∧ l.Named := by
      intro l hl
      exact h.lines l ((List.mem_insertionSort _).mp hl)
    obtain ⟨hbest, hnil⟩ := foldl_consider_null _ (s.bestDepth, s.bestMove) hlines
      (fun hn => (h.missing hn).1) hnull
    obtain ⟨hd, hcons⟩ := h.missing hbest
    simp [State.extractLines, hnil, hd, hcons]
  | stop =>
    cases hs
    exact ⟨h.lines, h.missing⟩
  | waitForEvent =>
    simp only [JobCommunicator.step, Option.ite_none_right_eq_some] at hs
    obtain ⟨-, hs⟩ := hs
    split at hs
    · cases hs
      exact ⟨h.lines, h.missing⟩
    · split at hs <;> cases hs <;> exact ⟨h.lines, h.missing⟩
  | _ =>
    simp only [JobCommunicator.step, Option.ite_none_right_eq_some, Option.some.injEq] at hs
    obtain ⟨-, rfl⟩ := hs
    exact ⟨h.lines, h.missing⟩

theorem naming_of_reach (h : (system maxDepth n).Reach AddsMove s) : Naming s := by
  have hboth : Accounted s ∧ Naming s := by
    apply h.invariant ⟨accounted_initial, by simp [system, initial], by simp [system, initial]⟩
    intro s a s' hi hc hs
    exact ⟨hi.1.step hs, hi.2.step hi.1 hc hs⟩
  exact hboth.2

/-- The lines that the jobs have added are those that the main thread has taken
into account. -/
def AllConsidered (s : State n) : Prop :=
  s.considered.Perm s.added ∧ ∀ l ∈ s.added, l.depth ≤ s.bestDepth

theorem Accounted.considered_iff (h : Accounted s) (hm : s.main = .finishSearch) :
    AllConsidered s ↔ ¬Unheard s := by
  rw [h.unheard_iff hm, not_not]
  constructor
  · intro hall
    have hlen := (h.perm.trans hall.1.symm).length_eq
    simpa using hlen
  · intro hnil
    have hperm : s.considered.Perm s.added := by simpa [hnil] using h.perm
    exact ⟨hperm, fun l hl => h.deepest l (hperm.mem_iff.mpr hl)⟩

/-- No line is lost in the runs in which the search is only taken as stopped when
the jobs are drained, and a line is lost in all others. If, moreover, the lines
name moves, then only a search without lines ends with a random move. -/
theorem allConsidered_iff :
    (∀ s, (system maxDepth n).Reach Drained s → s.main = .finishSearch → AllConsidered s) ∧
    (∀ s, (system maxDepth n).Reach (fun s a => Drained s a ∧ AddsMove s a) s →
      s.main = .finishSearch → s.bestMove = Move.null → s.added = []) ∧
    (∀ s t t' acts, (system maxDepth n).Reachable s → step maxDepth s .waitForEvent = some t →
      Left t.main → (system maxDepth n).run t acts = some t' → t'.main = .finishSearch →
      (AllConsidered t' ↔ Drained s .waitForEvent)) := by
  refine ⟨?_, ?_, ?_⟩
  · intro s h hm
    rw [(accounted_of_reach h).considered_iff hm]
    exact heard_of_reach h (by simp [hm, Left])
  · intro s h hm hnull
    have hd : (system maxDepth n).Reach Drained s := h.mono fun _ _ hc => hc.1
    have hall := heard_of_reach hd (by simp [hm, Left])
    rw [← (accounted_of_reach h).considered_iff hm] at hall
    have hn := naming_of_reach (h.mono fun _ _ hc => hc.2)
    have hperm := hall.1
    rw [(hn.missing hnull).2] at hperm
    exact hperm.symm.eq_nil
  · intro s t t' acts h hs hl hr hm
    have ha := accounted_of_reach h
    have ht := ha.step hs
    have hreach : (system maxDepth n).Reachable t := .step (a := .waitForEvent) h trivial hs
    have ht' := accounted_of_reach (System.reachable_of_run acts hreach hr)
    rw [ht'.considered_iff hm, unheard_run acts ht hl hr, left_waitForEvent hs hl, not_not]

end Run

section Lost

/-- e2e4. -/
def openingMove : Move := mkMove .pawnDoubleMove 52 36

/-- Two jobs share a search of depth one: the first reports a line, the second
comes too late. -/
def sharedSearch : List (Action 2) :=
  [.job 0 .run, .job 1 .run, .job 0 .finishDepth, .job 0 (.addLine openingMove []), .waitForEvent,
    .extractLines, .mustStop false, .job 1 .finishDepth, .job 1 .stop, .job 0 .stop, .waitForEvent,
    .joinThreads]

theorem allConsidered_iff_sharedSearch :
    ∃ s, (system 1 2).run (initial 1) sharedSearch = some s ∧
      s.main = .finishSearch ∧ s.added.length = 1 ∧ AllConsidered s := by
  refine ⟨_, rfl, rfl, rfl, ?_⟩
  apply (@allConsidered_iff 2 1).1
  · exact System.Reach.init.run sharedSearch (by decide) rfl
  · rfl

/-- The second job ends the search while the first is about to report. -/
def lostLine : List (Action 2) :=
  [.job 0 .run, .job 1 .run, .job 0 .finishDepth, .job 1 .finishDepth, .job 1 .stop, .waitForEvent,
    .job 0 (.addLine openingMove []), .job 0 .stop, .joinThreads]

theorem not_allConsidered : ¬∀ (n maxDepth : Nat) (s : State n), (system maxDepth n).Reachable s →
    s.main = .finishSearch →
    (∀ l ∈ s.added, l ∈ s.considered) ∧ (s.bestMove = Move.null → s.added = []) := by
  intro h
  have hs := (h 2 1 _ (System.reachable_of_run lostLine .init rfl) rfl).2 rfl
  exact absurd hs (by decide)

end Lost

end SoFCheck.Search.JobCommunicator
