import SoFCheck.Util.Transition

namespace SoFCheck.Search.Deepening

open SoFCheck.Util.Transition

/-- Where a job stands in the loop of `Job::run`. `aborted` tells that `mustStop` has returned
true during the call of `Searcher::run`. -/
inductive Phase where
  | running (depth : Nat) (aborted : Bool)
  /-- In `mustStop`, past the test of `isStopped`. -/
  | checking (depth : Nat) (aborted : Bool)
  | returned (depth : Nat) (aborted : Bool)
  /-- Past the test of `isStopped` after the call. -/
  | tested (depth : Nat) (aborted : Bool)
  /-- The first to finish the depth, about to call `addLine`. -/
  | adding (depth : Nat) (aborted : Bool)
  | stopping
  | terminated
  deriving DecidableEq

/-- A line, and whether its search was told to stop. -/
structure Line where
  depth : Nat
  aborted : Bool
  deriving DecidableEq

/-- The communicator and the jobs; the depths that were finished are kept for the record. -/
structure State (n : Nat) where
  depth : Nat
  stopped : Bool
  jobs : Fin n → Phase
  lines : List Line
  finished : List Nat

inductive JobAction where
  /-- `mustStop` begins. -/
  | isStopped
  /-- Every 1024th call looks at the clock. -/
  | checkTimeout (limitReached : Bool)
  /-- The other calls look at the depth of the communicator. -/
  | readDepth
  | ret
  | test
  | finishDepth
  | addLine
  | stop

/-- The steps of the jobs and, with `stop`, of the other threads. -/
inductive Action (n : Nat) where
  | job (i : Fin n) (a : JobAction)
  | stop

section Model

variable {n : Nat} (maxDepth : Nat)

/-- The head of the loop of `Job::run`. -/
def nextDepth (depth : Nat) : Phase :=
  if depth ≤ maxDepth then .running depth false else .stopping

/-- The state after `reset`. -/
def initial : State n where
  depth := 1
  stopped := false
  jobs := fun _ => nextDepth maxDepth 1
  lines := []
  finished := []

def State.setJob (s : State n) (i : Fin n) (phase : Phase) : State n :=
  { s with jobs := Function.update s.jobs i phase }

def jobStep (s : State n) (i : Fin n) (a : JobAction) : Option (State n) :=
  match a, s.jobs i with
  | .isStopped, .running d aborted =>
    some (s.setJob i (if s.stopped then .running d true else .checking d aborted))
  | .checkTimeout limitReached, .checking d aborted =>
    some ({ s with stopped := s.stopped || limitReached }.setJob i
      (.running d (aborted || limitReached)))
  | .readDepth, .checking d aborted =>
    some (s.setJob i (.running d (aborted || decide (s.depth ≠ d))))
  | .ret, .running d aborted => some (s.setJob i (.returned d aborted))
  | .test, .returned d aborted =>
    some (s.setJob i (if s.stopped then .terminated else .tested d aborted))
  | .finishDepth, .tested d aborted =>
    if s.depth = d then
      some ({ s with depth := d + 1, finished := s.finished ++ [d] }.setJob i (.adding d aborted))
    else some (s.setJob i (nextDepth maxDepth (d + 1)))
  | .addLine, .adding d aborted =>
    some ({ s with lines := s.lines ++ [Line.mk d aborted] }.setJob i (nextDepth maxDepth (d + 1)))
  | .stop, .stopping => some ({ s with stopped := true }.setJob i .terminated)
  | _, _ => none

def step (s : State n) : Action n → Option (State n)
  | .job i a => jobStep maxDepth s i a
  | .stop => some { s with stopped := true }

def system (n : Nat) : System (State n) (Action n) := ⟨initial maxDepth, step maxDepth⟩

end Model

section Invariant

variable {n maxDepth : Nat} {s s' : State n} {i : Fin n}

/-- A search that was told to stop cannot get as far as a line: either everything is stopped, or
its depth is finished already. -/
def Phase.Sound (depth : Nat) (stopped : Bool) : Phase → Prop
  | .running d aborted | .checking d aborted | .returned d aborted =>
    1 ≤ d ∧ d ≤ depth ∧ (aborted = true → stopped = true ∨ d < depth)
  | .tested d aborted => 1 ≤ d ∧ d ≤ depth ∧ (aborted = true → d < depth)
  | .adding d aborted => 1 ≤ d ∧ d < depth ∧ aborted = false
  | .stopping | .terminated => True

/-- The depth whose line the job is going to add. -/
def Phase.pending : Phase → Option Nat
  | .adding d _ => some d
  | _ => none

structure Inv (s : State n) : Prop where
  sound : ∀ i, (s.jobs i).Sound s.depth s.stopped
  finished : s.finished = List.range' 1 (s.depth - 1)
  positive : 1 ≤ s.depth
  lines : ∀ line ∈ s.lines, 1 ≤ line.depth ∧ line.depth < s.depth ∧ line.aborted = false
  nodup : (s.lines.map Line.depth).Nodup
  unique : ∀ i j d, (s.jobs i).pending = some d → (s.jobs j).pending = some d → i = j
  unused : ∀ i d, (s.jobs i).pending = some d → d ∉ s.lines.map Line.depth

theorem Phase.Sound.mono {depth depth' : Nat} {stopped stopped' : Bool} {phase : Phase}
    (h : phase.Sound depth stopped) (hd : depth ≤ depth')
    (hs : stopped = true → stopped' = true) : phase.Sound depth' stopped' := by
  cases phase with
  | running d aborted | checking d aborted | returned d aborted =>
    refine ⟨h.1, h.2.1.trans hd, fun ha => ?_⟩
    exact (h.2.2 ha).imp hs fun hlt => hlt.trans_le hd
  | tested d aborted => exact ⟨h.1, h.2.1.trans hd, fun ha => (h.2.2 ha).trans_le hd⟩
  | adding d aborted => exact ⟨h.1, h.2.1.trans_le hd, h.2.2⟩
  | stopping | terminated => trivial

theorem sound_nextDepth {depth d : Nat} {stopped : Bool} (h : 1 ≤ d) (hd : d ≤ depth) :
    (nextDepth maxDepth d).Sound depth stopped := by
  unfold nextDepth
  split
  · exact ⟨h, hd, fun ha => absurd ha Bool.false_ne_true⟩
  · trivial

theorem pending_nextDepth (d : Nat) : (nextDepth maxDepth d).pending = none := by
  unfold nextDepth
  split <;> rfl

theorem inv_initial : Inv (initial maxDepth : State n) where
  sound _ := sound_nextDepth le_rfl le_rfl
  finished := rfl
  positive := le_rfl
  lines line h := absurd h List.not_mem_nil
  nodup := List.nodup_nil
  unique i j d h := by
    rw [initial, pending_nextDepth] at h
    cases h
  unused i d h := by
    rw [initial, pending_nextDepth] at h
    cases h

theorem Inv.move (h : Inv s) {phase : Phase} {stopped : Bool}
    (hs : s.stopped = true → stopped = true) (hphase : phase.Sound s.depth stopped)
    (hpending : phase.pending = none) : Inv ({ s with stopped := stopped }.setJob i phase) := by
  have hjobs : ∀ j d, (Function.update s.jobs i phase j).pending = some d →
      (s.jobs j).pending = some d := by
    intro j d hj
    by_cases hij : j = i
    · rw [hij, Function.update_self, hpending] at hj
      cases hj
    · rwa [Function.update_of_ne hij] at hj
  refine ⟨?_, h.finished, h.positive, h.lines, h.nodup, ?_, ?_⟩
  · intro j
    change (Function.update s.jobs i phase j).Sound s.depth stopped
    by_cases hij : j = i
    · rw [hij, Function.update_self]
      exact hphase
    · rw [Function.update_of_ne hij]
      exact (h.sound j).mono le_rfl hs
  · intro j k d hj hk
    exact h.unique j k d (hjobs j d hj) (hjobs k d hk)
  · intro j d hj
    exact h.unused j d (hjobs j d hj)

/-- The job is the first to finish the depth. -/
theorem Inv.finish (h : Inv s) {aborted : Bool} (hi : s.jobs i = .tested s.depth aborted) :
    Inv ({ s with depth := s.depth + 1, finished := s.finished ++ [s.depth] }.setJob i
      (.adding s.depth aborted)) := by
  have hsound := h.sound i
  rw [hi] at hsound
  obtain ⟨hone, -, habort⟩ := hsound
  have hfalse : aborted = false := by
    cases aborted with
    | false => rfl
    | true => exact absurd (habort rfl) (lt_irrefl _)
  have hold : ∀ j d, (s.jobs j).pending = some d → d < s.depth := by
    intro j d hj
    have hjs := h.sound j
    cases hp : s.jobs j with
    | adding d' aborted' =>
      rw [hp] at hj hjs
      cases hj
      exact hjs.2.1
    | _ =>
      rw [hp] at hj
      cases hj
  have hjobs : ∀ j d, (Function.update s.jobs i (.adding s.depth aborted) j).pending = some d →
      j = i ∧ d = s.depth ∨ j ≠ i ∧ (s.jobs j).pending = some d := by
    intro j d hj
    by_cases hij : j = i
    · rw [hij, Function.update_self] at hj
      exact Or.inl ⟨hij, (Option.some.inj hj).symm⟩
    · rw [Function.update_of_ne hij] at hj
      exact Or.inr ⟨hij, hj⟩
  refine ⟨?_, ?_, Nat.le_succ_of_le h.positive, ?_, h.nodup, ?_, ?_⟩
  · intro j
    change (Function.update s.jobs i _ j).Sound (s.depth + 1) s.stopped
    by_cases hij : j = i
    · rw [hij, Function.update_self]
      exact ⟨hone, Nat.lt_succ_self _, hfalse⟩
    · rw [Function.update_of_ne hij]
      exact (h.sound j).mono (Nat.le_succ _) id
  · change s.finished ++ [s.depth] = List.range' 1 (s.depth + 1 - 1)
    have hdepth : s.depth + 1 - 1 = s.depth - 1 + 1 := by omega
    have hlast : 1 + 1 * (s.depth - 1) = s.depth := by omega
    rw [h.finished, hdepth, List.range'_concat, hlast]
  · intro line hline
    obtain ⟨h1, h2, h3⟩ := h.lines line hline
    exact ⟨h1, Nat.lt_succ_of_lt h2, h3⟩
  · intro j k d hj hk
    rcases hjobs j d hj with ⟨rfl, hd⟩ | ⟨hj', hjd⟩ <;> rcases hjobs k d hk with ⟨hk', hkd⟩ | ⟨hk', hkd⟩
    · exact hk'.symm
    · exact absurd (hold k d hkd) (by omega)
    · exact absurd (hold j d hjd) (by omega)
    · exact h.unique j k d hjd hkd
  · intro j d hj
    rcases hjobs j d hj with ⟨-, rfl⟩ | ⟨-, hjd⟩
    · intro hmem
      obtain ⟨line, hline, hdepth⟩ := List.mem_map.mp hmem
      exact absurd (h.lines line hline).2.1 (by omega)
    · exact h.unused j d hjd

/-- The job adds the line that it alone has to add. -/
theorem Inv.addLine (h : Inv s) {d : Nat} {aborted : Bool} (hi : s.jobs i = .adding d aborted) :
    Inv ({ s with lines := s.lines ++ [Line.mk d aborted] }.setJob i (nextDepth maxDepth (d + 1))) := by
  have hsound := h.sound i
  rw [hi] at hsound
  obtain ⟨hone, hlt, hfalse⟩ := hsound
  have hpending : (s.jobs i).pending = some d := by rw [hi]; rfl
  have hjobs : ∀ j e, (Function.update s.jobs i (nextDepth maxDepth (d + 1)) j).pending = some e →
      j ≠ i ∧ (s.jobs j).pending = some e := by
    intro j e hj
    by_cases hij : j = i
    · rw [hij, Function.update_self, pending_nextDepth] at hj
      cases hj
    · rw [Function.update_of_ne hij] at hj
      exact ⟨hij, hj⟩
  refine ⟨?_, h.finished, h.positive, ?_, ?_, ?_, ?_⟩
  · intro j
    change (Function.update s.jobs i _ j).Sound s.depth s.stopped
    by_cases hij : j = i
    · rw [hij, Function.update_self]
      exact sound_nextDepth (Nat.le_add_left 1 d) hlt
    · rw [Function.update_of_ne hij]
      exact h.sound j
  · intro line hline
    rcases List.mem_append.mp hline with hline | hline
    · exact h.lines line hline
    · rw [List.mem_singleton.mp hline]
      exact ⟨hone, hlt, hfalse⟩
  · change ((s.lines ++ [Line.mk d aborted]).map Line.depth).Nodup
    rw [List.map_append, List.nodup_append']
    refine ⟨h.nodup, List.nodup_singleton d, ?_⟩
    rw [List.map_singleton, List.disjoint_singleton]
    exact h.unused i d hpending
  · intro j k e hj hk
    exact h.unique j k e (hjobs j e hj).2 (hjobs k e hk).2
  · intro j e hj
    obtain ⟨hij, hje⟩ := hjobs j e hj
    change e ∉ (s.lines ++ [Line.mk d aborted]).map Line.depth
    rw [List.map_append, List.map_singleton, List.mem_append, List.mem_singleton, not_or]
    refine ⟨h.unused j e hje, ?_⟩
    rintro rfl
    exact hij (h.unique j i e hje hpending)

/-- What a step of a job can do. -/
inductive JobStep (maxDepth : Nat) (s : State n) (i : Fin n) : State n → Prop
  | move {phase : Phase} {b : Bool} (hs : s.stopped = true → b = true)
      (hphase : (s.jobs i).Sound s.depth s.stopped → phase.Sound s.depth b)
      (hpending : phase.pending = none) :
      JobStep maxDepth s i ({ s with stopped := b }.setJob i phase)
  | finish {aborted : Bool} (h : s.jobs i = .tested s.depth aborted) :
      JobStep maxDepth s i
        ({ s with depth := s.depth + 1, finished := s.finished ++ [s.depth] }.setJob i
          (.adding s.depth aborted))
  | addLine {d : Nat} {aborted : Bool} (h : s.jobs i = .adding d aborted) :
      JobStep maxDepth s i
        ({ s with lines := s.lines ++ [Line.mk d aborted] }.setJob i (nextDepth maxDepth (d + 1)))

theorem jobStep_cases {a : JobAction} (hs : jobStep maxDepth s i a = some s') :
    JobStep maxDepth s i s' := by
  unfold jobStep at hs
  split at hs
  · rename_i d aborted h
    cases hs
    apply JobStep.move (b := s.stopped) id
    · intro hsound
      rw [h] at hsound
      split
      · rename_i hstopped
        exact ⟨hsound.1, hsound.2.1, fun _ => Or.inl hstopped⟩
      · exact hsound
    · split <;> rfl
  · rename_i limitReached d aborted h
    cases hs
    apply JobStep.move (b := s.stopped || limitReached)
    · intro hstopped
      rw [hstopped, Bool.true_or]
    · intro hsound
      rw [h] at hsound
      refine ⟨hsound.1, hsound.2.1, ?_⟩
      intro haborted
      rw [Bool.or_eq_true] at haborted ⊢
      rcases haborted with haborted | hlimit
      · exact (hsound.2.2 haborted).imp_left Or.inl
      · exact Or.inl (Or.inr hlimit)
    · rfl
  · rename_i d aborted h
    cases hs
    apply JobStep.move (b := s.stopped) id
    · intro hsound
      rw [h] at hsound
      refine ⟨hsound.1, hsound.2.1, ?_⟩
      intro haborted
      rcases (Bool.or_eq_true _ _).mp haborted with haborted | hdepth
      · exact hsound.2.2 haborted
      · exact Or.inr (lt_of_le_of_ne hsound.2.1 (of_decide_eq_true hdepth).symm)
    · rfl
  · rename_i d aborted h
    cases hs
    apply JobStep.move (b := s.stopped) id
    · intro hsound
      rw [h] at hsound
      exact hsound
    · rfl
  · rename_i d aborted h
    cases hs
    apply JobStep.move (b := s.stopped) id
    · intro hsound
      rw [h] at hsound
      split
      · trivial
      · rename_i hstopped
        refine ⟨hsound.1, hsound.2.1, ?_⟩
        intro haborted
        exact (hsound.2.2 haborted).resolve_left hstopped
    · split <;> rfl
  · rename_i d aborted h
    split at hs
    · rename_i hd
      cases hs
      subst hd
      exact .finish h
    · rename_i hd
      cases hs
      apply JobStep.move (b := s.stopped) id
      · intro hsound
        rw [h] at hsound
        exact sound_nextDepth (Nat.le_add_left 1 d) (lt_of_le_of_ne hsound.2.1 (Ne.symm hd))
      · exact pending_nextDepth _
  · rename_i d aborted h
    cases hs
    exact .addLine h
  · rename_i h
    cases hs
    apply JobStep.move (b := true)
    · exact fun _ => rfl
    · exact fun _ => trivial
    · rfl
  · cases hs

theorem Inv.jobStep (h : Inv s) {a : JobAction} (hs : jobStep maxDepth s i a = some s') :
    Inv s' := by
  cases jobStep_cases hs with
  | move hstop hphase hpending => exact h.move hstop (hphase (h.sound i)) hpending
  | finish hi => exact h.finish hi
  | addLine hi => exact h.addLine hi

theorem Inv.step (h : Inv s) {a : Action n} (hs : step maxDepth s a = some s') : Inv s' := by
  cases a with
  | job i a => exact h.jobStep hs
  | stop =>
    cases hs
    refine ⟨?_, h.finished, h.positive, h.lines, h.nodup, h.unique, h.unused⟩
    intro i
    exact (h.sound i).mono le_rfl fun _ => rfl

theorem inv_of_reachable (h : (system maxDepth n).Reachable s) : Inv s := by
  apply h.invariant inv_initial
  intro s a s' hs _ hstep
  exact hs.step hstep

end Invariant

/-- Each depth is reported at most once, by a search that was never told to stop, and after a job
was the first to finish the depth before. -/
theorem lines_genuine {n : Nat} (maxDepth : Nat) (s : State n)
    (h : (system maxDepth n).Reachable s) :
    (s.lines.map Line.depth).Nodup ∧
      ∀ line ∈ s.lines, line.aborted = false ∧ line.depth ∈ s.finished ∧
        ∀ d, 1 ≤ d → line.depth = d + 1 → d ∈ s.finished := by
  have hinv := inv_of_reachable h
  refine ⟨hinv.nodup, ?_⟩
  intro line hline
  obtain ⟨hone, hlt, haborted⟩ := hinv.lines line hline
  have hmem : ∀ d, 1 ≤ d → d ≤ line.depth → d ∈ s.finished := by
    intro d hd hle
    rw [hinv.finished, List.mem_range'_1]
    omega
  refine ⟨haborted, hmem _ hone le_rfl, ?_⟩
  intro d hd heq
  exact hmem d hd (by omega)

/-- Two jobs race for depth one. The loser goes on to depth two, and the winner, which is still
searching there when depth two is finished, is told to stop and reports nothing. -/
def race {n : Nat} (i j : Fin n) : List (Action n) :=
  [.job i .isStopped, .job i .readDepth, .job i .ret, .job j .ret, .job i .test, .job j .test,
    .job i .finishDepth, .job j .finishDepth, .job i .addLine, .job j .ret, .job j .test,
    .job j .finishDepth, .job i .isStopped, .job i .readDepth, .job j .addLine, .job i .ret,
    .job i .test, .job i .finishDepth]

theorem lines_genuine_race : ∃ s : State 2, (system 2 2).run (initial 2) (race 0 1) = some s ∧
    s.lines = [⟨1, false⟩, ⟨2, false⟩] ∧
      (s.lines.map Line.depth).Nodup ∧
        ∀ line ∈ s.lines, line.aborted = false ∧ line.depth ∈ s.finished ∧
          ∀ d, 1 ≤ d → line.depth = d + 1 → d ∈ s.finished := by
  refine ⟨_, rfl, ?_, ?_⟩
  · decide
  · exact lines_genuine 2 _ (System.reachable_of_run (race 0 1) .init rfl)

end SoFCheck.Search.Deepening
