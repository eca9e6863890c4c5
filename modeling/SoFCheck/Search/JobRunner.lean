import SoFCheck.Util.Transition

namespace SoFCheck.Search.JobRunner

open SoFCheck.Util.Transition

/-- The loop of `TranspositionTable::resize`, with enough turns for 64 bits. -/
def growSize (maxSize : Nat) : Nat → Nat → Nat
  | 0, newSize => newSize
  | turns + 1, newSize => if newSize ≤ maxSize then growSize maxSize turns (2 * newSize) else newSize

/-- The size in bytes that `TranspositionTable::resize` settles for. -/
def tableBytes (maxSize : Nat) : Nat := growSize (max maxSize (2 ^ 20)) 64 1 / 2

/-- Where the main search thread stands in `MainThread::run`. -/
inductive MainPhase where
  | absent
  | spawned
  | configured
  | searching
  | finishing
  | finished
  deriving DecidableEq

inductive UciPhase where
  | idle
  | joining
  deriving DecidableEq

/-- The fields of `JobRunner` that configure a search, and the two threads that
use them. A position is known by a value of `π`. -/
structure Runner (π : Type) where
  evaluators : Nat
  ttBytes : Nat
  canApplyConfig : Bool
  lastPosition : Option π
  hashSize : Nat
  numJobs : Nat
  needClearHash : Bool
  needNewGame : Bool
  stopped : Bool
  main : MainPhase
  /-- The number of jobs that `start` has passed to the main thread. -/
  jobCount : Nat
  uci : UciPhase
  deriving DecidableEq

def defaultNumJobs : Nat := 1

def defaultSize : Nat := 2 ^ 25

inductive Action (π : Type) where
  | start
  | spawn (position : π)
  | stop
  | setNumJobs (jobs : Nat)
  | setHashSize (size : Nat)
  | clearHash
  | newGame
  | disableReconfiguration
  | createJobsAndThreads
  | stopSearch
  | finishSearch
  | enableReconfiguration

section Model

variable {π : Type}

def initial : Runner π where
  evaluators := defaultNumJobs
  ttBytes := defaultSize
  canApplyConfig := true
  lastPosition := none
  hashSize := defaultSize
  numJobs := defaultNumJobs
  needClearHash := false
  needNewGame := false
  stopped := false
  main := .absent
  jobCount := 0
  uci := .idle

def applyHash (r : Runner π) : Runner π :=
  if r.needClearHash ∨ r.ttBytes ≠ r.hashSize then
    { r with
      lastPosition := if r.needClearHash then none else r.lastPosition
      ttBytes := tableBytes r.hashSize
      needClearHash := false
      hashSize := tableBytes r.hashSize }
  else r

def tryApplyConfigUnlocked (r : Runner π) : Runner π :=
  if r.canApplyConfig then
    let r := applyHash { r with evaluators := r.numJobs }
    if r.needNewGame then { r with needNewGame := false, lastPosition := none } else r
  else r

/-- One atomic step. The calls of the UCI thread come one after another, so they
are only possible while it is idle; `start` waits in `join` for the end of the
main thread before it spawns the next one. -/
def step (r : Runner π) : Action π → Option (Runner π)
  | .start =>
    if r.uci = .idle then
      some { r with uci := .joining, stopped := r.stopped || decide (r.main ≠ .absent) }
    else none
  | .spawn position =>
    if r.uci = .joining ∧ (r.main = .absent ∨ r.main = .finished) then
      some { r with
        uci := .idle, stopped := false, lastPosition := some position
        main := .spawned, jobCount := r.numJobs }
    else none
  | .stop => if r.uci = .idle then some { r with stopped := true } else none
  | .setNumJobs jobs =>
    if r.uci = .idle then some (tryApplyConfigUnlocked { r with numJobs := jobs }) else none
  | .setHashSize size =>
    if r.uci = .idle then some (tryApplyConfigUnlocked { r with hashSize := size }) else none
  | .clearHash =>
    if r.uci = .idle then some (tryApplyConfigUnlocked { r with needClearHash := true }) else none
  | .newGame =>
    if r.uci = .idle then some (tryApplyConfigUnlocked { r with needNewGame := true }) else none
  | .disableReconfiguration =>
    if r.main = .spawned then some { r with canApplyConfig := false, main := .configured } else none
  | .createJobsAndThreads =>
    -- The failing assertion of the source stops the program.
    if r.main = .configured ∧ r.evaluators = r.jobCount then some { r with main := .searching }
    else none
  | .stopSearch => if r.main = .searching then some { r with stopped := true } else none
  | .finishSearch =>
    if r.main = .searching ∧ r.stopped then some { r with main := .finishing } else none
  | .enableReconfiguration =>
    if r.main = .finishing then
      some (tryApplyConfigUnlocked { r with canApplyConfig := true, main := .finished })
    else none

def system : System (Runner π) (Action π) := ⟨initial, step⟩

end Model

section Config

variable {π : Type} {r r' : Runner π} {a : Action π}

@[simp] theorem tryApplyConfigUnlocked_evaluators (r : Runner π) :
    (tryApplyConfigUnlocked r).evaluators = if r.canApplyConfig then r.numJobs else r.evaluators := by
  simp only [tryApplyConfigUnlocked, applyHash]
  split_ifs <;> rfl

theorem tryApplyConfigUnlocked_frame (r : Runner π) :
    (tryApplyConfigUnlocked r).numJobs = r.numJobs ∧
      (tryApplyConfigUnlocked r).canApplyConfig = r.canApplyConfig ∧
      (tryApplyConfigUnlocked r).main = r.main ∧
      (tryApplyConfigUnlocked r).jobCount = r.jobCount ∧
      (tryApplyConfigUnlocked r).uci = r.uci := by
  simp only [tryApplyConfigUnlocked, applyHash]
  split_ifs <;> exact ⟨rfl, rfl, rfl, rfl, rfl⟩

/-- The main thread has switched reconfiguration off. -/
def Configured (m : MainPhase) : Prop := m = .configured ∨ m = .searching ∨ m = .finishing

variable {K : Prop}

/-- The evaluators follow the option while it may be applied and, as long as the
run keeps `K`, the running search otherwise. -/
structure Consistent (K : Prop) (r : Runner π) : Prop where
  enabled : r.canApplyConfig = true ↔ ¬Configured r.main
  idle : r.canApplyConfig = true → r.evaluators = r.numJobs
  busy : K → Configured r.main → r.evaluators = r.jobCount

theorem consistent_initial : Consistent K (initial : Runner π) where
  enabled := by simp [initial, Configured]
  idle := fun _ => rfl
  busy := fun _ h => by simp [initial, Configured] at h

theorem Consistent.option (h : Consistent K r) (hmain : r'.main = r.main)
    (hcan : r'.canApplyConfig = r.canApplyConfig) (hev : r'.evaluators = r.evaluators)
    (hcount : r'.jobCount = r.jobCount) : Consistent K (tryApplyConfigUnlocked r') := by
  obtain ⟨hnum, hcan', hmain', hcount', -⟩ := tryApplyConfigUnlocked_frame r'
  constructor
  · rw [hcan', hmain', hcan, hmain]
    exact h.enabled
  · rw [hcan', tryApplyConfigUnlocked_evaluators, hnum]
    intro hc
    rw [if_pos hc]
  · rw [hmain', hcount', hmain, hcount, tryApplyConfigUnlocked_evaluators, hcan, hev]
    intro hk hc
    rw [if_neg (fun he => h.enabled.mp he hc)]
    exact h.busy hk hc

/-- No other number of jobs is asked for between the start of a search and the
moment it switches reconfiguration off. -/
def KeepsJobs (r : Runner π) (a : Action π) : Prop :=
  match a with
  | .disableReconfiguration => r.numJobs = r.jobCount
  | _ => True

theorem consistent_step (h : Consistent K r) (hc : K → KeepsJobs r a)
    (hs : step r a = some r') : Consistent K r' := by
  cases a with
  | start =>
    simp only [step, Option.ite_none_right_eq_some, Option.some.injEq] at hs
    obtain ⟨-, rfl⟩ := hs
    exact ⟨h.enabled, h.idle, h.busy⟩
  | spawn position =>
    simp only [step, Option.ite_none_right_eq_some, Option.some.injEq] at hs
    obtain ⟨⟨-, hm⟩, rfl⟩ := hs
    have hcan : r.canApplyConfig = true := by
      apply h.enabled.mpr
      cases hm with
      | inl hm => simp [hm, Configured]
      | inr hm => simp [hm, Configured]
    refine ⟨?_, h.idle, ?_⟩
    · simp [hcan, Configured]
    · simp [Configured]
  | stop =>
    simp only [step, Option.ite_none_right_eq_some, Option.some.injEq] at hs
    obtain ⟨-, rfl⟩ := hs
    exact ⟨h.enabled, h.idle, h.busy⟩
  | setNumJobs jobs =>
    simp only [step, Option.ite_none_right_eq_some, Option.some.injEq] at hs
    obtain ⟨-, rfl⟩ := hs
    exact h.option rfl rfl rfl rfl
  | setHashSize size =>
    simp only [step, Option.ite_none_right_eq_some, Option.some.injEq] at hs
    obtain ⟨-, rfl⟩ := hs
    exact h.option rfl rfl rfl rfl
  | clearHash =>
    simp only [step, Option.ite_none_right_eq_some, Option.some.injEq] at hs
    obtain ⟨-, rfl⟩ := hs
    exact h.option rfl rfl rfl rfl
  | newGame =>
    simp only [step, Option.ite_none_right_eq_some, Option.some.injEq] at hs
    obtain ⟨-, rfl⟩ := hs
    exact h.option rfl rfl rfl rfl
  | disableReconfiguration =>
    simp only [step, Option.ite_none_right_eq_some, Option.some.injEq] at hs
    obtain ⟨hm, rfl⟩ := hs
    have hcan : r.canApplyConfig = true := h.enabled.mpr (by simp [hm, Configured])
    refine ⟨by simp [Configured], by simp, fun hk _ => ?_⟩
    exact (h.idle hcan).trans (hc hk)
  | createJobsAndThreads =>
    simp only [step, Option.ite_none_right_eq_some, Option.some.injEq] at hs
    obtain ⟨⟨hm, he⟩, rfl⟩ := hs
    refine ⟨?_, h.idle, fun _ _ => he⟩
    have hcan := h.enabled
    simp only [hm, Configured] at hcan
    simpa [Configured] using hcan
  | stopSearch =>
    simp only [step, Option.ite_none_right_eq_some, Option.some.injEq] at hs
    obtain ⟨-, rfl⟩ := hs
    exact ⟨h.enabled, h.idle, h.busy⟩
  | finishSearch =>
    simp only [step, Option.ite_none_right_eq_some, Option.some.injEq] at hs
    obtain ⟨⟨hm, -⟩, rfl⟩ := hs
    refine ⟨?_, h.idle, fun hk _ => h.busy hk (by simp [hm, Configured])⟩
    have hcan := h.enabled
    simp only [hm, Configured] at hcan
    simpa [Configured] using hcan
  | enableReconfiguration =>
    simp only [step, Option.ite_none_right_eq_some, Option.some.injEq] at hs
    obtain ⟨-, rfl⟩ := hs
    obtain ⟨hnum, hcan', hmain', hcount', -⟩ :=
      tryApplyConfigUnlocked_frame { r with canApplyConfig := true, main := .finished }
    constructor
    · rw [hcan', hmain']
      simp [Configured]
    · rw [tryApplyConfigUnlocked_evaluators, hnum]
      intro _
      rfl
    · rw [hmain']
      simp [Configured]

theorem consistent_of_reachable (h : system.Reachable r) : Consistent False r := by
  apply h.invariant consistent_initial
  intro r a r' hr _ hs
  apply consistent_step hr (fun hk => hk.elim) hs

theorem consistent_of_reach (h : system.Reach KeepsJobs r) : Consistent True r := by
  apply h.invariant consistent_initial
  intro r a r' hr hc hs
  apply consistent_step hr (fun _ => hc) hs

end Config

section Assertion

variable {π : Type}

/-- When every search finds the number of jobs it was started with as it switches
reconfiguration off, the assertion of `createJobsAndThreads` holds; and a search
that finds another number runs into it. -/
theorem evaluators_size_iff :
    (∀ r : Runner π, system.Reach KeepsJobs r → r.main = .configured →
      r.evaluators = r.jobCount) ∧
    (∀ r r' : Runner π, system.Reachable r → step r .disableReconfiguration = some r' →
      (r'.evaluators = r'.jobCount ↔ r.numJobs = r.jobCount)) := by
  constructor
  · intro r h hm
    exact (consistent_of_reach h).busy trivial (Or.inl hm)
  · intro r r' h hs
    have hr := consistent_of_reachable h
    simp only [step, Option.ite_none_right_eq_some, Option.some.injEq] at hs
    obtain ⟨hm, rfl⟩ := hs
    have hcan : r.canApplyConfig = true := hr.enabled.mpr (by simp [hm, Configured])
    rw [← hr.idle hcan]

/-- A first search, up to the creation of its jobs. -/
def firstSearch : List (Action Unit) := [.start, .spawn (), .disableReconfiguration]

theorem evaluators_size_iff_first : ∃ r : Runner Unit, system.run initial firstSearch = some r ∧
    r.evaluators = r.jobCount := by
  refine ⟨_, rfl, ?_⟩
  apply evaluators_size_iff.1
  · apply System.Reach.run firstSearch System.Reach.init _ rfl
    refine ⟨trivial, fun r hr => ⟨trivial, fun r' hr' => ⟨?_, fun _ _ => trivial⟩⟩⟩
    cases hr
    cases hr'
    rfl
  · rfl

/-- The option changes after `start` has returned and before the main thread has
got to run. -/
def optionBeforeSearch : List (Action Unit) :=
  [.start, .spawn (), .setNumJobs 2, .disableReconfiguration]

theorem not_evaluators_size : ¬∀ r : Runner Unit, system.Reachable r → r.main = .configured →
    r.evaluators = r.jobCount := by
  intro h
  have hr := h _ (System.reachable_of_run optionBeforeSearch .init rfl) rfl
  exact absurd hr (by decide)

end Assertion

end SoFCheck.Search.JobRunner
