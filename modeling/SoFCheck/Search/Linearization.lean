import SoFCheck.Search.JobRunner
import SoFCheck.Search.Reconfiguration

namespace SoFCheck.Search.Linearization

open SoFCheck.Util.Transition SoFCheck.Core.Types SoFCheck.Core.InitialPosition SoFCheck.Search.Types
open SoFCheck.Search.TableData
open SoFCheck.Search.TranspositionTable hiding State Action system step
open SoFCheck.Search.TableKeys (create_size)
open SoFCheck.Search.Reconfiguration
open SoFCheck.Search.JobRunner (Runner applyHash tryApplyConfigUnlocked growSize tableBytes)

section Sizes

variable {e n : Nat} {size : BitVec 64}

theorem growSize_two_pow {maxSize turns : Nat} (hlo : 2 ^ e ≤ maxSize) (hhi : maxSize < 2 ^ (e + 1))
    (k : Nat) (hk : k ≤ e + 1) (hturns : e + 1 - k ≤ turns) :
    growSize maxSize turns (2 ^ k) = 2 ^ (e + 1) := by
  induction turns generalizing k with
  | zero =>
    have he : k = e + 1 := by omega
    rw [growSize, he]
  | succ turns ih =>
    rw [growSize]
    by_cases he : k = e + 1
    · rw [he, if_neg (by omega)]
    · have hle : 2 ^ k ≤ 2 ^ e := Nat.pow_le_pow_right (by decide) (by omega)
      rw [if_pos (hle.trans hlo), ← pow_succ']
      exact ih (k + 1) (by omega) (by omega)

theorem tableBytes_eq (h : newEntries size = some n) : tableBytes size.toNat = n * 16 := by
  obtain ⟨e, -, he, rfl, hlo, hhi⟩ := newEntries_eq h
  rw [atLeastMega] at hlo hhi
  have hlo' : 2 ^ (e + 4) ≤ max size.toNat (2 ^ 20) := by
    rw [pow_add]
    omega
  have hhi' : max size.toNat (2 ^ 20) < 2 ^ (e + 4 + 1) := by
    have hsplit : 2 ^ (e + 4 + 1) = 2 * (2 ^ e * 16) := by
      rw [pow_succ, pow_add, mul_comm]
      rfl
    omega
  have hgrow := growSize_two_pow hlo' hhi' 0 (by omega) (show e + 4 + 1 - 0 ≤ 64 by omega)
  rw [pow_zero] at hgrow
  rw [tableBytes, hgrow, pow_succ, Nat.mul_div_cancel _ (by decide), pow_add]
  rfl

end Sizes

section View

def applyNewGame (r : Runner Position) : Runner Position :=
  if r.needNewGame then { r with needNewGame := false, lastPosition := none } else r

/-- What is left of `tryApplyConfigUnlocked` at a stage, in one go. -/
def finish (stage : Stage) (r : Runner Position) : Runner Position :=
  match stage with
  | .test => tryApplyConfigUnlocked r
  | .evaluators => applyNewGame (applyHash { r with evaluators := r.numJobs })
  | .hash => applyNewGame (applyHash r)
  | .newGame => applyNewGame r
  | .done => r

def mainView : MainPhase → JobRunner.MainPhase
  | .absent => .absent
  | .spawned => .spawned
  | .disabling => .configured
  | .configured => .configured
  | .searching => .searching
  | .finishing => .finishing
  | .enabling _ => .finished
  | .finished => .finished

def uciView : UciPhase → JobRunner.UciPhase
  | .joining _ => .joining
  | _ => .idle

/-- The fields of the runner, whatever is going on under the lock. -/
def fields (s : State) : Runner Position where
  evaluators := s.config.evaluators
  ttBytes := (sizeBytes s.config.tt).toNat
  canApplyConfig := s.config.canApplyConfig
  lastPosition := s.config.lastPosition
  hashSize := s.config.hashSize.toNat
  numJobs := s.config.numJobs
  needClearHash := s.config.needClearHash
  needNewGame := s.config.needNewGame
  stopped := s.stopped
  main := mainView s.main
  jobCount := s.jobCount
  uci := uciView s.uci

/-- Where the owner of the lock is. -/
def pending (uci : UciPhase) (main : MainPhase) : Stage :=
  match uci with
  | .applying stage => stage
  | _ =>
    match main with
    | .enabling stage => stage
    | _ => .done

/-- The runner as it is when the owner of the lock is through. `start` takes effect when it has
joined the thread of the search before. -/
def view (s : State) : Runner Position :=
  let r := finish (pending s.uci s.main) (fields s)
  match s.uci with
  | .placing position =>
    { r with main := .spawned, jobCount := s.config.numJobs, lastPosition := some position }
  | .spawning => { r with main := .spawned, jobCount := s.config.numJobs }
  | _ => r

/-- The part of a runner that applying the configuration leaves alone. -/
def withThreads (r t : Runner Position) : Runner Position :=
  { r with stopped := t.stopped, main := t.main, jobCount := t.jobCount, uci := t.uci }

theorem finish_withThreads (stage : Stage) (r t : Runner Position) :
    finish stage (withThreads r t) = withThreads (finish stage r) t := by
  have hnew : ∀ r, applyNewGame (withThreads r t) = withThreads (applyNewGame r) t := by
    intro r
    change (if r.needNewGame then _ else withThreads r t) = _
    rw [applyNewGame]
    split <;> rfl
  have hhash : ∀ r, applyHash (withThreads r t) = withThreads (applyHash r) t := by
    intro r
    change (if r.needClearHash ∨ r.ttBytes ≠ r.hashSize then _ else withThreads r t) = _
    rw [applyHash]
    split <;> rfl
  have hrest : ∀ r, applyNewGame (applyHash (withThreads r t)) =
      withThreads (applyNewGame (applyHash r)) t := by
    intro r
    rw [hhash, hnew]
  cases stage with
  | test =>
    change (if r.canApplyConfig then _ else withThreads r t) = _
    rw [finish, tryApplyConfigUnlocked]
    split
    · exact hrest { r with evaluators := r.numJobs }
    · rfl
  | evaluators => exact hrest { r with evaluators := r.numJobs }
  | hash => exact hrest r
  | newGame => exact hnew r
  | done => rfl

theorem finish_threads (stage : Stage) (r : Runner Position) :
    (finish stage r).stopped = r.stopped ∧ (finish stage r).main = r.main ∧
      (finish stage r).jobCount = r.jobCount ∧ (finish stage r).uci = r.uci := by
  have h := finish_withThreads stage r r
  have hself : withThreads r r = r := rfl
  rw [hself] at h
  rw [h]
  exact ⟨rfl, rfl, rfl, rfl⟩

/-- One part of `tryApplyConfigUnlocked` makes no difference to what comes out of all of it. -/
theorem finish_configure {s : State} {sched : Schedule} {stage stage' : Stage}
    {config : Config} (h : s.config.apply sched stage = some (config, stage')) :
    finish stage' (fields (s.configure config)) = finish stage (fields s) := by
  cases stage with
  | test =>
    simp only [Config.apply, Option.some.injEq, Prod.mk.injEq] at h
    obtain ⟨rfl, rfl⟩ := h
    change finish _ (fields s) = tryApplyConfigUnlocked (fields s)
    rw [tryApplyConfigUnlocked]
    by_cases hcan : (fields s).canApplyConfig = true
    · have hcan' : s.config.canApplyConfig = true := hcan
      rw [if_pos hcan, if_pos hcan']
      rfl
    · have hcan' : ¬s.config.canApplyConfig = true := hcan
      rw [if_neg hcan, if_neg hcan']
      rfl
  | evaluators =>
    cases h
    rfl
  | hash =>
    have hbytes : (fields s).needClearHash = true ∨ (fields s).ttBytes ≠ (fields s).hashSize ↔
        s.config.needClearHash = true ∨ sizeBytes s.config.tt ≠ s.config.hashSize :=
      or_congr_right BitVec.toNat_inj.not
    simp only [Config.apply] at h
    change _ = applyNewGame (applyHash (fields s))
    rw [applyHash]
    split at h
    · rename_i hcond
      obtain ⟨-, h⟩ := Option.ite_none_left_eq_some.mp h
      obtain ⟨tt, hr, heq⟩ := Option.map_eq_some_iff.mp h
      cases heq
      have htable : tableBytes (fields s).hashSize = (sizeBytes tt).toNat := by
        have hsize := resize_size hr
        obtain ⟨e, -, he, hpow, -⟩ := newEntries_eq hsize
        have hlt : 2 ^ (e + 4) < 2 ^ 63 := Nat.pow_lt_pow_right (by omega) (by omega)
        rw [pow_add] at hlt
        rw [fields, tableBytes_eq hsize, sizeBytes, BitVec.toNat_ofNat, Nat.mod_eq_of_lt (by omega)]
      rw [finish, if_pos (hbytes.mpr hcond), htable]
      rfl
    · rename_i hcond
      cases h
      rw [if_neg (fun hc => hcond (hbytes.mp hc))]
      rfl
  | newGame =>
    simp only [Config.apply, Option.some.injEq, Prod.mk.injEq] at h
    obtain ⟨rfl, rfl⟩ := h
    rw [finish, finish, applyNewGame]
    by_cases hnew : (fields s).needNewGame = true
    · have hnew' : s.config.needNewGame = true := hnew
      have hsize : sizeBytes (if s.config.lastPosition.isSome = true then resetEpoch s.config.tt
          else s.config.tt) = sizeBytes s.config.tt := by
        split <;> rfl
      rw [if_pos hnew, if_pos hnew']
      simp only [fields, State.configure, hsize]
    · have hnew' : ¬s.config.needNewGame = true := hnew
      rw [if_neg hnew, if_neg hnew']
      rfl
  | done => cases h

end View

section Simulation

variable {junk : Nat → Entry} {s s' : State} {a : Action}

theorem pending_of_ne {uci : UciPhase} (h : ∀ stage, uci ≠ .applying stage) (main : MainPhase) :
    pending uci main = pending .idle main := by
  cases uci with
  | applying stage => exact absurd rfl (h stage)
  | _ => rfl

theorem pending_idle {main : MainPhase} (h : ∀ stage, main ≠ .enabling stage) :
    pending .idle main = .done := by
  cases main with
  | enabling stage => exact absurd rfl (h stage)
  | _ => rfl

theorem view_eq (s : State) (h : ¬s.uci.Placing) : view s = finish (pending s.uci s.main) (fields s) := by
  rw [view]
  cases huci : s.uci with
  | placing position => exact absurd (by rw [huci]; trivial) h
  | spawning => exact absurd (by rw [huci]; trivial) h
  | _ => rfl

theorem withThreads_eq {r t : Runner Position} {stopped : Bool} {main : JobRunner.MainPhase}
    {jobCount : Nat} {uci : JobRunner.UciPhase} (hstopped : t.stopped = stopped)
    (hmain : t.main = main) (hcount : t.jobCount = jobCount) (huci : t.uci = uci) :
    withThreads r t =
      { r with stopped := stopped, main := main, jobCount := jobCount, uci := uci } := by
  subst hstopped hmain hcount huci
  rfl

theorem view_threads (hconfig : s'.config = s.config)
    (hpending : pending s'.uci s'.main = pending s.uci s.main) (h : ¬s.uci.Placing)
    (h' : ¬s'.uci.Placing) : view s' = withThreads (view s) (fields s') := by
  have hfields : fields s' = withThreads (fields s) (fields s') := by
    simp only [withThreads, fields, hconfig]
  rw [view_eq _ h, view_eq _ h', hpending, ← finish_withThreads, ← hfields]

theorem threads_view (h : ¬s.uci.Placing) : (view s).stopped = s.stopped ∧
    (view s).main = mainView s.main ∧ (view s).jobCount = s.jobCount ∧
    (view s).uci = uciView s.uci := by
  rw [view_eq _ h]
  exact finish_threads (pending s.uci s.main) (fields s)

theorem mainView_eq_absent {main : MainPhase} : mainView main = .absent ↔ main = .absent := by
  cases main <;> simp [mainView]

theorem not_placing (hinv : Inv s) (h : s.main ≠ .absent) : ¬s.uci.Placing :=
  fun hplacing => h (hinv.placing hplacing)

theorem not_placing_of_busy (hinv : Inv s) (hbusy : Busy s.main) : ¬s.uci.Placing := by
  apply not_placing hinv
  intro h
  rw [h] at hbusy
  exact hbusy

theorem view_busy (hinv : Inv s) (hbusy : Busy s.main) : view s = fields s := by
  have hcan : s.config.canApplyConfig = false := hinv.enabled.mpr hbusy
  have htest : finish .test (fields s) = fields s := if_neg (by simp [fields, hcan])
  have hmain : ∀ stage, s.main ≠ .enabling stage := fun stage h => by
    rw [h] at hbusy
    exact hbusy
  rw [view_eq _ (not_placing_of_busy hinv hbusy)]
  by_cases h : ∃ stage, s.uci = .applying stage
  · obtain ⟨stage, huci⟩ := h
    rw [huci, pending]
    cases (hinv.uciApplies stage huci).skipped hcan with
    | inl hstage =>
      rw [hstage]
      exact htest
    | inr hstage =>
      rw [hstage]
      rfl
  · rw [pending_of_ne (not_exists.mp h), pending_idle hmain]
    rfl

theorem view_free (hinv : Inv s) (hfree : s.holder = none) (h : ¬s.uci.Placing) :
    view s = fields s := by
  rw [view_eq _ h, pending_of_ne (hinv.not_applying (by simp [hfree])),
    pending_idle (hinv.not_enabling (by simp [hfree]))]
  rfl

/-- The number of jobs is still the one that the search was started with when it switches
reconfiguration off. -/
def KeepsJobs (s : State) : Action → Prop
  | .lockDisable => s.config.numJobs = s.jobCount
  | _ => True

/-- A step is a step of the atomic model, or does not show in it. A request takes effect when the lock is
taken. -/
theorem simulated (hinv : Inv s) (hinv' : Inv s') (hs : Steps s a s') : view s' = view s ∨
    ∃ b, (KeepsJobs s a → JobRunner.KeepsJobs (view s) b) ∧
      JobRunner.step (view s) b = some (view s') := by
  cases hs with
  | @call request huci =>
    left
    have hfields : fields { s with uci := .requesting request } = fields s := by
      simp only [fields, huci, uciView]
    refine (view_eq _ id).trans ?_
    rw [view_eq _ (by rw [huci]; exact id), hfields, huci]
    rfl
  | @lock request huci hfree =>
    right
    have hidle : (fields s).uci = .idle := by simp only [fields, huci, uciView]
    rw [view_free hinv hfree (by rw [huci]; exact id)]
    cases request with
    | setNumJobs jobs =>
      refine ⟨.setNumJobs jobs, fun _ => trivial, (if_pos hidle).trans ?_⟩
      simp only [fields, huci]
      rfl
    | setHashSize size =>
      refine ⟨.setHashSize size.toNat, fun _ => trivial, (if_pos hidle).trans ?_⟩
      simp only [fields, huci]
      rfl
    | clearHash =>
      refine ⟨.clearHash, fun _ => trivial, (if_pos hidle).trans ?_⟩
      simp only [fields, huci]
      rfl
    | newGame =>
      refine ⟨.newGame, fun _ => trivial, (if_pos hidle).trans ?_⟩
      simp only [fields, huci]
      rfl
  | @apply sched stage stage' config huci happly =>
    left
    have hfields : fields { s.configure config with uci := .applying stage' } =
        fields (s.configure config) := by
      simp only [fields, State.configure, huci, uciView]
    refine (view_eq _ id).trans ?_
    rw [view_eq _ (by rw [huci]; exact id), hfields, huci]
    exact finish_configure happly
  | unlock huci =>
    left
    have hmain := hinv.not_enabling (by simp [hinv.uciHolds.mpr ⟨_, huci⟩])
    have hfields : fields { s with holder := none, uci := .idle } = fields s := by
      simp only [fields, huci, uciView]
    refine (view_eq _ id).trans ?_
    rw [view_eq _ (by rw [huci]; exact id), hfields, huci, pending_idle hmain]
    rfl
  | stop huci =>
    right
    have hplacing : ¬s.uci.Placing := by
      rw [huci]
      exact id
    obtain ⟨-, hmain, hcount, hu⟩ := threads_view hplacing
    refine ⟨.stop, fun _ => trivial, (if_pos (by rw [hu, huci]; rfl)).trans ?_⟩
    rw [@view_threads s { s with stopped := true } rfl rfl hplacing hplacing,
      withThreads_eq rfl hmain.symm hcount.symm hu.symm]
    rfl
  | @start position huci =>
    right
    have hplacing : ¬s.uci.Placing := by
      rw [huci]
      exact id
    obtain ⟨hstopped, hmain, hcount, hu⟩ := threads_view hplacing
    have habsent : (s.stopped || decide (s.main ≠ .absent)) =
        ((view s).stopped || decide ((view s).main ≠ .absent)) := by
      simp only [hstopped, hmain, ne_eq, mainView_eq_absent]
    refine ⟨.start, fun _ => trivial, (if_pos (by rw [hu, huci]; rfl)).trans ?_⟩
    have hsame := @view_threads s { s with
      uci := .joining position, stopped := s.stopped || decide (s.main ≠ .absent) } rfl
        (by rw [huci]; rfl) hplacing id
    rw [withThreads_eq habsent hmain.symm hcount.symm rfl] at hsame
    rw [hsame]
    rfl
  | @join position huci hmain =>
    right
    have hview : view s = fields s := by
      rw [view_eq _ (by rw [huci]; exact id), huci]
      cases hmain with
      | inl hmain =>
        rw [hmain]
        rfl
      | inr hmain =>
        rw [hmain]
        rfl
    have hready : (fields s).uci = .joining ∧
        ((fields s).main = .absent ∨ (fields s).main = .finished) := by
      refine ⟨by rw [fields, huci]; rfl, ?_⟩
      cases hmain with
      | inl hmain => exact Or.inl (by rw [fields, hmain]; rfl)
      | inr hmain => exact Or.inr (by rw [fields, hmain]; rfl)
    rw [hview]
    exact ⟨.spawn position, fun _ => trivial, if_pos hready⟩
  | @setPosition position huci =>
    left
    have hmain := hinv.placing (by rw [huci]; trivial)
    have hsame := setPosition_alike s.config position
    have hlast : (s.config.setPosition position).lastPosition = some position := by
      rw [Config.setPosition]
      split <;> rfl
    simp only [view, huci, hmain, pending, finish, fields, hsame.evaluators, hsame.sizeBytes_eq,
      hsame.canApplyConfig, hsame.hashSize, hsame.numJobs, hsame.needClearHash, hsame.needNewGame,
      hlast, uciView]
  | spawn huci =>
    left
    have hmain := hinv.placing (by rw [huci]; trivial)
    simp only [view, huci, hmain, pending, finish, fields, uciView, mainView]
  | lockDisable hmain hfree =>
    right
    have hplacing := not_placing hinv (by simp [hmain])
    rw [view_free hinv hfree hplacing, view_busy hinv' trivial]
    exact ⟨.disableReconfiguration, id, if_pos (by rw [fields, hmain]; rfl)⟩
  | unlockDisable hmain =>
    left
    rw [view_busy hinv (by rw [hmain]; trivial), view_busy hinv' trivial]
    simp only [fields, hmain, mainView]
  | createJobsAndThreads hmain he =>
    right
    rw [view_busy hinv (by rw [hmain]; trivial), view_busy hinv' trivial]
    exact ⟨.createJobsAndThreads, fun _ => trivial,
      if_pos ⟨by rw [fields, hmain]; rfl, he⟩⟩
  | access hmain =>
    left
    rw [view_busy hinv (by rw [hmain]; trivial), view_busy hinv' (by
      rw [State.writeEntry, hmain]
      trivial)]
    rfl
  | stopSearch hmain =>
    right
    rw [view_busy hinv (by rw [hmain]; trivial), view_busy hinv' (by rw [hmain]; trivial)]
    exact ⟨.stopSearch, fun _ => trivial, if_pos (by rw [fields, hmain]; rfl)⟩
  | finishSearch hmain hstopped =>
    right
    rw [view_busy hinv (by rw [hmain]; trivial), view_busy hinv' trivial]
    exact ⟨.finishSearch, fun _ => trivial,
      if_pos ⟨by rw [fields, hmain]; rfl, by rw [fields, hstopped]⟩⟩
  | lockEnable hmain hfree =>
    right
    have hplacing := not_placing hinv (by simp [hmain])
    have huci := hinv.not_applying (by simp [hfree])
    rw [view_free hinv hfree hplacing]
    refine ⟨.enableReconfiguration, fun _ => trivial,
      (if_pos (by rw [fields, hmain]; rfl)).trans (congrArg some (Eq.symm ?_))⟩
    refine (view_eq _ ?_).trans ?_
    · exact hplacing
    dsimp only
    rw [pending_of_ne huci]
    rfl
  | @applyEnable sched stage stage' config hmain happly =>
    left
    have hheld := hinv.mainHolds.mpr (Or.inr ⟨_, hmain⟩)
    have huci := hinv.not_applying (by simp [hheld])
    have hplacing := not_placing hinv (by simp [hmain])
    have hfields : fields { s.configure config with main := .enabling stage' } =
        fields (s.configure config) := by
      simp only [fields, State.configure, hmain, mainView]
    refine (view_eq _ ?_).trans ?_
    · exact hplacing
    rw [view_eq _ hplacing, hfields, hmain, pending_of_ne huci]
    refine Eq.trans ?_ (finish_configure happly)
    exact congrArg (fun stage => finish stage _) (pending_of_ne huci _)
  | unlockEnable hmain =>
    left
    have hheld := hinv.mainHolds.mpr (Or.inr ⟨_, hmain⟩)
    have huci := hinv.not_applying (by simp [hheld])
    have hplacing := not_placing hinv (by simp [hmain])
    refine (view_eq _ ?_).trans ?_
    · exact hplacing
    rw [view_eq _ hplacing, hmain, pending_of_ne huci]
    dsimp only
    rw [pending_of_ne huci]
    simp only [fields, hmain, mainView]
    rfl

theorem view_init (junk : Nat → Entry) : view (system junk).init = JobRunner.initial := by
  have hbytes : (sizeBytes (create junk)).toNat = JobRunner.defaultSize := by
    rw [sizeBytes, create_size]
    decide
  have hhash : (BitVec.ofNat 64 defaultSize).toNat = JobRunner.defaultSize := by decide
  have hview : view (system junk).init = fields (system junk).init := rfl
  rw [hview]
  simp only [fields, system, JobRunner.initial, hbytes, hhash, mainView, uciView,
    JobRunner.defaultNumJobs]

theorem reach_view {C : State → Action → Prop} {D : Runner Position → JobRunner.Action Position → Prop}
    (hCD : ∀ s a b, C s a → (KeepsJobs s a → JobRunner.KeepsJobs (view s) b) → D (view s) b)
    (h : (system junk).Reach C s) : JobRunner.system.Reach D (view s) := by
  apply h.simulate (view_init junk)
  intro s a s' hr hc hs
  have hinv := inv_of_reachable (hr.mono fun _ _ _ => trivial)
  obtain he | ⟨b, hb, ht⟩ := simulated hinv (inv_step hinv hs) (steps_of_step hs)
  · exact Or.inl he
  · exact Or.inr ⟨b, hCD s a b hc hb, ht⟩

/-- The runner with its lock does what the atomic one does, and so the assertion of
`createJobsAndThreads` holds in it under the same condition. -/
theorem runner_linearizes (junk : Nat → Entry) :
    (∀ s, (system junk).Reachable s → JobRunner.system.Reachable (view s) ∧
      (s.holder = none → ¬s.uci.Placing → view s = fields s)) ∧
    ∀ s, (system junk).Reach KeepsJobs s → s.main = .configured →
      ∃ s', step s .createJobsAndThreads = some s' := by
  constructor
  · intro s h
    exact ⟨reach_view (fun _ _ _ _ _ => trivial) h, view_free (inv_of_reachable h)⟩
  · intro s h hmain
    have hinv := inv_of_reachable (h.mono fun _ _ _ => trivial)
    have hreach := reach_view (fun _ _ _ hc hb => hb hc) h
    rw [view_busy hinv (by rw [hmain]; trivial)] at hreach
    have hconfigured : JobRunner.Configured (fields s).main :=
      Or.inl (by rw [fields, hmain]; rfl)
    have hcount : s.config.evaluators = s.jobCount :=
      (JobRunner.consistent_of_reach hreach).busy trivial hconfigured
    rw [step, hmain]
    exact ⟨_, if_pos hcount⟩

instance decidableKeepsJobs (s : State) : (a : Action) → Decidable (KeepsJobs s a)
  | .lockDisable => inferInstanceAs (Decidable (s.config.numJobs = s.jobCount))
  | .call _ | .lock | .apply _ | .unlock | .stop | .start _ | .join | .setPosition | .spawn
  | .unlockDisable | .createJobsAndThreads | .access _ _ | .stopSearch | .finishSearch
  | .lockEnable | .applyEnable _ | .unlockEnable => .isTrue trivial

/-- A search with two jobs, up to their creation. -/
def twoJobs : List Action :=
  let position : Position := ⟨initialFields, [], initialFields⟩
  let sched : Schedule := ⟨fun _ => Entry.cleared, [], []⟩
  [.call (.setNumJobs 2), .lock, .apply sched, .apply sched, .apply sched, .apply sched, .unlock,
    .start position, .join, .setPosition, .spawn, .lockDisable, .unlockDisable]

theorem runner_linearizes_twoJobs : ∃ s s' : State,
    (system fun _ => Entry.cleared).run (system fun _ => Entry.cleared).init twoJobs = some s ∧
      s.config.evaluators = 2 ∧ JobRunner.system.Reachable (view s) ∧ view s = fields s ∧
      step s .createJobsAndThreads = some s' := by
  obtain ⟨hview, hassertion⟩ := runner_linearizes fun _ => Entry.cleared
  obtain ⟨s, hrun⟩ : ∃ s, (system fun _ => Entry.cleared).run
      (system fun _ => Entry.cleared).init twoJobs = some s := ⟨_, rfl⟩
  have hreach := System.Reach.run (C := KeepsJobs) twoJobs .init (by decide +kernel) hrun
  obtain ⟨hreachable, hfree⟩ := hview s (hreach.mono fun _ _ _ => trivial)
  cases hrun
  obtain ⟨s', hs'⟩ := hassertion _ hreach rfl
  exact ⟨_, s', rfl, rfl, hreachable, hfree rfl id, hs'⟩

end Simulation

end SoFCheck.Search.Linearization
