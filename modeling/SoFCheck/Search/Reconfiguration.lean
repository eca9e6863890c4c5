import SoFCheck.Search.TableKeys
import SoFCheck.Search.Types
import SoFCheck.Core.InitialPosition

namespace SoFCheck.Search.Reconfiguration

open SoFCheck.Util.Transition
open SoFCheck.Core.Types SoFCheck.Core.InitialPosition SoFCheck.Search.TableData SoFCheck.Search.TranspositionTable
open SoFCheck.Search.TableResize SoFCheck.Search.TableKeys SoFCheck.Search.Types

section Model

/-- The fields of `JobRunner` that configure a search. -/
structure Config where
  tt : Table
  evaluators : Nat
  canApplyConfig : Bool
  lastPosition : Option Position
  hashSize : BitVec 64
  numJobs : Nat
  needClearHash : Bool
  needNewGame : Bool

/-- `TranspositionTable::sizeBytes`. -/
def sizeBytes (t : Table) : BitVec 64 := BitVec.ofNat 64 (t.size * 16)

inductive Request where
  | setNumJobs (jobs : Nat)
  | setHashSize (size : BitVec 64)
  | clearHash
  | newGame

/-- What a request writes down under the lock. -/
def Config.record (c : Config) : Request → Config
  | .setNumJobs jobs => { c with numJobs := jobs }
  | .setHashSize size => { c with hashSize := size }
  | .clearHash => { c with needClearHash := true }
  | .newGame => { c with needNewGame := true }

/-- Where a thread stands in `tryApplyConfigUnlocked`. -/
inductive Stage where
  | test
  | evaluators
  | hash
  | newGame
  | done
  deriving DecidableEq

/-- One part of `tryApplyConfigUnlocked`. Without a job the table cannot be
rebuilt, and a size for which `resize` does not end is never applied. -/
def Config.apply (c : Config) (sched : Schedule) : Stage → Option (Config × Stage)
  | .test => some (c, if c.canApplyConfig then .evaluators else .done)
  | .evaluators => some ({ c with evaluators := c.numJobs }, .hash)
  | .hash =>
    if c.needClearHash = true ∨ sizeBytes c.tt ≠ c.hashSize then
      if c.numJobs = 0 then none
      else (resize c.tt c.hashSize c.needClearHash c.numJobs sched).map fun tt =>
        ({ c with
            lastPosition := if c.needClearHash then none else c.lastPosition
            tt := tt
            needClearHash := false
            hashSize := sizeBytes tt }, .newGame)
    else some (c, .newGame)
  | .newGame =>
    some (if c.needNewGame then
        { c with
          needNewGame := false
          lastPosition := none
          tt := if c.lastPosition.isSome then resetEpoch c.tt else c.tt }
      else c, .done)
  | .done => none

def absDiff (a b : Nat) : Nat := if a < b then b - a else a - b

/-- `JobRunner::setPosition` ages the entries of the table. -/
def Config.setPosition (c : Config) (position : Position) : Config :=
  match c.lastPosition with
  | none => { c with lastPosition := some position }
  | some last =>
    let tt := match commonPrefix last position with
      | none => resetEpoch c.tt
      | some common =>
        let diff := absDiff common last.moves.length + absDiff common position.moves.length
        if diff = 0 then c.tt
        else if diff ≤ 5 then growEpoch c.tt (BitVec.ofNat 8 diff)
        else resetEpoch c.tt
    { c with tt := tt, lastPosition := some position }

inductive Thread where
  | uci
  | main
  deriving DecidableEq

/-- Where the UCI thread stands in `JobRunner`. -/
inductive UciPhase where
  | idle
  | requesting (request : Request)
  | applying (stage : Stage)
  | joining (position : Position)
  | placing (position : Position)
  | spawning

/-- Where the main search thread stands in `MainThread::run`. -/
inductive MainPhase where
  | absent
  | spawned
  | disabling
  | configured
  | searching
  | finishing
  | enabling (stage : Stage)
  | finished
  deriving DecidableEq

structure State where
  config : Config
  /-- The owner of `applyConfigLock_`. -/
  holder : Option Thread
  stopped : Bool
  uci : UciPhase
  main : MainPhase
  /-- The number of jobs that `start` has passed to the main thread. -/
  jobCount : Nat
  /-- The size that was asked for last. -/
  requestedSize : BitVec 64
  /-- The number of jobs that was asked for last. -/
  requestedJobs : Nat
  /-- The table has not been empty since it was asked to be cleared. -/
  owesClear : Prop
  /-- The last position has not been forgotten since a new game was asked for. -/
  owesNewGame : Prop

inductive Action where
  | call (request : Request)
  | lock
  | apply (sched : Schedule)
  | unlock
  | stop
  | start (position : Position)
  | join
  | setPosition
  | spawn
  | lockDisable
  | unlockDisable
  | createJobsAndThreads
  | access (i : Nat) (write : Entry → Entry)
  | stopSearch
  | finishSearch
  | lockEnable
  | applyEnable (sched : Schedule)
  | unlockEnable

def requested (size : BitVec 64) : Request → BitVec 64
  | .setHashSize size => size
  | _ => size

def requestedCount (jobs : Nat) : Request → Nat
  | .setNumJobs jobs => jobs
  | _ => jobs

/-- What a request writes down, and what is then owed. -/
def State.record (s : State) (request : Request) : State :=
  { s with
    config := s.config.record request
    requestedSize := requested s.requestedSize request
    requestedJobs := requestedCount s.requestedJobs request
    owesClear := s.owesClear ∨ request = .clearHash
    owesNewGame := s.owesNewGame ∨ request = .newGame }

def Emptied (t : Table) : Prop := ∀ i < t.size, t.entries i = Entry.cleared

/-- The last position is forgotten, and the entries that it left age. -/
def Restarted (c c' : Config) : Prop :=
  c'.lastPosition = none ∧ (c.lastPosition ≠ none → c'.tt = resetEpoch c.tt)

/-- What is owed is told from the effect of a step, not from the flags. -/
def State.configure (s : State) (config : Config) : State :=
  { s with
    config := config
    owesClear := s.owesClear ∧ ¬Emptied config.tt
    owesNewGame := s.owesNewGame ∧ ¬Restarted s.config config }

/-- The jobs write single words of the table. -/
def State.writeEntry (s : State) (i : Nat) (write : Entry → Entry) : State :=
  { s with config := { s.config with tt := { s.config.tt with
      entries := Function.update s.config.tt.entries i (write (s.config.tt.entries i)) } } }

def step (s : State) : Action → Option State
  | .call request =>
    match s.uci with
    | .idle => some { s with uci := .requesting request }
    | _ => none
  | .lock =>
    match s.uci, s.holder with
    | .requesting request, none =>
      some { s.record request with holder := some .uci, uci := .applying .test }
    | _, _ => none
  | .apply sched =>
    match s.uci with
    | .applying stage => (s.config.apply sched stage).map fun (config, stage) =>
        { s.configure config with uci := .applying stage }
    | _ => none
  | .unlock =>
    match s.uci with
    | .applying .done => some { s with holder := none, uci := .idle }
    | _ => none
  | .stop =>
    match s.uci with
    | .idle => some { s with stopped := true }
    | _ => none
  | .start position =>
    match s.uci, s.main with
    | .idle, .absent => some { s with uci := .joining position }
    | .idle, _ => some { s with uci := .joining position, stopped := true }
    | _, _ => none
  | .join =>
    match s.uci, s.main with
    | .joining position, .absent =>
      some { s with uci := .placing position, main := .absent, stopped := false }
    | .joining position, .finished =>
      some { s with uci := .placing position, main := .absent, stopped := false }
    | _, _ => none
  | .setPosition =>
    match s.uci with
    | .placing position =>
      some { s with uci := .spawning, config := s.config.setPosition position }
    | _ => none
  | .spawn =>
    match s.uci with
    | .spawning => some { s with uci := .idle, main := .spawned, jobCount := s.config.numJobs }
    | _ => none
  | .lockDisable =>
    match s.main, s.holder with
    | .spawned, none => some { s with
        holder := some .main
        main := .disabling
        config := { s.config with canApplyConfig := false } }
    | _, _ => none
  | .unlockDisable =>
    match s.main with
    | .disabling => some { s with holder := none, main := .configured }
    | _ => none
  | .createJobsAndThreads =>
    match s.main with
    | .configured =>
      -- The failing assertion of the source stops the program.
      if s.config.evaluators = s.jobCount then some { s with main := .searching } else none
    | _ => none
  | .access i write =>
    match s.main with
    | .searching => some (s.writeEntry i write)
    | _ => none
  | .stopSearch =>
    match s.main with
    | .searching => some { s with stopped := true }
    | _ => none
  | .finishSearch =>
    match s.main with
    | .searching => if s.stopped then some { s with main := .finishing } else none
    | _ => none
  | .lockEnable =>
    match s.main, s.holder with
    | .finishing, none => some { s with
        holder := some .main
        main := .enabling .test
        config := { s.config with canApplyConfig := true } }
    | _, _ => none
  | .applyEnable sched =>
    match s.main with
    | .enabling stage => (s.config.apply sched stage).map fun (config, stage) =>
        { s.configure config with main := .enabling stage }
    | _ => none
  | .unlockEnable =>
    match s.main with
    | .enabling .done => some { s with holder := none, main := .finished }
    | _ => none

/-- The memory of a new table holds anything. -/
def system (junk : Nat → Entry) : System State Action where
  init :=
    { config :=
        { tt := create junk
          evaluators := 1
          canApplyConfig := true
          lastPosition := none
          hashSize := BitVec.ofNat 64 defaultSize
          numJobs := 1
          needClearHash := false
          needNewGame := false }
      holder := none
      stopped := false
      uci := .idle
      main := .absent
      jobCount := 0
      requestedSize := BitVec.ofNat 64 defaultSize
      requestedJobs := 1
      owesClear := False
      owesNewGame := False }
  step := step

end Model

section Steps

/-- What a step of the system can be. -/
inductive Steps (s : State) : Action → State → Prop
  | call {request : Request} : s.uci = .idle →
      Steps s (.call request) { s with uci := .requesting request }
  | lock {request : Request} : s.uci = .requesting request → s.holder = none →
      Steps s .lock { s.record request with holder := some .uci, uci := .applying .test }
  | apply {sched : Schedule} {stage stage' : Stage} {config : Config} : s.uci = .applying stage →
      s.config.apply sched stage = some (config, stage') →
      Steps s (.apply sched) { s.configure config with uci := .applying stage' }
  | unlock : s.uci = .applying .done → Steps s .unlock { s with holder := none, uci := .idle }
  | stop : s.uci = .idle → Steps s .stop { s with stopped := true }
  | start {position : Position} : s.uci = .idle →
      Steps s (.start position) { s with
        uci := .joining position, stopped := s.stopped || decide (s.main ≠ .absent) }
  | join {position : Position} : s.uci = .joining position → s.main = .absent ∨ s.main = .finished →
      Steps s .join { s with uci := .placing position, main := .absent, stopped := false }
  | setPosition {position : Position} : s.uci = .placing position →
      Steps s .setPosition { s with uci := .spawning, config := s.config.setPosition position }
  | spawn : s.uci = .spawning →
      Steps s .spawn { s with uci := .idle, main := .spawned, jobCount := s.config.numJobs }
  | lockDisable : s.main = .spawned → s.holder = none →
      Steps s .lockDisable { s with
        holder := some .main
        main := .disabling
        config := { s.config with canApplyConfig := false } }
  | unlockDisable : s.main = .disabling →
      Steps s .unlockDisable { s with holder := none, main := .configured }
  | createJobsAndThreads : s.main = .configured → s.config.evaluators = s.jobCount →
      Steps s .createJobsAndThreads { s with main := .searching }
  | access {i : Nat} {write : Entry → Entry} : s.main = .searching →
      Steps s (.access i write) (s.writeEntry i write)
  | stopSearch : s.main = .searching → Steps s .stopSearch { s with stopped := true }
  | finishSearch : s.main = .searching → s.stopped = true →
      Steps s .finishSearch { s with main := .finishing }
  | lockEnable : s.main = .finishing → s.holder = none →
      Steps s .lockEnable { s with
        holder := some .main
        main := .enabling .test
        config := { s.config with canApplyConfig := true } }
  | applyEnable {sched : Schedule} {stage stage' : Stage} {config : Config} :
      s.main = .enabling stage → s.config.apply sched stage = some (config, stage') →
      Steps s (.applyEnable sched) { s.configure config with main := .enabling stage' }
  | unlockEnable : s.main = .enabling .done →
      Steps s .unlockEnable { s with holder := none, main := .finished }

variable {s s' : State} {a : Action}

theorem steps_of_step (hs : step s a = some s') : Steps s a s' := by
  cases a with
  | apply sched =>
    simp only [step] at hs
    split at hs
    · rename_i huci
      obtain ⟨⟨config, stage'⟩, ha, rfl⟩ := Option.map_eq_some_iff.mp hs
      exact .apply huci ha
    · cases hs
  | applyEnable sched =>
    simp only [step] at hs
    split at hs
    · rename_i hmain
      obtain ⟨⟨config, stage'⟩, ha, rfl⟩ := Option.map_eq_some_iff.mp hs
      exact .applyEnable hmain ha
    · cases hs
  | createJobsAndThreads =>
    simp only [step] at hs
    split at hs
    · rename_i hmain
      obtain ⟨he, hs⟩ := Option.ite_none_right_eq_some.mp hs
      cases hs
      exact .createJobsAndThreads hmain he
    · cases hs
  | finishSearch =>
    simp only [step] at hs
    split at hs
    · rename_i hmain
      obtain ⟨he, hs⟩ := Option.ite_none_right_eq_some.mp hs
      cases hs
      exact .finishSearch hmain he
    · cases hs
  | start position =>
    have hstart := @Steps.start s position
    simp only [step] at hs
    split at hs
    · rename_i huci hmain
      cases hs
      simpa [hmain] using hstart huci
    · rename_i huci hmain
      have hne : s.main ≠ .absent := hmain
      cases hs
      simpa [hne] using hstart huci
    · cases hs
  | join =>
    simp only [step] at hs
    split at hs
    · rename_i huci hmain
      cases hs
      exact .join huci (Or.inl hmain)
    · rename_i huci hmain
      cases hs
      exact .join huci (Or.inr hmain)
    · cases hs
  | _ =>
    simp only [step] at hs
    split at hs
    · cases hs
      constructor <;> assumption
    · cases hs

end Steps

section Sizes

variable {c c' : Config} {size : BitVec 64} {sched : Schedule} {stage stage' : Stage} {e : Nat}

theorem newEntries_two_pow (hlo : 16 ≤ e) (hhi : e ≤ 58) :
    newEntries (BitVec.ofNat 64 (2 ^ e * 16)) = some (2 ^ e) := by
  have hpow : 2 ^ e * 16 = 2 ^ (e + 4) := (Nat.pow_add 2 e 4).symm
  have hlt : 2 ^ (e + 4) < 2 ^ 63 := Nat.pow_lt_pow_right (by omega) (by omega)
  have hmega : 2 ^ 20 ≤ 2 ^ (e + 4) := Nat.pow_le_pow_right (by omega) (by omega)
  have hnat : (BitVec.ofNat 64 (2 ^ e * 16)).toNat = 2 ^ (e + 4) := by
    rw [BitVec.toNat_ofNat, hpow, Nat.mod_eq_of_lt (by omega)]
  have hsome : (newEntries (BitVec.ofNat 64 (2 ^ e * 16))).isSome = true :=
    newEntries_isSome (by omega)
  obtain ⟨n, hn⟩ := Option.isSome_iff_exists.mp hsome
  obtain ⟨e', -, -, rfl, hle, hgt⟩ := newEntries_eq hn
  rw [atLeastMega, hnat, max_eq_left hmega] at hle hgt
  have h1 : 2 ^ (e' + 4) ≤ 2 ^ (e + 4) := by rwa [Nat.pow_add 2 e' 4]
  have h2 : 2 ^ (e + 4) < 2 ^ (e' + 5) := by
    rw [Nat.pow_add 2 e' 5]
    omega
  have h1' := (Nat.pow_le_pow_iff_right (show 1 < 2 by omega)).mp h1
  have h2' := (Nat.pow_lt_pow_iff_right (show 1 < 2 by omega)).mp h2
  have he : e' = e := by omega
  rw [hn, he]

/-- The table has a size that `resize` settles for, and the size to be applied is
as good as the one that was asked for last. -/
structure Wanted (size : BitVec 64) (c : Config) : Prop where
  table : ∃ e, 16 ≤ e ∧ e ≤ 58 ∧ c.tt.size = 2 ^ e
  hash : newEntries c.hashSize = newEntries size

/-- All requests are applied. -/
structure Settled (c : Config) : Prop where
  evaluators : c.evaluators = c.numJobs
  hash : sizeBytes c.tt = c.hashSize
  clear : c.needClearHash = false
  newGame : c.needNewGame = false

/-- What `tryApplyConfigUnlocked` has done when it comes to a stage. -/
def Applied (c : Config) : Stage → Prop
  | .test => True
  | .evaluators => True
  | .hash => c.evaluators = c.numJobs
  | .newGame => c.evaluators = c.numJobs ∧ sizeBytes c.tt = c.hashSize ∧ c.needClearHash = false
  | .done => Settled c

/-- While nothing may be applied, only the test is made. -/
structure Progress (c : Config) (stage : Stage) : Prop where
  applied : c.canApplyConfig = true → Applied c stage
  skipped : c.canApplyConfig = false → stage = .test ∨ stage = .done

theorem Wanted.fits (hw : Wanted size c) (hs : sizeBytes c.tt = c.hashSize) :
    ∃ k, c.hashSize.toNat = 2 ^ k ∧ 2 ^ k ≤ atLeastMega size ∧ atLeastMega size < 2 ^ (k + 1) := by
  obtain ⟨e, hlo, hhi, htable⟩ := hw.table
  have hnew := newEntries_two_pow hlo hhi
  have hbytes : c.hashSize = BitVec.ofNat 64 (2 ^ e * 16) := by rw [← hs, sizeBytes, htable]
  rw [← hbytes, hw.hash] at hnew
  obtain ⟨e', -, -, hpow, hle, hgt⟩ := newEntries_eq hnew
  have hlt : 2 ^ (e + 4) < 2 ^ 63 := Nat.pow_lt_pow_right (by omega) (by omega)
  have h4 : 2 ^ (e + 4) = 2 ^ e * 16 := Nat.pow_add 2 e 4
  have h5 : 2 ^ (e + 4 + 1) = 2 * (2 ^ e * 16) := by rw [Nat.pow_succ, h4, Nat.mul_comm]
  refine ⟨e + 4, ?_, by omega, by omega⟩
  rw [hbytes, BitVec.toNat_ofNat, Nat.mod_eq_of_lt (by omega), h4]

theorem Wanted.record (hw : Wanted size c) (request : Request) :
    Wanted (requested size request) (c.record request) := by
  cases request with
  | setHashSize size => exact ⟨hw.table, rfl⟩
  | setNumJobs jobs => exact ⟨hw.table, hw.hash⟩
  | clearHash => exact ⟨hw.table, hw.hash⟩
  | newGame => exact ⟨hw.table, hw.hash⟩

theorem resize_size {t t' : Table} {maxSize : BitVec 64} {clearTable : Bool} {jobs : Nat}
    (h : resize t maxSize clearTable jobs sched = some t') : newEntries maxSize = some t'.size := by
  obtain ⟨newSize, hnew, hsize, -⟩ := resize_cases h
  rw [hnew, hsize]

/-- One part of `tryApplyConfigUnlocked` leads to the next one. -/
theorem apply_spec (hw : Wanted size c) (hp : Progress c stage)
    (h : c.apply sched stage = some (c', stage')) :
    Wanted size c' ∧ Progress c' stage' ∧ c'.canApplyConfig = c.canApplyConfig ∧
      (c.canApplyConfig = false → c' = c) := by
  cases hcan : c.canApplyConfig with
  | false =>
    cases hp.skipped hcan with
    | inl hstage =>
      subst hstage
      simp only [Config.apply, hcan, Option.some.injEq, Prod.mk.injEq] at h
      obtain ⟨rfl, rfl⟩ := h
      exact ⟨hw, ⟨by simp [hcan], fun _ => Or.inr rfl⟩, hcan, fun _ => rfl⟩
    | inr hstage =>
      subst hstage
      cases h
  | true =>
    have happlied := hp.applied hcan
    cases stage with
    | test =>
      simp only [Config.apply, hcan, Option.some.injEq, Prod.mk.injEq] at h
      obtain ⟨rfl, rfl⟩ := h
      exact ⟨hw, ⟨fun _ => trivial, by simp [hcan]⟩, hcan, fun he => by cases he⟩
    | evaluators =>
      cases h
      exact ⟨⟨hw.table, hw.hash⟩, ⟨fun _ => rfl, by simp [hcan]⟩, hcan, fun he => by cases he⟩
    | hash =>
      simp only [Config.apply] at h
      split at h
      · obtain ⟨-, h⟩ := Option.ite_none_left_eq_some.mp h
        obtain ⟨tt, hr, heq⟩ := Option.map_eq_some_iff.mp h
        cases heq
        have hsize := resize_size hr
        obtain ⟨e, hlo, hhi, hpow, -⟩ := newEntries_eq hsize
        refine ⟨⟨⟨e, hlo, hhi, hpow⟩, ?_⟩, ⟨fun _ => ⟨happlied, rfl, rfl⟩, by simp [hcan]⟩, hcan, fun he => by cases he⟩
        rw [← hw.hash, hsize, sizeBytes, hpow]
        exact newEntries_two_pow hlo hhi
      · rename_i hcond
        cases h
        obtain ⟨hclear, hbytes⟩ := not_or.mp hcond
        refine ⟨hw, ⟨fun _ => ⟨happlied, not_not.mp hbytes, Bool.eq_false_iff.mpr hclear⟩, ?_⟩, hcan,
          nofun⟩
        simp [hcan]
    | newGame =>
      obtain ⟨hev, hbytes, hclear⟩ := happlied
      simp only [Config.apply, Option.some.injEq, Prod.mk.injEq] at h
      obtain ⟨rfl, rfl⟩ := h
      have hsame : ∀ t : Table, (if c.lastPosition.isSome then resetEpoch t else t).size = t.size := by
        intro t
        split <;> rfl
      split
      · refine ⟨⟨?_, hw.hash⟩, ⟨fun _ => ⟨hev, ?_, hclear, rfl⟩, by simp⟩, hcan, fun he => by cases he⟩
        · simpa only [hsame] using hw.table
        · simpa only [sizeBytes, hsame] using hbytes
      · rename_i hnew
        exact ⟨hw, ⟨fun _ => ⟨hev, hbytes, hclear, Bool.eq_false_iff.mpr hnew⟩, by simp⟩, hcan, fun he => by cases he⟩
    | done => cases h

/-- A part of `tryApplyConfigUnlocked` takes a flag back only when it has done what it stands for. -/
theorem apply_answers (h : c.apply sched stage = some (c', stage')) : c'.numJobs = c.numJobs ∧
    (c.needClearHash = true → c'.needClearHash = true ∨ Emptied c'.tt) ∧
    (c.needNewGame = true → c'.needNewGame = true ∨ Restarted c c') := by
  cases stage with
  | test =>
    cases h
    exact ⟨rfl, Or.inl, Or.inl⟩
  | evaluators =>
    cases h
    exact ⟨rfl, Or.inl, Or.inl⟩
  | hash =>
    simp only [Config.apply] at h
    split at h
    · obtain ⟨hjobs, h⟩ := Option.ite_none_left_eq_some.mp h
      obtain ⟨tt, hr, heq⟩ := Option.map_eq_some_iff.mp h
      cases heq
      refine ⟨rfl, fun hclear => Or.inr fun i hi => ?_, Or.inl⟩
      obtain ⟨newSize, -, hsize, -, hcases⟩ := resize_cases hr
      obtain ⟨-, hfalse, -⟩ | ⟨-, table, htable⟩ | ⟨-, hfalse, -⟩ | ⟨-, hfalse, -⟩ := hcases
      · simp [hclear] at hfalse
      · rw [htable]
        exact doClear_eq (Nat.pos_of_ne_zero hjobs) (hsize ▸ hi)
      · simp [hclear] at hfalse
      · simp [hclear] at hfalse
    · cases h
      exact ⟨rfl, Or.inl, Or.inl⟩
  | newGame =>
    simp only [Config.apply, Option.some.injEq, Prod.mk.injEq] at h
    obtain ⟨rfl, rfl⟩ := h
    split
    · refine ⟨rfl, Or.inl, fun _ => Or.inr ⟨rfl, fun hlast => ?_⟩⟩
      exact if_pos (Option.isSome_iff_ne_none.mpr hlast)
    · exact ⟨rfl, Or.inl, Or.inl⟩
  | done => cases h

end Sizes

section Invariant

variable {s s' : State} {a : Action} {c c' : Config} {stage : Stage}

/-- The main thread is between the two calls that switch reconfiguration. -/
def Busy : MainPhase → Prop
  | .disabling => True
  | .configured => True
  | .searching => True
  | .finishing => True
  | _ => False

def UciPhase.Placing : UciPhase → Prop
  | .placing _ => True
  | .spawning => True
  | _ => False

/-- What is still owed is written down. -/
structure Recorded (s : State) : Prop where
  jobs : s.config.numJobs = s.requestedJobs
  clear : s.owesClear → s.config.needClearHash = true
  newGame : s.owesNewGame → s.config.needNewGame = true

theorem Recorded.record (h : Recorded s) (request : Request) : Recorded (s.record request) := by
  cases request with
  | setNumJobs jobs =>
    exact ⟨rfl, fun ho => h.clear (by simpa [State.record] using ho),
      fun ho => h.newGame (by simpa [State.record] using ho)⟩
  | setHashSize size =>
    exact ⟨h.jobs, fun ho => h.clear (by simpa [State.record] using ho),
      fun ho => h.newGame (by simpa [State.record] using ho)⟩
  | clearHash => exact ⟨h.jobs, fun _ => rfl, fun ho => h.newGame (by simpa [State.record] using ho)⟩
  | newGame => exact ⟨h.jobs, fun ho => h.clear (by simpa [State.record] using ho), fun _ => rfl⟩

theorem Recorded.configure {sched : Schedule} {stage' : Stage} (h : Recorded s)
    (happly : s.config.apply sched stage = some (c', stage')) : Recorded (s.configure c') := by
  obtain ⟨hjobs, hclear, hnew⟩ := apply_answers happly
  exact ⟨hjobs.trans h.jobs, fun ho => (hclear (h.clear ho.1)).resolve_right ho.2,
    fun ho => (hnew (h.newGame ho.1)).resolve_right ho.2⟩

structure Inv (s : State) : Prop where
  uciHolds : s.holder = some .uci ↔ ∃ stage, s.uci = .applying stage
  mainHolds : s.holder = some .main ↔ s.main = .disabling ∨ ∃ stage, s.main = .enabling stage
  enabled : s.config.canApplyConfig = false ↔ Busy s.main
  wanted : Wanted s.requestedSize s.config
  settled : s.holder = none → s.config.canApplyConfig = true → Settled s.config
  uciApplies : ∀ stage, s.uci = .applying stage → Progress s.config stage
  mainApplies : ∀ stage, s.main = .enabling stage → Progress s.config stage
  placing : s.uci.Placing → s.main = .absent
  recorded : Recorded s

/-- The parts of the configuration that requests are about. -/
structure Alike (c c' : Config) : Prop where
  canApplyConfig : c'.canApplyConfig = c.canApplyConfig
  evaluators : c'.evaluators = c.evaluators
  size : c'.tt.size = c.tt.size
  hashSize : c'.hashSize = c.hashSize
  numJobs : c'.numJobs = c.numJobs
  needClearHash : c'.needClearHash = c.needClearHash
  needNewGame : c'.needNewGame = c.needNewGame

theorem Alike.refl (c : Config) : Alike c c := ⟨rfl, rfl, rfl, rfl, rfl, rfl, rfl⟩

theorem Alike.wanted {size : BitVec 64} (h : Alike c c') (hw : Wanted size c) : Wanted size c' :=
  ⟨by rw [h.size]; exact hw.table, by rw [h.hashSize]; exact hw.hash⟩

theorem Alike.sizeBytes_eq (h : Alike c c') : sizeBytes c'.tt = sizeBytes c.tt := by
  rw [sizeBytes, sizeBytes, h.size]

theorem Alike.settled (h : Alike c c') (hs : Settled c) : Settled c' where
  evaluators := by rw [h.evaluators, h.numJobs, hs.evaluators]
  hash := by rw [h.sizeBytes_eq, h.hashSize, hs.hash]
  clear := by rw [h.needClearHash, hs.clear]
  newGame := by rw [h.needNewGame, hs.newGame]

theorem Alike.progress (h : Alike c c') (hp : Progress c stage) : Progress c' stage where
  applied := by
    intro hcan
    rw [h.canApplyConfig] at hcan
    have happlied := hp.applied hcan
    cases stage with
    | test => trivial
    | evaluators => trivial
    | hash => exact h.evaluators.trans (Eq.trans happlied h.numJobs.symm)
    | newGame =>
      rw [Applied, h.evaluators, h.numJobs, h.sizeBytes_eq, h.hashSize, h.needClearHash]
      exact happlied
    | done => exact h.settled happlied
  skipped := by
    rw [h.canApplyConfig]
    exact hp.skipped

theorem setPosition_alike (c : Config) (position : Position) : Alike c (c.setPosition position) := by
  unfold Config.setPosition
  split
  · exact ⟨rfl, rfl, rfl, rfl, rfl, rfl, rfl⟩
  · constructor
    case size =>
      simp only
      split
      · rfl
      · split_ifs <;> rfl
    all_goals rfl

theorem inv_init (junk : Nat → Entry) : Inv (system junk).init where
  uciHolds := ⟨nofun, fun h => by obtain ⟨stage, h⟩ := h; cases h⟩
  mainHolds := ⟨nofun, fun h => by
    rcases h with h | ⟨stage, h⟩
    · cases h
    · cases h⟩
  enabled := ⟨nofun, fun h => h.elim⟩
  wanted := ⟨⟨21, by omega, by omega, create_size⟩, rfl⟩
  settled _ _ := by
    refine ⟨rfl, ?_, rfl, rfl⟩
    simp only [system, sizeBytes, create_size]
    rfl
  uciApplies _ h := by cases h
  mainApplies _ h := by cases h
  placing h := h.elim
  recorded := ⟨rfl, False.elim, False.elim⟩

/-- A step without the lock, which keeps what requests are about. -/
theorem Inv.quiet (h : Inv s) (hholder : s'.holder = s.holder)
    (hsize : s'.requestedSize = s.requestedSize) (hjobs : s'.requestedJobs = s.requestedJobs)
    (hclear : s'.owesClear = s.owesClear) (hnew : s'.owesNewGame = s.owesNewGame) (hconfig : Alike s.config s'.config)
    (huci : ∀ stage, s'.uci = .applying stage ↔ s.uci = .applying stage)
    (hdisabling : s'.main = .disabling ↔ s.main = .disabling)
    (hmain : ∀ stage, s'.main = .enabling stage ↔ s.main = .enabling stage)
    (hbusy : Busy s'.main ↔ Busy s.main) (hplacing : s'.uci.Placing → s'.main = .absent) : Inv s' where
  uciHolds := by
    rw [hholder, h.uciHolds]
    exact exists_congr fun stage => (huci stage).symm
  mainHolds := by
    rw [hholder, h.mainHolds, hdisabling]
    exact or_congr_right (exists_congr fun stage => (hmain stage).symm)
  enabled := by rw [hconfig.canApplyConfig, hbusy, h.enabled]
  wanted := hsize ▸ hconfig.wanted h.wanted
  settled := by
    rw [hholder, hconfig.canApplyConfig]
    exact fun hfree hcan => hconfig.settled (h.settled hfree hcan)
  uciApplies stage hs := hconfig.progress (h.uciApplies stage ((huci stage).mp hs))
  mainApplies stage hs := hconfig.progress (h.mainApplies stage ((hmain stage).mp hs))
  placing := hplacing
  recorded := by
    refine ⟨?_, ?_, ?_⟩
    · rw [hconfig.numJobs, hjobs]
      exact h.recorded.jobs
    · rw [hconfig.needClearHash, hclear]
      exact h.recorded.clear
    · rw [hconfig.needNewGame, hnew]
      exact h.recorded.newGame

theorem Inv.not_disabling (h : Inv s) (hholder : s.holder ≠ some .main) : s.main ≠ .disabling :=
  fun hm => hholder (h.mainHolds.mpr (Or.inl hm))

theorem Inv.not_enabling (h : Inv s) (hholder : s.holder ≠ some .main) (stage : Stage) :
    s.main ≠ .enabling stage :=
  fun hm => hholder (h.mainHolds.mpr (Or.inr ⟨stage, hm⟩))

theorem Inv.not_applying (h : Inv s) (hholder : s.holder ≠ some .uci) (stage : Stage) :
    s.uci ≠ .applying stage :=
  fun hu => hholder (h.uciHolds.mpr ⟨stage, hu⟩)

theorem progress_test (c : Config) : Progress c .test := ⟨fun _ => trivial, fun _ => Or.inl rfl⟩

theorem inv_step (h : Inv s) (hs : step s a = some s') : Inv s' := by
  cases steps_of_step hs with
  | call huci =>
    refine h.quiet rfl rfl rfl rfl rfl (Alike.refl _) ?_ Iff.rfl (fun _ => Iff.rfl) Iff.rfl nofun
    simp [huci]
  | @lock request huci hfree =>
    have hne : s.holder ≠ some .main := by simp [hfree]
    have hsame : (s.config.record request).canApplyConfig = s.config.canApplyConfig := by
      cases request <;> rfl
    constructor
    case uciHolds => exact ⟨fun _ => ⟨_, rfl⟩, fun _ => rfl⟩
    case mainHolds =>
      simp only [Option.some.injEq, reduceCtorEq, false_iff, not_or, not_exists]
      exact ⟨h.not_disabling hne, h.not_enabling hne⟩
    case enabled => exact hsame ▸ h.enabled
    case wanted => exact h.wanted.record request
    case settled => exact nofun
    case uciApplies =>
      rintro stage ⟨⟩
      exact progress_test _
    case mainApplies => exact fun stage hm => absurd hm (h.not_enabling hne stage)
    case placing => exact nofun
    case recorded =>
      obtain ⟨hjobs, hclear, hnew⟩ := h.recorded.record request
      exact ⟨hjobs, hclear, hnew⟩
  | apply huci happly =>
    obtain ⟨hwanted, hprogress, hcan, -⟩ := apply_spec h.wanted (h.uciApplies _ huci) happly
    have hheld := h.uciHolds.mpr ⟨_, huci⟩
    have hne : s.holder ≠ some .main := by simp [hheld]
    constructor
    case uciHolds => exact ⟨fun _ => ⟨_, rfl⟩, fun _ => hheld⟩
    case mainHolds => exact h.mainHolds
    case enabled => exact hcan ▸ h.enabled
    case wanted => exact hwanted
    case settled => exact fun hfree => absurd (hheld.symm.trans hfree) (by simp)
    case uciApplies =>
      rintro stage ⟨⟩
      exact hprogress
    case mainApplies => exact fun stage hm => absurd hm (h.not_enabling hne stage)
    case placing => exact nofun
    case recorded =>
      obtain ⟨hjobs, hclear, hnew⟩ := h.recorded.configure happly
      exact ⟨hjobs, hclear, hnew⟩
  | unlock huci =>
    have hne : s.holder ≠ some .main := by simp [h.uciHolds.mpr ⟨_, huci⟩]
    constructor
    case uciHolds => simp
    case mainHolds =>
      simp only [reduceCtorEq, false_iff, not_or, not_exists]
      exact ⟨h.not_disabling hne, h.not_enabling hne⟩
    case enabled => exact h.enabled
    case wanted => exact h.wanted
    case settled => exact fun _ hcan => (h.uciApplies _ huci).applied hcan
    case uciApplies => exact nofun
    case mainApplies => exact h.mainApplies
    case placing => exact nofun
    case recorded => exact ⟨h.recorded.jobs, h.recorded.clear, h.recorded.newGame⟩
  | stop huci =>
    exact h.quiet rfl rfl rfl rfl rfl (Alike.refl _) (fun _ => Iff.rfl) Iff.rfl (fun _ => Iff.rfl) Iff.rfl h.placing
  | start huci =>
    refine h.quiet rfl rfl rfl rfl rfl (Alike.refl _) ?_ Iff.rfl (fun _ => Iff.rfl) Iff.rfl nofun
    simp [huci]
  | join huci hmain =>
    refine h.quiet rfl rfl rfl rfl rfl (Alike.refl _) ?_ ?_ ?_ ?_ fun _ => rfl
    · simp [huci]
    all_goals
      cases hmain with
      | inl hm => simp [hm, Busy]
      | inr hm => simp [hm, Busy]
  | setPosition huci =>
    refine h.quiet rfl rfl rfl rfl rfl (setPosition_alike _ _) ?_ Iff.rfl (fun _ => Iff.rfl) Iff.rfl ?_
    · simp [huci]
    · exact fun _ => h.placing (by rw [huci]; trivial)
  | spawn huci =>
    have hm := h.placing (by rw [huci]; trivial)
    refine h.quiet rfl rfl rfl rfl rfl (Alike.refl _) ?_ ?_ ?_ ?_ nofun
    · simp [huci]
    all_goals simp [hm, Busy]
  | lockDisable hmain hfree =>
    have hne : s.holder ≠ some .uci := by simp [hfree]
    constructor
    case uciHolds =>
      simp only [Option.some.injEq, reduceCtorEq, false_iff, not_exists]
      exact h.not_applying hne
    case mainHolds => simp
    case enabled => simp [Busy]
    case wanted => exact ⟨h.wanted.table, h.wanted.hash⟩
    case settled => exact nofun
    case uciApplies => exact fun stage hu => absurd hu (h.not_applying hne stage)
    case mainApplies => exact nofun
    case placing => exact fun hp => absurd (h.placing hp) (by simp [hmain])
    case recorded => exact ⟨h.recorded.jobs, h.recorded.clear, h.recorded.newGame⟩
  | unlockDisable hmain =>
    have hheld := h.mainHolds.mpr (Or.inl hmain)
    have hne : s.holder ≠ some .uci := by simp [hheld]
    have hcan : s.config.canApplyConfig = false := h.enabled.mpr (by simp [hmain, Busy])
    constructor
    case uciHolds =>
      simp only [reduceCtorEq, false_iff, not_exists]
      exact h.not_applying hne
    case mainHolds => simp
    case enabled => simp [hcan, Busy]
    case wanted => exact h.wanted
    case settled => simp [hcan]
    case uciApplies => exact h.uciApplies
    case mainApplies => exact nofun
    case placing => exact fun hp => absurd (h.placing hp) (by simp [hmain])
    case recorded => exact ⟨h.recorded.jobs, h.recorded.clear, h.recorded.newGame⟩
  | createJobsAndThreads hmain he =>
    refine h.quiet rfl rfl rfl rfl rfl (Alike.refl _) (fun _ => Iff.rfl) ?_ ?_ ?_ ?_
    · simp [hmain]
    · simp [hmain]
    · simp [hmain, Busy]
    · exact fun hp => absurd (h.placing hp) (by simp [hmain])
  | access hmain =>
    exact h.quiet rfl rfl rfl rfl rfl ⟨rfl, rfl, rfl, rfl, rfl, rfl, rfl⟩ (fun _ => Iff.rfl) Iff.rfl
      (fun _ => Iff.rfl) Iff.rfl h.placing
  | stopSearch hmain =>
    exact h.quiet rfl rfl rfl rfl rfl (Alike.refl _) (fun _ => Iff.rfl) Iff.rfl (fun _ => Iff.rfl) Iff.rfl h.placing
  | finishSearch hmain hstopped =>
    refine h.quiet rfl rfl rfl rfl rfl (Alike.refl _) (fun _ => Iff.rfl) ?_ ?_ ?_ ?_
    · simp [hmain]
    · simp [hmain]
    · simp [hmain, Busy]
    · exact fun hp => absurd (h.placing hp) (by simp [hmain])
  | lockEnable hmain hfree =>
    have hne : s.holder ≠ some .uci := by simp [hfree]
    constructor
    case uciHolds =>
      simp only [Option.some.injEq, reduceCtorEq, false_iff, not_exists]
      exact h.not_applying hne
    case mainHolds => simp
    case enabled => simp [Busy]
    case wanted => exact ⟨h.wanted.table, h.wanted.hash⟩
    case settled => exact nofun
    case uciApplies => exact fun stage hu => absurd hu (h.not_applying hne stage)
    case mainApplies =>
      rintro stage ⟨⟩
      exact progress_test _
    case placing => exact fun hp => absurd (h.placing hp) (by simp [hmain])
    case recorded => exact ⟨h.recorded.jobs, h.recorded.clear, h.recorded.newGame⟩
  | applyEnable hmain happly =>
    obtain ⟨hwanted, hprogress, hcan, -⟩ := apply_spec h.wanted (h.mainApplies _ hmain) happly
    have hheld := h.mainHolds.mpr (Or.inr ⟨_, hmain⟩)
    have hne : s.holder ≠ some .uci := by simp [hheld]
    constructor
    case uciHolds => exact h.uciHolds
    case mainHolds => exact iff_of_true hheld (Or.inr ⟨_, rfl⟩)
    case enabled =>
      have hsame := h.enabled
      rw [← hcan, hmain] at hsame
      exact hsame
    case wanted => exact hwanted
    case settled => exact fun hfree => absurd (hheld.symm.trans hfree) (by simp)
    case uciApplies => exact fun stage hu => absurd hu (h.not_applying hne stage)
    case mainApplies =>
      rintro stage ⟨⟩
      exact hprogress
    case placing => exact fun hp => absurd (h.placing hp) (by simp [hmain])
    case recorded =>
      obtain ⟨hjobs, hclear, hnew⟩ := h.recorded.configure happly
      exact ⟨hjobs, hclear, hnew⟩
  | unlockEnable hmain =>
    have hne : s.holder ≠ some .uci := by simp [h.mainHolds.mpr (Or.inr ⟨_, hmain⟩)]
    have hcan := h.enabled
    rw [hmain] at hcan
    constructor
    case uciHolds =>
      simp only [reduceCtorEq, false_iff, not_exists]
      exact h.not_applying hne
    case mainHolds => simp
    case enabled => exact hcan
    case wanted => exact h.wanted
    case settled => exact fun _ hcan => (h.mainApplies _ hmain).applied hcan
    case uciApplies => exact h.uciApplies
    case mainApplies => exact nofun
    case placing => exact fun hp => absurd (h.placing hp) (by simp [hmain])
    case recorded => exact ⟨h.recorded.jobs, h.recorded.clear, h.recorded.newGame⟩

theorem inv_of_reachable {junk : Nat → Entry} (h : (system junk).Reachable s) : Inv s :=
  h.invariant (inv_init junk) fun _ _ _ hi _ hs => inv_step hi hs

end Invariant

section Requests

variable {junk : Nat → Entry} {s s' : State} {a : Action}

theorem frozen_step (h : Inv s) (hcan : s.config.canApplyConfig = false)
    (hs : step s a = some s') :
    s'.config.evaluators = s.config.evaluators ∧
      (s'.config.tt = s.config.tt ∨ ∃ i write, a = .access i write ∧ s'.config.tt =
        { s.config.tt with
          entries := Function.update s.config.tt.entries i (write (s.config.tt.entries i)) }) := by
  have hbusy := h.enabled.mp hcan
  cases steps_of_step hs with
  | @lock request huci hfree => cases request <;> exact ⟨rfl, Or.inl rfl⟩
  | apply huci happly =>
    obtain ⟨-, -, -, hkeep⟩ := apply_spec h.wanted (h.uciApplies _ huci) happly
    cases hkeep hcan
    exact ⟨rfl, Or.inl rfl⟩
  | setPosition huci =>
    rw [h.placing (by rw [huci]; trivial)] at hbusy
    exact hbusy.elim
  | access hmain => exact ⟨rfl, Or.inr ⟨_, _, rfl, rfl⟩⟩
  | applyEnable hmain happly =>
    rw [hmain] at hbusy
    exact hbusy.elim
  | _ => exact ⟨rfl, Or.inl rfl⟩

/-- Whenever the lock is free and reconfiguration is on, all requests are applied and nothing
that was asked for is owed. Nothing is applied while it is off. -/
theorem requests_applied (h : (system junk).Reachable s) :
    (s.holder = none → s.config.canApplyConfig = true →
      s.config.evaluators = s.config.numJobs ∧ s.config.numJobs = s.requestedJobs ∧
      sizeBytes s.config.tt = s.config.hashSize ∧
      (∃ k, s.config.hashSize.toNat = 2 ^ k ∧ 2 ^ k ≤ max (2 ^ 20) s.requestedSize.toNat ∧
        max (2 ^ 20) s.requestedSize.toNat < 2 ^ (k + 1)) ∧
      s.config.needClearHash = false ∧ s.config.needNewGame = false ∧
      ¬s.owesClear ∧ ¬s.owesNewGame) ∧
    (s.config.canApplyConfig = false → ∀ a s', step s a = some s' →
      s'.config.evaluators = s.config.evaluators ∧
      (s'.config.tt = s.config.tt ∨ ∃ i write, a = .access i write ∧ s'.config.tt =
        { s.config.tt with
          entries := Function.update s.config.tt.entries i (write (s.config.tt.entries i)) })) := by
  have hinv := inv_of_reachable h
  constructor
  · intro hfree hcan
    have hsettled := hinv.settled hfree hcan
    have hrecorded := hinv.recorded
    refine ⟨hsettled.evaluators, hrecorded.jobs, hsettled.hash, ?_, hsettled.clear,
      hsettled.newGame, fun ho => ?_, fun ho => ?_⟩
    · rw [max_comm]
      exact hinv.wanted.fits hsettled.hash
    · exact absurd (hrecorded.clear ho) (by simp [hsettled.clear])
    · exact absurd (hrecorded.newGame ho) (by simp [hsettled.newGame])
  · exact fun hcan a s' hs => frozen_step hinv hcan hs

/-- Requests that arrive during a search and are applied after it. -/
def deferred : List Action :=
  let position : Position := ⟨initialFields, [], initialFields⟩
  let sched : Schedule := ⟨fun _ => Entry.cleared, [], []⟩
  [.start position, .join, .setPosition, .spawn, .lockDisable, .unlockDisable,
    .createJobsAndThreads] ++
  [Request.setHashSize 3000000, .setNumJobs 2, .clearHash, .newGame].flatMap (fun request =>
    [.call request, .lock, .apply sched, .unlock]) ++
  [.stop, .finishSearch, .lockEnable, .applyEnable sched, .applyEnable sched, .applyEnable sched,
    .applyEnable sched, .unlockEnable]

theorem requests_applied_deferred : ∃ s,
    (system fun _ => Entry.cleared).run (system fun _ => Entry.cleared).init deferred = some s ∧
    s.config.evaluators = s.config.numJobs ∧ s.config.numJobs = s.requestedJobs ∧
    sizeBytes s.config.tt = s.config.hashSize ∧
    (∃ k, s.config.hashSize.toNat = 2 ^ k ∧ 2 ^ k ≤ max (2 ^ 20) s.requestedSize.toNat ∧
      max (2 ^ 20) s.requestedSize.toNat < 2 ^ (k + 1)) ∧
    s.config.needClearHash = false ∧ s.config.needNewGame = false ∧
    ¬s.owesClear ∧ ¬s.owesNewGame :=
  ⟨_, rfl, (requests_applied (System.reachable_of_run (S := system fun _ => Entry.cleared)
    deferred .init rfl)).1 rfl rfl⟩

end Requests

end SoFCheck.Search.Reconfiguration
