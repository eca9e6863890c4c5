import SoFCheck.Util.Transition

namespace SoFCheck.BotApi.UciConnector

open SoFCheck.Util.Transition

inductive Thread where
  | uci
  | main
  deriving DecidableEq

/-- The calls of the main search thread to the server. Each of them takes
`mutex_`; a number tells how many calls of the same kind follow. -/
inductive Call where
  | sendResult (left : Nat)
  | sendNodeCount
  | sendHashHits
  | sendStats (left : Nat)
  | finishSearch
  | sendTime
  deriving DecidableEq

inductive MainPhase where
  | absent
  | spawned
  | disabling
  | mainLoop
  | waiting (call : Call)
  | sending (call : Call)
  /-- About to ask `isDebugMode` in `printStats`. -/
  | printStats
  /-- About to ask `isDebugMode` in `finishSearch`, after the best move is sent. -/
  | finishSearch
  | reconfigure
  | enabling
  | finished
  deriving DecidableEq

inductive UciPhase where
  | idle
  /-- Inside `processUciCommand`, before the command is looked at. -/
  | command
  | setOption
  | applying
  | joining
  | joined
  | started
  | returning
  /-- Joining on the way out, with `mutex_` released. -/
  | disconnecting
  | disconnected
  deriving DecidableEq

/-- What the two threads share, and where each of them stands. -/
structure State where
  mutex : Option Thread
  applyConfigLock : Option Thread
  searchStarted : Bool
  debugEnabled : Bool
  debugMode : Bool
  stopped : Bool
  main : MainPhase
  uci : UciPhase
  deriving DecidableEq

/-- The steps of the thread that polls the UCI connector. -/
inductive Uci where
  | lock
  | reply
  | debug (on : Bool)
  | setOption
  | lockConfig
  | unlockConfig
  | go
  | join
  | spawn
  | doStartSearch
  | stop
  | unlock
  | disconnect
  deriving DecidableEq

/-- The steps of the main search thread; `stop` also stands for its jobs. -/
inductive Main where
  | lockConfig
  | unlockConfig
  | extractLines (left : Nat)
  | printStats
  | stop
  | leaveLoop
  | lock
  | unlock (written : Bool)
  | testDebug
  deriving DecidableEq

inductive Action where
  | uci (a : Uci)
  | main (a : Main)
  deriving DecidableEq

section Model

def initial : State where
  mutex := none
  applyConfigLock := none
  searchStarted := false
  debugEnabled := false
  debugMode := false
  stopped := false
  main := .absent
  uci := .idle

/-- Where the main thread goes on after a call. -/
def Call.next : Call → MainPhase
  | .sendResult 0 => .mainLoop
  | .sendResult (left + 1) => .waiting (.sendResult left)
  | .sendNodeCount => .waiting .sendHashHits
  | .sendHashHits => .printStats
  | .sendStats 0 => .mainLoop
  | .sendStats (left + 1) => .waiting (.sendStats left)
  | .finishSearch => .finishSearch
  | .sendTime => .reconfigure

/-- `JobRunner::start`, up to the point where it waits for the main thread. -/
def start (s : State) : State :=
  if s.main = .absent then { s with uci := .joined }
  else { s with stopped := true, uci := .joining }

def uciStep (s : State) : Uci → Option State
  | .lock =>
    if s.uci = .idle ∧ s.mutex = none then some { s with mutex := some .uci, uci := .command }
    else none
  | .reply => if s.uci = .command then some { s with uci := .returning } else none
  | .debug on =>
    if s.uci = .command then
      if s.debugEnabled = on then some { s with uci := .returning }
      else some { s with debugMode := on, debugEnabled := on, uci := .returning }
    else none
  | .setOption => if s.uci = .command then some { s with uci := .setOption } else none
  | .lockConfig =>
    if s.uci = .setOption ∧ s.applyConfigLock = none then
      some { s with applyConfigLock := some .uci, uci := .applying }
    else none
  | .unlockConfig =>
    if s.uci = .applying then some { s with applyConfigLock := none, uci := .returning } else none
  | .go =>
    if s.uci = .command then
      if s.searchStarted then some { s with uci := .returning } else some (start s)
    else none
  | .join =>
    if s.uci = .joining ∧ s.main = .finished then some { s with main := .absent, uci := .joined }
    else if s.uci = .disconnecting ∧ (s.main = .finished ∨ s.main = .absent) then
      some { s with main := .absent, uci := .disconnected }
    else none
  | .spawn =>
    if s.uci = .joined then some { s with stopped := false, main := .spawned, uci := .started }
    else none
  | .doStartSearch =>
    if s.uci = .started then some { s with searchStarted := true, uci := .returning } else none
  | .stop =>
    if s.uci = .command then some { s with stopped := s.stopped || s.searchStarted, uci := .returning }
    else none
  | .unlock => if s.uci = .returning then some { s with mutex := none, uci := .idle } else none
  | .disconnect =>
    if s.uci = .idle then
      some { s with stopped := s.stopped || decide (s.main ≠ .absent), uci := .disconnecting }
    else none

/-- The server refuses the best move of a search it does not know of, and keeps
the search when the move cannot be written. -/
def answer (s : State) (written : Bool) (call : Call) : Bool :=
  if call = .finishSearch then s.searchStarted && !written else s.searchStarted

def mainStep (s : State) : Main → Option State
  | .lockConfig =>
    if s.main = .spawned ∧ s.applyConfigLock = none then
      some { s with applyConfigLock := some .main, main := .disabling }
    else if s.main = .reconfigure ∧ s.applyConfigLock = none then
      some { s with applyConfigLock := some .main, main := .enabling }
    else none
  | .unlockConfig =>
    if s.main = .disabling then some { s with applyConfigLock := none, main := .mainLoop }
    else if s.main = .enabling then some { s with applyConfigLock := none, main := .finished }
    else none
  | .extractLines left =>
    if s.main = .mainLoop then some { s with main := .waiting (.sendResult left) } else none
  | .printStats =>
    if s.main = .mainLoop then some { s with main := .waiting .sendNodeCount } else none
  | .stop => if s.main = .mainLoop then some { s with stopped := true } else none
  | .leaveLoop =>
    if s.main = .mainLoop ∧ s.stopped then some { s with main := .waiting .finishSearch } else none
  | .lock =>
    match s.main with
    | .waiting call =>
      if s.mutex = none then some { s with mutex := some .main, main := .sending call } else none
    | _ => none
  | .unlock written =>
    match s.main with
    | .sending call =>
      some { s with mutex := none, searchStarted := answer s written call, main := call.next }
    | _ => none
  | .testDebug =>
    if s.main = .printStats then
      some { s with main := if s.debugMode then .waiting (.sendStats 2) else .mainLoop }
    else if s.main = .finishSearch then
      some { s with main := if s.debugMode then .waiting .sendTime else .reconfigure }
    else none

def step (s : State) : Action → Option State
  | .uci a => uciStep s a
  | .main a => mainStep s a

def system : System State Action := ⟨initial, step⟩

end Model

/-- The UCI thread waits in `join` with `mutex_` held, and the main thread waits
for `mutex_`. -/
def Deadlocked (s : State) : Prop :=
  s.mutex = some .uci ∧ s.uci = .joining ∧ ∃ call, s.main = .waiting call

/-- The main thread is past the call that reports the best move. -/
def Reported : MainPhase → Prop
  | .absent | .finishSearch | .waiting .sendTime | .sending .sendTime => True
  | .reconfigure | .enabling | .finished => True
  | _ => False

/-- The main thread is about to send the total search time. -/
def SendsTime (s : State) : Prop :=
  s.main = .waiting .sendTime ∨ s.main = .finishSearch ∧ s.debugMode = true

instance (s : State) : Decidable (SendsTime s) :=
  inferInstanceAs (Decidable (_ ∨ _ ∧ _))

/-- A search is only started when the thread of the search before it does not
have a string left to send. -/
def StartsClear (s : State) : Action → Prop
  | .uci .go => s.searchStarted = false → ¬SendsTime s
  | _ => True

instance (s : State) : (a : Action) → Decidable (StartsClear s a)
  | .uci .go => inferInstanceAs (Decidable (_ → _))
  | .uci .lock | .uci .reply | .uci (.debug _) | .uci .setOption | .uci .lockConfig => isTrue trivial
  | .uci .unlockConfig | .uci .join | .uci .spawn | .uci .doStartSearch => isTrue trivial
  | .uci .stop | .uci .unlock | .uci .disconnect | .main _ => isTrue trivial

section Order

variable {s s' : State} {a : Action}

/-- The phases in which the UCI thread holds `mutex_`. -/
def Holds : UciPhase → Prop
  | .idle | .disconnecting | .disconnected => False
  | _ => True

/-- Who holds `mutex_`, and what a search that has not reported its move says
about the UCI thread. -/
structure Orderly (s : State) : Prop where
  uci : s.mutex = some .uci ↔ Holds s.uci
  main : s.mutex = some .main ↔ ∃ call, s.main = .sending call
  unreported : ¬Reported s.main → s.searchStarted = true ∨ s.uci = .started
  joining : s.uci = .joining → s.searchStarted = false

theorem orderly_initial : Orderly initial where
  uci := by simp [initial, Holds]
  main := by simp [initial]
  unreported := by simp [initial, Reported]
  joining := by simp [initial]

theorem Orderly.uci_frame (h : Orderly s) (hmutex : s'.mutex = s.mutex) (hmain : s'.main = s.main)
    (hstarted : s'.searchStarted = s.searchStarted) (hholds : Holds s'.uci ↔ Holds s.uci)
    (hu : s.uci ≠ .started) (hj : s'.uci ≠ .joining) : Orderly s' where
  uci := by rw [hmutex, hholds, h.uci]
  main := by rw [hmutex, hmain, h.main]
  unreported := by
    rw [hmain, hstarted]
    intro hr
    exact Or.inl ((h.unreported hr).resolve_right hu)
  joining := fun hj' => absurd hj' hj

theorem uciStep_orderly (h : Orderly s) {a : Uci} (hs : uciStep s a = some s') : Orderly s' := by
  cases a with
  | lock =>
    simp only [uciStep, Option.ite_none_right_eq_some, Option.some.injEq] at hs
    obtain ⟨⟨hu, hm⟩, rfl⟩ := hs
    have hmain := h.main
    have hun := h.unreported
    simp only [hm, hu] at hmain hun
    exact ⟨by simp [Holds], by simpa using hmain, by simpa using hun, by simp⟩
  | reply =>
    simp only [uciStep, Option.ite_none_right_eq_some, Option.some.injEq] at hs
    obtain ⟨hu, rfl⟩ := hs
    refine h.uci_frame rfl rfl rfl ?_ ?_ ?_ <;> simp [hu, Holds]
  | debug on =>
    simp only [uciStep, Option.ite_none_right_eq_some] at hs
    obtain ⟨hu, hs⟩ := hs
    split at hs <;> cases hs <;> refine h.uci_frame rfl rfl rfl ?_ ?_ ?_ <;> simp [hu, Holds]
  | setOption =>
    simp only [uciStep, Option.ite_none_right_eq_some, Option.some.injEq] at hs
    obtain ⟨hu, rfl⟩ := hs
    refine h.uci_frame rfl rfl rfl ?_ ?_ ?_ <;> simp [hu, Holds]
  | lockConfig =>
    simp only [uciStep, Option.ite_none_right_eq_some, Option.some.injEq] at hs
    obtain ⟨⟨hu, -⟩, rfl⟩ := hs
    refine h.uci_frame rfl rfl rfl ?_ ?_ ?_ <;> simp [hu, Holds]
  | unlockConfig =>
    simp only [uciStep, Option.ite_none_right_eq_some, Option.some.injEq] at hs
    obtain ⟨hu, rfl⟩ := hs
    refine h.uci_frame rfl rfl rfl ?_ ?_ ?_ <;> simp [hu, Holds]
  | go =>
    simp only [uciStep, Option.ite_none_right_eq_some] at hs
    obtain ⟨hu, hs⟩ := hs
    split at hs
    · cases hs
      refine h.uci_frame rfl rfl rfl ?_ ?_ ?_ <;> simp [hu, Holds]
    · rename_i hstarted
      have huci := h.uci
      have hun := h.unreported
      simp only [hu, hstarted] at huci hun
      have hr : Reported s.main := by simpa using hun
      simp only [start] at hs
      split at hs <;> cases hs <;>
        exact ⟨by simpa [Holds] using huci, h.main, by simp [hr], by simp [hstarted]⟩
  | join =>
    simp only [uciStep] at hs
    split at hs
    · rename_i hu
      cases hs
      have huci := h.uci
      have hmain := h.main
      simp only [hu.1, hu.2] at huci hmain
      exact ⟨by simpa [Holds] using huci, by simpa using hmain, by simp [Reported], by simp⟩
    · simp only [Option.ite_none_right_eq_some, Option.some.injEq] at hs
      obtain ⟨⟨hu, hm⟩, rfl⟩ := hs
      have huci := h.uci
      have hmain := h.main
      simp only [hu] at huci
      refine ⟨by simpa [Holds] using huci, ?_, by simp [Reported], by simp⟩
      cases hm with
      | inl hm => simpa [hm] using hmain
      | inr hm => simpa [hm] using hmain
  | spawn =>
    simp only [uciStep, Option.ite_none_right_eq_some, Option.some.injEq] at hs
    obtain ⟨hu, rfl⟩ := hs
    have huci := h.uci
    simp only [hu, Holds, iff_true] at huci
    exact ⟨by simp [Holds, huci], by simp [huci], by simp, by simp⟩
  | doStartSearch =>
    simp only [uciStep, Option.ite_none_right_eq_some, Option.some.injEq] at hs
    obtain ⟨hu, rfl⟩ := hs
    have huci := h.uci
    simp only [hu] at huci
    exact ⟨by simpa [Holds] using huci, h.main, by simp, by simp⟩
  | stop =>
    simp only [uciStep, Option.ite_none_right_eq_some, Option.some.injEq] at hs
    obtain ⟨hu, rfl⟩ := hs
    refine h.uci_frame rfl rfl rfl ?_ ?_ ?_ <;> simp [hu, Holds]
  | unlock =>
    simp only [uciStep, Option.ite_none_right_eq_some, Option.some.injEq] at hs
    obtain ⟨hu, rfl⟩ := hs
    have huci := h.uci
    have hmain := h.main
    have hun := h.unreported
    simp only [hu, Holds, iff_true] at huci hun
    simp only [huci] at hmain
    exact ⟨by simp [Holds], by simpa using hmain, by simpa using hun, by simp⟩
  | disconnect =>
    simp only [uciStep, Option.ite_none_right_eq_some, Option.some.injEq] at hs
    obtain ⟨hu, rfl⟩ := hs
    refine h.uci_frame rfl rfl rfl ?_ ?_ ?_ <;> simp [hu, Holds]

theorem Orderly.main_frame (h : Orderly s) (hmutex : s'.mutex = s.mutex) (huci : s'.uci = s.uci)
    (hstarted : s'.searchStarted = s.searchStarted) (hm : ∀ call, s.main ≠ .sending call)
    (hm' : ∀ call, s'.main ≠ .sending call) (hr : Reported s.main → Reported s'.main) :
    Orderly s' where
  uci := by rw [hmutex, huci, h.uci]
  main := by simp [hmutex, h.main, hm, hm']
  unreported := by
    rw [huci, hstarted]
    intro hr'
    exact h.unreported fun hr₀ => hr' (hr hr₀)
  joining := by
    rw [huci, hstarted]
    exact h.joining

theorem mainStep_orderly (h : Orderly s) {a : Main} (hs : mainStep s a = some s') : Orderly s' := by
  cases a with
  | lockConfig =>
    simp only [mainStep] at hs
    split at hs
    · rename_i hm
      cases hs
      refine h.main_frame rfl rfl rfl ?_ ?_ ?_ <;> simp [hm.1, Reported]
    · simp only [Option.ite_none_right_eq_some, Option.some.injEq] at hs
      obtain ⟨⟨hm, -⟩, rfl⟩ := hs
      refine h.main_frame rfl rfl rfl ?_ ?_ ?_ <;> simp [hm, Reported]
  | unlockConfig =>
    simp only [mainStep] at hs
    split at hs
    · rename_i hm
      cases hs
      refine h.main_frame rfl rfl rfl ?_ ?_ ?_ <;> simp [hm, Reported]
    · simp only [Option.ite_none_right_eq_some, Option.some.injEq] at hs
      obtain ⟨hm, rfl⟩ := hs
      refine h.main_frame rfl rfl rfl ?_ ?_ ?_ <;> simp [hm, Reported]
  | extractLines left =>
    simp only [mainStep, Option.ite_none_right_eq_some, Option.some.injEq] at hs
    obtain ⟨hm, rfl⟩ := hs
    refine h.main_frame rfl rfl rfl ?_ ?_ ?_ <;> simp [hm, Reported]
  | printStats =>
    simp only [mainStep, Option.ite_none_right_eq_some, Option.some.injEq] at hs
    obtain ⟨hm, rfl⟩ := hs
    refine h.main_frame rfl rfl rfl ?_ ?_ ?_ <;> simp [hm, Reported]
  | stop =>
    simp only [mainStep, Option.ite_none_right_eq_some, Option.some.injEq] at hs
    obtain ⟨hm, rfl⟩ := hs
    refine h.main_frame rfl rfl rfl ?_ ?_ ?_ <;> simp [hm, Reported]
  | leaveLoop =>
    simp only [mainStep, Option.ite_none_right_eq_some, Option.some.injEq] at hs
    obtain ⟨⟨hm, -⟩, rfl⟩ := hs
    refine h.main_frame rfl rfl rfl ?_ ?_ ?_ <;> simp [hm, Reported]
  | lock =>
    simp only [mainStep] at hs
    split at hs
    · rename_i call hm
      simp only [Option.ite_none_right_eq_some, Option.some.injEq] at hs
      obtain ⟨hfree, rfl⟩ := hs
      have huci := h.uci
      simp only [hfree] at huci
      refine ⟨by simpa using huci, by simp, ?_, h.joining⟩
      intro hr
      apply h.unreported
      rw [hm]
      cases call <;> simp_all [Reported]
    · cases hs
  | unlock written =>
    simp only [mainStep] at hs
    split at hs
    · rename_i call hm
      cases hs
      have hheld : s.mutex = some .main := h.main.mpr ⟨call, hm⟩
      have huci : ¬Holds s.uci := fun hh => by simp [h.uci.mpr hh] at hheld
      refine ⟨by simpa using huci, ?_, ?_, ?_⟩
      · rcases call with (_ | _) | _ | _ | (_ | _) | _ | _ <;> simp [Call.next]
      · intro hr
        -- Only the best move ends a search, and the main thread has reported it then.
        by_cases hc : call = .finishSearch
        · subst hc
          simp [Call.next, Reported] at hr
        · simp only [answer, if_neg hc]
          apply h.unreported
          rw [hm]
          rcases call with (_ | _) | _ | _ | (_ | _) | _ | _ <;> simp_all [Call.next, Reported]
      · intro hj
        have hj : s.uci = .joining := hj
        exact absurd (by simp [hj, Holds]) huci
    · cases hs
  | testDebug =>
    simp only [mainStep] at hs
    split at hs
    · rename_i hm
      cases hs
      refine h.main_frame rfl rfl rfl ?_ ?_ ?_ <;> cases s.debugMode <;> simp [hm, Reported]
    · simp only [Option.ite_none_right_eq_some, Option.some.injEq] at hs
      obtain ⟨hm, rfl⟩ := hs
      refine h.main_frame rfl rfl rfl ?_ ?_ ?_ <;> cases s.debugMode <;> simp [hm, Reported]

theorem step_orderly (h : Orderly s) (hs : step s a = some s') : Orderly s' := by
  cases a with
  | uci a => exact uciStep_orderly h hs
  | main a => exact mainStep_orderly h hs

theorem orderly_of_reach {C : State → Action → Prop} (h : system.Reach C s) : Orderly s := by
  apply h.invariant orderly_initial
  intro s a s' ho _ hs
  exact step_orderly ho hs

end Order

section Deadlock

variable {s s' : State} {a : Action}

/-- While the UCI thread waits, the main thread is on its way to its end. -/
def Clear (s : State) : Prop := s.uci = .joining → Reported s.main ∧ ¬SendsTime s

theorem uciStep_clear (ho : Orderly s) {a : Uci} (hc : StartsClear s (.uci a))
    (hs : uciStep s a = some s') : Clear s' := by
  intro hj
  have ho' := uciStep_orderly ho hs
  cases a with
  | go =>
    simp only [uciStep, Option.ite_none_right_eq_some] at hs
    obtain ⟨hu, hs⟩ := hs
    split at hs
    · cases hs
      simp at hj
    · rename_i hstarted
      have hfree := hc (by simpa using hstarted)
      have hr : Reported s.main := by
        by_contra hr
        simpa [hstarted, hu] using ho.unreported hr
      simp only [start] at hs
      split at hs
      · cases hs
        simp at hj
      · cases hs
        exact ⟨hr, hfree⟩
  | join =>
    simp only [uciStep] at hs
    split at hs
    · cases hs
      simp at hj
    · simp only [Option.ite_none_right_eq_some, Option.some.injEq] at hs
      obtain ⟨-, rfl⟩ := hs
      simp at hj
  | debug on =>
    simp only [uciStep, Option.ite_none_right_eq_some] at hs
    obtain ⟨-, hs⟩ := hs
    split at hs <;> cases hs <;> simp at hj
  | _ =>
    simp only [uciStep, Option.ite_none_right_eq_some, Option.some.injEq] at hs
    obtain ⟨-, rfl⟩ := hs
    simp at hj

theorem mainStep_uci {a : Main} (hs : mainStep s a = some s') : s'.uci = s.uci := by
  cases a <;> simp only [mainStep] at hs <;> split at hs <;> grind

theorem mainStep_clear (ho : Orderly s) (h : Clear s) {a : Main} (hs : mainStep s a = some s') :
    Clear s' := by
  intro hj
  rw [mainStep_uci hs] at hj
  obtain ⟨hr, hfree⟩ := h hj
  have hheld : s.mutex = some .uci := ho.uci.mpr (by simp [hj, Holds])
  cases a with
  | lockConfig =>
    simp only [mainStep] at hs
    split at hs
    · rename_i hm
      simp [hm.1, Reported] at hr
    · simp only [Option.ite_none_right_eq_some, Option.some.injEq] at hs
      obtain ⟨-, rfl⟩ := hs
      simp [Reported, SendsTime]
  | unlockConfig =>
    simp only [mainStep] at hs
    split at hs
    · rename_i hm
      simp [hm, Reported] at hr
    · simp only [Option.ite_none_right_eq_some, Option.some.injEq] at hs
      obtain ⟨-, rfl⟩ := hs
      simp [Reported, SendsTime]
  | lock =>
    simp only [mainStep, hheld] at hs
    split at hs <;> simp at hs
  | unlock written =>
    simp only [mainStep] at hs
    split at hs
    · rename_i call hm
      have := ho.main.mpr ⟨call, hm⟩
      simp [hheld] at this
    · cases hs
  | testDebug =>
    simp only [mainStep] at hs
    split at hs
    · rename_i hm
      simp [hm, Reported] at hr
    · simp only [Option.ite_none_right_eq_some, Option.some.injEq] at hs
      obtain ⟨hm, rfl⟩ := hs
      have hd : s.debugMode = false := by simpa [SendsTime, hm] using hfree
      simp [hd, Reported, SendsTime]
  | leaveLoop =>
    simp only [mainStep, Option.ite_none_right_eq_some] at hs
    simp [hs.1.1, Reported] at hr
  | _ =>
    simp only [mainStep, Option.ite_none_right_eq_some] at hs
    simp [hs.1, Reported] at hr

theorem clear_of_reach (h : system.Reach StartsClear s) : Clear s := by
  have hboth : Orderly s ∧ Clear s := by
    apply h.invariant ⟨orderly_initial, by simp [Clear, system, initial]⟩
    intro s a s' hi hc hs
    refine ⟨step_orderly hi.1 hs, ?_⟩
    cases a with
    | uci a => exact uciStep_clear hi.1 hc hs
    | main a => exact mainStep_clear hi.1 hi.2 hs
  exact hboth.2

theorem Clear.not_deadlocked (h : Clear s) : ¬Deadlocked s := by
  intro hd
  obtain ⟨-, hj, call, hm⟩ := hd
  obtain ⟨hr, hfree⟩ := h hj
  cases call with
  | sendTime => exact hfree (Or.inl hm)
  | _ => simp [hm, Reported] at hr

theorem Clear.run_main (acts : List Main) (ho : Orderly s) (h : Clear s)
    (hr : system.run s (acts.map .main) = some s') : Clear s' := by
  induction acts generalizing s with
  | nil =>
    cases hr
    exact h
  | cons a acts ih =>
    obtain ⟨t, ht, hr'⟩ := Option.bind_eq_some_iff.mp hr
    exact ih (mainStep_orderly ho ht) (mainStep_clear ho h ht) hr'

theorem Deadlocked.stuck (h : Deadlocked s) (a : Action) : step s a = none := by
  obtain ⟨hheld, hj, call, hm⟩ := h
  cases a with
  | uci a => cases a <;> simp [step, uciStep, hj, hm]
  | main a => cases a <;> simp [step, mainStep, hheld, hm]

theorem uciStep_go (ho : Orderly s) (hs : uciStep s .go = some s')
    (hstarted : s.searchStarted = false) (hmain : s.main ≠ .absent) :
    s' = { s with stopped := true, uci := .joining } ∧ s.mutex = some .uci := by
  simp only [uciStep, Option.ite_none_right_eq_some] at hs
  obtain ⟨hu, hs⟩ := hs
  rw [if_neg (by simp [hstarted]), start, if_neg hmain] at hs
  cases hs
  exact ⟨rfl, ho.uci.mpr (by simp [hu, Holds])⟩

theorem SendsTime.deadlocks (h : SendsTime s) (ho : Orderly s) (hs : uciStep s .go = some s')
    (hstarted : s.searchStarted = false) :
    ∃ (acts : List Main) (t : State), system.run s' (acts.map .main) = some t ∧ Deadlocked t := by
  cases h with
  | inl hm =>
    obtain ⟨rfl, hheld⟩ := uciStep_go ho hs hstarted (by simp [hm])
    exact ⟨[], _, rfl, hheld, rfl, _, hm⟩
  | inr h =>
    obtain ⟨hm, hd⟩ := h
    obtain ⟨rfl, hheld⟩ := uciStep_go ho hs hstarted (by simp [hm])
    refine ⟨[.testDebug], { s with stopped := true, uci := .joining, main := .waiting .sendTime },
      ?_, hheld, rfl, _, rfl⟩
    simp [System.run, system, step, mainStep, hm, hd]

/-- No run deadlocks in which each search starts clear; a search that does not
is waited for forever on some schedule, and no other is. -/
theorem deadlocked_iff (s : State) :
    (system.Reach StartsClear s → ¬Deadlocked s) ∧
    (∀ s', system.Reachable s → step s (.uci .go) = some s' →
      ((∃ (acts : List Main) (t : State),
        system.run s' (acts.map .main) = some t ∧ Deadlocked t ∧ ∀ a, step t a = none) ↔
      ¬StartsClear s (.uci .go))) := by
  constructor
  · intro h
    exact (clear_of_reach h).not_deadlocked
  · intro s' h hs
    have ho := orderly_of_reach h
    constructor
    · intro hd hc
      obtain ⟨acts, t, hr, hd, -⟩ := hd
      have hc' : Clear s' := uciStep_clear ho hc hs
      exact (hc'.run_main acts (step_orderly ho hs) hr).not_deadlocked hd
    · intro hc
      simp only [StartsClear, Classical.not_imp, not_not] at hc
      obtain ⟨acts, t, hr, hd⟩ := hc.2.deadlocks ho hs hc.1
      exact ⟨acts, t, hr, hd, hd.stuck⟩

/-- A search from the first `go` to the report of its move, in debug mode. -/
def debugSearch : List Action :=
  [.uci .lock, .uci (.debug true), .uci .unlock, .uci .lock, .uci .go, .uci .spawn,
    .uci .doStartSearch, .uci .unlock, .main .lockConfig, .main .unlockConfig, .main .stop,
    .main .leaveLoop, .main .lock, .main (.unlock true)]

/-- The next `go` arrives after the total search time is sent. -/
def patientGo : List Action :=
  debugSearch ++ [.main .testDebug, .main .lock, .main (.unlock true), .uci .lock, .uci .go]

theorem deadlocked_iff_patientGo :
    ∃ s, system.run initial patientGo = some s ∧ s.uci = .joining ∧ ¬Deadlocked s := by
  refine ⟨_, rfl, rfl, ?_⟩
  apply (deadlocked_iff _).1
  exact System.Reach.init.run patientGo (by decide) rfl

/-- The next `go` arrives before the total search time is sent. -/
def quickGo : List Action := debugSearch ++ [.uci .lock, .uci .go, .main .testDebug]

theorem not_not_deadlocked : ¬∀ s, system.Reachable s → ¬Deadlocked s := by
  intro h
  exact h _ (System.reachable_of_run quickGo .init rfl) ⟨rfl, rfl, _, rfl⟩

end Deadlock

end SoFCheck.BotApi.UciConnector
