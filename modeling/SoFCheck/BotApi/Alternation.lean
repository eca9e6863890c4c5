import SoFCheck.BotApi.UciConnector

namespace SoFCheck.BotApi.Alternation

open SoFCheck.Util.Transition SoFCheck.BotApi.UciConnector

/-- What the other side of the connector and the engine see. -/
inductive Event where
  | goAccepted
  /-- A line of `sendResult` or `sendNodeCount`. -/
  | infoLine
  | bestmoveLine
  | searchSpawned
  /-- The main thread has called `finishSearch` of the server. -/
  | searchFinished
  deriving DecidableEq

/-- What a call of the main thread prints, if the stream takes it. -/
def printed (s : State) (written : Bool) : Call → List Event
  | .sendResult _ | .sendNodeCount => if s.searchStarted && written then [.infoLine] else []
  | .finishSearch =>
    (if s.searchStarted && written then [.bestmoveLine] else []) ++ [.searchFinished]
  | _ => []

def events (s : State) : Action → List Event
  | .uci .go => if s.searchStarted then [] else [.goAccepted]
  | .uci .spawn => [.searchSpawned]
  | .main (.unlock written) =>
    match s.main with
    | .sending call => printed s written call
    | _ => []
  | _ => []

/-- A search from the point of view of the other side. -/
def goTurn : Event → Option System.Turn
  | .goAccepted => some .opens
  | .infoLine => some .inside
  | .bestmoveLine => some .closes
  | _ => none

/-- A search from the point of view of the engine. -/
def searchTurn : Event → Option System.Turn
  | .searchSpawned => some .opens
  | .searchFinished => some .closes
  | _ => none

/-- A `go` has been accepted and is about to start the search. -/
def Starting : UciPhase → Bool
  | .joining | .joined | .started => true
  | _ => false

def goOpen (s : State) : Bool := s.searchStarted || Starting s.uci

/-- The main thread has not yet reported its best move. -/
def Unreported : MainPhase → Bool
  | .absent | .finishSearch | .waiting .sendTime | .sending .sendTime => false
  | .reconfigure | .enabling | .finished => false
  | _ => true

def searchOpen (s : State) : Bool := Unreported s.main

section Steps

variable {s s' : State} {a : Action}

/-- The search is not yet known as started while the last thread is waited for. -/
structure Paired (s : State) : Prop extends Orderly s where
  starting : Starting s.uci = true → s.searchStarted = false
  joined : s.uci = .joined → s.main = .absent

theorem paired_initial : Paired initial where
  toOrderly := orderly_initial
  starting := by simp [initial]
  joined := by simp [initial]

/-- The events of a step are in their places. -/
def InTurn (s : State) (a : Action) (s' : State) : Prop :=
  (events s a).foldlM (System.advance goTurn) (goOpen s) = some (goOpen s') ∧
    (events s a).foldlM (System.advance searchTurn) (searchOpen s) = some (searchOpen s')

theorem inTurn_silent (hevents : events s a = []) (hgo : goOpen s' = goOpen s)
    (hsearch : searchOpen s' = searchOpen s) : InTurn s a s' := by
  rw [InTurn, hevents, hgo, hsearch]
  exact ⟨rfl, rfl⟩

theorem paired_command (ho : Orderly s') (hevents : events s a = [])
    (hstarted : s'.searchStarted = s.searchStarted) (hmain : s'.main = s.main)
    (hu : Starting s.uci = false) (hu' : Starting s'.uci = false) : Paired s' ∧ InTurn s a s' := by
  refine ⟨⟨ho, fun hs => ?_, fun hj => ?_⟩, inTurn_silent hevents ?_ ?_⟩
  · simp [hu'] at hs
  · simp [hj, Starting] at hu'
  · rw [goOpen, goOpen, hstarted, hu, hu']
  · rw [searchOpen, searchOpen, hmain]

theorem uciStep_inTurn (h : Paired s) {a : Uci} (hs : uciStep s a = some s') :
    Paired s' ∧ InTurn s (.uci a) s' := by
  have ho := uciStep_orderly h.toOrderly hs
  cases a with
  | go =>
    simp only [uciStep, Option.ite_none_right_eq_some] at hs
    obtain ⟨hu, hs⟩ := hs
    split at hs
    · rename_i hstarted
      cases hs
      exact paired_command ho (by simp [events, hstarted]) rfl rfl (by simp [hu, Starting]) rfl
    · rename_i hstarted
      have hstarted : s.searchStarted = false := Bool.eq_false_iff.mpr hstarted
      have hidle : Starting s.uci = false := by simp [hu, Starting]
      have hturn : ∀ u : UciPhase, ∀ stopped, Starting u = true →
          InTurn s (.uci .go) { s with stopped := stopped, uci := u } := by
        intro u stopped hu'
        simp [InTurn, events, hstarted, goOpen, hidle, hu', System.advance, goTurn, searchOpen,
          searchTurn]
      simp only [start] at hs
      split at hs
      · rename_i hm
        cases hs
        exact ⟨⟨ho, fun _ => hstarted, fun _ => hm⟩, hturn .joined s.stopped rfl⟩
      · cases hs
        exact ⟨⟨ho, fun _ => hstarted, fun he => by cases he⟩, hturn .joining true rfl⟩
  | join =>
    simp only [uciStep] at hs
    split at hs
    · rename_i hu
      cases hs
      have hstarted := h.starting (by simp [hu.1, Starting])
      refine ⟨⟨ho, fun _ => hstarted, fun _ => rfl⟩, inTurn_silent rfl ?_ ?_⟩
      · simp [goOpen, hu.1, Starting]
      · simp [searchOpen, hu.2, Unreported]
    · simp only [Option.ite_none_right_eq_some, Option.some.injEq] at hs
      obtain ⟨⟨hu, hm⟩, rfl⟩ := hs
      refine ⟨⟨ho, (fun he => by cases he), fun he => by cases he⟩, inTurn_silent rfl ?_ ?_⟩
      · simp [goOpen, hu, Starting]
      · cases hm with
        | inl hm => simp [searchOpen, hm, Unreported]
        | inr hm => simp [searchOpen, hm, Unreported]
  | spawn =>
    simp only [uciStep, Option.ite_none_right_eq_some, Option.some.injEq] at hs
    obtain ⟨hu, rfl⟩ := hs
    refine ⟨⟨ho, fun _ => h.starting (by simp [hu, Starting]), fun he => by cases he⟩, ?_⟩
    simp [InTurn, events, goOpen, hu, Starting, System.advance, goTurn, searchOpen, searchTurn,
      h.joined hu, Unreported]
  | doStartSearch =>
    simp only [uciStep, Option.ite_none_right_eq_some, Option.some.injEq] at hs
    obtain ⟨hu, rfl⟩ := hs
    refine ⟨⟨ho, (fun he => by cases he), fun he => by cases he⟩, inTurn_silent rfl ?_ rfl⟩
    simp [goOpen, hu, Starting]
  | debug on =>
    simp only [uciStep, Option.ite_none_right_eq_some] at hs
    obtain ⟨hu, hs⟩ := hs
    split at hs <;> cases hs <;> exact paired_command ho rfl rfl rfl (by simp [hu, Starting]) rfl
  | lock | lockConfig =>
    simp only [uciStep, Option.ite_none_right_eq_some, Option.some.injEq] at hs
    obtain ⟨⟨hu, -⟩, rfl⟩ := hs
    exact paired_command ho rfl rfl rfl (by simp [hu, Starting]) rfl
  | _ =>
    simp only [uciStep, Option.ite_none_right_eq_some, Option.some.injEq] at hs
    obtain ⟨hu, rfl⟩ := hs
    exact paired_command ho rfl rfl rfl (by simp [hu, Starting]) rfl

/-- Of the steps of the main thread only those that give back `mutex_` are seen,
and only the call that reports the best move changes the state of a search. -/
theorem mainStep_quiet {a : Main} (hs : mainStep s a = some s') (ha : ∀ written, a ≠ .unlock written) :
    s'.searchStarted = s.searchStarted ∧ Unreported s'.main = Unreported s.main := by
  cases a with
  | unlock written => exact absurd rfl (ha written)
  | lock =>
    simp only [mainStep] at hs
    split at hs
    · rename_i call hm
      simp only [Option.ite_none_right_eq_some, Option.some.injEq] at hs
      obtain ⟨-, rfl⟩ := hs
      refine ⟨rfl, ?_⟩
      rw [hm]
      cases call <;> rfl
    · cases hs
  | testDebug =>
    simp only [mainStep] at hs
    split at hs
    · rename_i hm
      cases hs
      cases s.debugMode <;> simp [hm, Unreported]
    · simp only [Option.ite_none_right_eq_some, Option.some.injEq] at hs
      obtain ⟨hm, rfl⟩ := hs
      cases s.debugMode <;> simp [hm, Unreported]
  | lockConfig =>
    simp only [mainStep] at hs
    split at hs
    · rename_i hm
      cases hs
      simp [hm.1, Unreported]
    · simp only [Option.ite_none_right_eq_some, Option.some.injEq] at hs
      obtain ⟨⟨hm, -⟩, rfl⟩ := hs
      simp [hm, Unreported]
  | unlockConfig =>
    simp only [mainStep] at hs
    split at hs
    · rename_i hm
      cases hs
      simp [hm, Unreported]
    · simp only [Option.ite_none_right_eq_some, Option.some.injEq] at hs
      obtain ⟨hm, rfl⟩ := hs
      simp [hm, Unreported]
  | leaveLoop =>
    simp only [mainStep, Option.ite_none_right_eq_some, Option.some.injEq] at hs
    obtain ⟨⟨hm, -⟩, rfl⟩ := hs
    simp [hm, Unreported]
  | _ =>
    simp only [mainStep, Option.ite_none_right_eq_some, Option.some.injEq] at hs
    obtain ⟨hm, rfl⟩ := hs
    simp [hm, Unreported]

theorem mainStep_inTurn (h : Paired s) {a : Main} (hs : mainStep s a = some s') :
    Paired s' ∧ InTurn s (.main a) s' := by
  have ho := mainStep_orderly h.toOrderly hs
  have huci := mainStep_uci hs
  have hjoined : s'.uci ≠ .joined := by
    intro hj
    have hm := h.joined (huci ▸ hj)
    cases a <;> simp [mainStep, hm] at hs
  by_cases ha : ∀ written, a ≠ .unlock written
  · obtain ⟨hstarted, hunreported⟩ := mainStep_quiet hs ha
    refine ⟨⟨ho, ?_, fun hj => absurd hj hjoined⟩, inTurn_silent ?_ ?_ ?_⟩
    · rw [huci, hstarted]
      exact h.starting
    · cases a with
      | unlock written => exact absurd rfl (ha written)
      | _ => rfl
    · rw [goOpen, goOpen, huci, hstarted]
    · rw [searchOpen, searchOpen, hunreported]
  · push Not at ha
    obtain ⟨written, rfl⟩ := ha
    simp only [mainStep] at hs
    split at hs
    · rename_i call hm
      cases hs
      have hheld : s.mutex = some .main := h.main.mpr ⟨call, hm⟩
      have hu : Starting s.uci = false := by
        have hh : ¬Holds s.uci := fun hh => by simp [h.uci.mpr hh] at hheld
        cases hu : s.uci <;> simp_all [Starting, Holds]
      refine ⟨⟨ho, fun hs => by simp [hu] at hs, fun hj => absurd hj hjoined⟩, ?_⟩
      rcases call with (_ | _) | _ | _ | (_ | _) | _ | _ <;> cases hs : s.searchStarted <;>
        cases written <;> simp [InTurn, events, hm, printed, hs, goOpen, hu, answer, System.advance,
          goTurn, searchOpen, searchTurn, Call.next, Unreported]
    · cases hs

theorem step_inTurn (h : Paired s) (hs : step s a = some s') : Paired s' ∧ InTurn s a s' := by
  cases a with
  | uci a => exact uciStep_inTurn h hs
  | main a => exact mainStep_inTurn h hs

/-- In every run, searches are accepted and answered in turn, and results are only
printed in between; each thread that is spawned reports once. -/
theorem go_bestmove_alternate {acts : List Action} (h : system.run initial acts = some s) :
    System.Bracketed goTurn (system.trace events initial acts) ∧
      System.Bracketed searchTurn (system.trace events initial acts) := by
  constructor
  · have hgo := System.trace_advance goTurn Paired goOpen
      (fun _ _ _ hI hs => ⟨(step_inTurn hI hs).1, (step_inTurn hI hs).2.1⟩) acts paired_initial h
    rw [System.Bracketed]
    exact Option.isSome_of_eq_some hgo
  · have hsearch := System.trace_advance searchTurn Paired searchOpen
      (fun _ _ _ hI hs => ⟨(step_inTurn hI hs).1, (step_inTurn hI hs).2.2⟩) acts paired_initial h
    rw [System.Bracketed]
    exact Option.isSome_of_eq_some hsearch

theorem go_bestmove_alternate_debugSearch : ∃ s, system.run initial debugSearch = some s ∧
    System.Bracketed goTurn (system.trace events initial debugSearch) ∧
    System.Bracketed searchTurn (system.trace events initial debugSearch) :=
  ⟨_, rfl, go_bestmove_alternate rfl⟩

example : system.trace events initial debugSearch =
    [.goAccepted, .searchSpawned, .bestmoveLine, .searchFinished] := rfl

end Steps

end SoFCheck.BotApi.Alternation
