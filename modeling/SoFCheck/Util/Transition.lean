import Mathlib

namespace SoFCheck.Util.Transition

variable {σ α : Type}

/-- A system whose threads take atomic steps. An action names the thread and
what it does; `step` is undefined where the thread cannot do it. -/
structure System (σ α : Type) where
  init : σ
  step : σ → α → Option σ

namespace System

variable (S : System σ α)

/-- The state after a schedule, when every action of it is possible. -/
def run (s : σ) : List α → Option σ
  | [] => some s
  | a :: acts => (S.step s a).bind fun s' => run s' acts

/-- The states of the runs whose steps all meet a condition on the state before
the step and the action. -/
inductive Reach (C : σ → α → Prop) : σ → Prop
  | init : Reach C S.init
  | step {s s' : σ} {a : α} : Reach C s → C s a → S.step s a = some s' → Reach C s'

/-- All states of all runs. -/
abbrev Reachable : σ → Prop := S.Reach fun _ _ => True

variable {S} {C : σ → α → Prop} {s s' : σ}

theorem Reach.invariant {I : σ → Prop} (h : S.Reach C s) (hinit : I S.init)
    (hstep : ∀ s a s', I s → C s a → S.step s a = some s' → I s') : I s := by
  induction h with
  | init => exact hinit
  | step _ hc hs ih => exact hstep _ _ _ ih hc hs

theorem Reach.mono {C' : σ → α → Prop} (h : S.Reach C s) (hc : ∀ s a, C s a → C' s a) :
    S.Reach C' s := by
  induction h with
  | init => exact .init
  | step _ hca hs ih => exact .step ih (hc _ _ hca) hs

theorem Reach.simulate {τ β : Type} {T : System τ β} {D : τ → β → Prop} {view : σ → τ}
    (h : S.Reach C s) (hinit : view S.init = T.init)
    (hstep : ∀ s a s', S.Reach C s → C s a → S.step s a = some s' →
      view s' = view s ∨ ∃ b, D (view s) b ∧ T.step (view s) b = some (view s')) :
    T.Reach D (view s) := by
  induction h with
  | init =>
    rw [hinit]
    exact .init
  | step hr hc hs ih =>
    obtain he | ⟨b, hb, ht⟩ := hstep _ _ _ hr hc hs
    · rw [he]
      exact ih
    · exact ih.step hb ht

/-- All the actions of a schedule meet the condition. -/
def Meets (S : System σ α) (C : σ → α → Prop) (s : σ) : List α → Prop
  | [] => True
  | a :: acts => C s a ∧ ∀ s', S.step s a = some s' → Meets S C s' acts

instance decidableMeets [∀ s a, Decidable (C s a)] :
    (acts : List α) → (s : σ) → Decidable (S.Meets C s acts)
  | [], _ => isTrue trivial
  | a :: acts, s =>
    match h : S.step s a with
    | none => decidable_of_iff (C s a) (by simp [Meets, h])
    | some s' =>
      have := decidableMeets acts s'
      decidable_of_iff (C s a ∧ S.Meets C s' acts) (by simp [Meets, h])

theorem Reach.run (acts : List α) (h : S.Reach C s) (hm : S.Meets C s acts)
    (hr : S.run s acts = some s') : S.Reach C s' := by
  induction acts generalizing s with
  | nil =>
    cases hr
    exact h
  | cons a acts ih =>
    obtain ⟨t, ht, hr'⟩ := Option.bind_eq_some_iff.mp hr
    apply ih (h.step hm.1 ht) (hm.2 t ht) hr'

theorem reachable_of_run (acts : List α) (h : S.Reachable s) (hr : S.run s acts = some s') :
    S.Reachable s' := by
  have hm : ∀ (acts : List α) (s : σ), S.Meets (fun _ _ => True) s acts := by
    intro acts
    induction acts with
    | nil => exact fun _ => trivial
    | cons a acts ih => exact fun s => ⟨trivial, fun s' _ => ih s'⟩
  exact h.run acts (hm acts s) hr

section Events

variable {ε : Type}

/-- What an observer sees of a schedule. -/
def trace (S : System σ α) (emit : σ → α → List ε) (s : σ) : List α → List ε
  | [] => []
  | a :: acts =>
    match S.step s a with
    | some s' => emit s a ++ trace S emit s' acts
    | none => []

/-- The part of an event in a protocol that opens and closes a session. -/
inductive Turn where
  | opens
  | inside
  | closes

/-- Follow the protocol, as long as an event is in its place. -/
def advance (turn : ε → Option Turn) (isOpen : Bool) (e : ε) : Option Bool :=
  match turn e with
  | none => some isOpen
  | some .opens => if isOpen then none else some true
  | some .inside => if isOpen then some true else none
  | some .closes => if isOpen then some false else none

/-- The sessions of a list of events are opened and closed in turn, and what
belongs inside a session is inside one. -/
def Bracketed (turn : ε → Option Turn) (events : List ε) : Prop :=
  (events.foldlM (advance turn) false).isSome = true

instance (turn : ε → Option Turn) (events : List ε) : Decidable (Bracketed turn events) :=
  inferInstanceAs (Decidable (_ = true))

theorem trace_advance {emit : σ → α → List ε} (turn : ε → Option Turn) (I : σ → Prop)
    (isOpen : σ → Bool)
    (hstep : ∀ s a s', I s → S.step s a = some s' → I s' ∧
      (emit s a).foldlM (advance turn) (isOpen s) = some (isOpen s'))
    (acts : List α) (h : I s) (hr : S.run s acts = some s') :
    (S.trace emit s acts).foldlM (advance turn) (isOpen s) = some (isOpen s') := by
  induction acts generalizing s with
  | nil =>
    cases hr
    rfl
  | cons a acts ih =>
    obtain ⟨t, ht, hr'⟩ := Option.bind_eq_some_iff.mp hr
    obtain ⟨hI, hopen⟩ := hstep s a t h ht
    rw [trace, ht, List.foldlM_append, hopen]
    exact ih hI hr'

end Events

end System

end SoFCheck.Util.Transition
