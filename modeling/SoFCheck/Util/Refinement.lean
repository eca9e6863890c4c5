import Mathlib

namespace SoFCheck.Util.Refinement

variable {Op Out σ τ : Type}

/-- The answers to a list of operations and the state after them, if every operation
comes to an end. -/
def runAll (step : Op → σ → Option (Out × σ)) : List Op → σ → Option (List Out × σ)
  | [], s => some ([], s)
  | op :: ops, s =>
    (step op s).bind fun r => (runAll step ops r.2).map fun rest => (r.1 :: rest.1, rest.2)

/-- The same for operations that always have an answer. -/
def specAll (spec : Op → τ → Out × τ) : List Op → τ → List Out × τ
  | [], a => ([], a)
  | op :: ops, a =>
    let rest := specAll spec ops (spec op a).2
    ((spec op a).1 :: rest.1, rest.2)

/-- Every operation is allowed in the state in which it is carried out. -/
def Allowed (spec : Op → τ → Out × τ) (P : Op → τ → Prop) : List Op → τ → Prop
  | [], _ => True
  | op :: ops, a => P op a ∧ Allowed spec P ops (spec op a).2

instance decidableAllowed {spec : Op → τ → Out × τ} {P : Op → τ → Prop}
    [∀ op a, Decidable (P op a)] : (ops : List Op) → (a : τ) → Decidable (Allowed spec P ops a)
  | [], _ => isTrue trivial
  | op :: ops, a =>
    have : Decidable (Allowed spec P ops (spec op a).2) := decidableAllowed ops (spec op a).2
    inferInstanceAs (Decidable (P op a ∧ Allowed spec P ops (spec op a).2))

variable {step : Op → σ → Option (Out × σ)} {spec : Op → τ → Out × τ} {P : Op → τ → Prop}
  {R : σ → τ → Prop} {s : σ} {a : τ}

theorem refines (hstep : ∀ op s a, R s a → P op a →
      ∃ s', step op s = some ((spec op a).1, s') ∧ R s' (spec op a).2)
    (ops : List Op) (hR : R s a) (hops : Allowed spec P ops a) :
    ∃ s', runAll step ops s = some ((specAll spec ops a).1, s') ∧ R s' (specAll spec ops a).2 := by
  induction ops generalizing s a with
  | nil => exact ⟨s, rfl, hR⟩
  | cons op ops ih =>
    obtain ⟨s₁, hs₁, hR₁⟩ := hstep op s a hR hops.1
    obtain ⟨s₂, hs₂, hR₂⟩ := ih hR₁ hops.2
    refine ⟨s₂, ?_, hR₂⟩
    rw [runAll, hs₁, Option.bind_some, hs₂]
    rfl

end SoFCheck.Util.Refinement
