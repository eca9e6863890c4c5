import Mathlib

namespace SoFCheck.Util.Scan

variable {α : Type} [DecidableEq α] (p : α → Bool)

/-- What is seen along a line of sight: everything up to and including the
first obstacle. -/
def scan : List α → List α
  | [] => []
  | a :: l => a :: if p a then [] else scan l

/-- The elements strictly before the first occurrence of `a`. -/
def before (l : List α) (a : α) : List α := l.takeWhile (fun b => b ≠ a)

@[simp] theorem before_nil (a : α) : before [] a = [] := rfl

@[simp] theorem before_self (a : α) (l : List α) : before (a :: l) a = [] := by simp [before]

theorem before_cons_of_ne {a b : α} (l : List α) (h : b ≠ a) :
    before (b :: l) a = b :: before l a := by simp [before, h]

theorem mem_of_mem_before {l : List α} {a b : α} (h : b ∈ before l a) : b ∈ l :=
  (List.takeWhile_prefix _).subset h

theorem ne_of_mem_before {l : List α} {a b : α} (h : b ∈ before l a) : b ≠ a := by
  simpa using List.mem_takeWhile_imp h

theorem mem_scan {l : List α} {a : α} :
    a ∈ scan p l ↔ a ∈ l ∧ ∀ b ∈ before l a, p b = false := by
  induction l with
  | nil => simp [scan]
  | cons b l ih =>
    by_cases hba : b = a
    · subst hba
      simp [scan]
    · rw [before_cons_of_ne l hba, List.forall_mem_cons, scan, List.mem_cons, List.mem_cons]
      cases hb : p b with
      | true => simp [Ne.symm hba]
      | false => simp [Ne.symm hba, ih]

theorem mem_before_or {l : List α} {a b : α} (ha : a ∈ l) (hb : b ∈ l) (hab : a ≠ b) :
    a ∈ before l b ∨ b ∈ before l a := by
  induction l with
  | nil => simp at ha
  | cons c l ih =>
    by_cases hca : c = a
    · subst hca
      exact Or.inl (by simp [before_cons_of_ne l hab])
    by_cases hcb : c = b
    · subst hcb
      exact Or.inr (by simp [before_cons_of_ne l (Ne.symm hab)])
    have ha' : a ∈ l := (List.mem_cons.mp ha).resolve_left (Ne.symm hca)
    have hb' : b ∈ l := (List.mem_cons.mp hb).resolve_left (Ne.symm hcb)
    rw [before_cons_of_ne l hca, before_cons_of_ne l hcb]
    exact (ih ha' hb').imp (List.mem_cons_of_mem c) (List.mem_cons_of_mem c)

end SoFCheck.Util.Scan
