import Mathlib

namespace SoFCheck.Util.Sight

variable {α : Type*} (p : α → Bool)

/-- The elements before the first watcher, which `p` holds of. -/
def lead (l : List α) : Nat := (l.takeWhile fun a => !p a).length

/-- What all watchers of a line see to their right up to the next one. -/
def seen : List α → Nat
  | [] => 0
  | a :: l => (if p a then lead p l else 0) + seen l

theorem lead_cons (a : α) (l : List α) : lead p (a :: l) = if p a then 0 else lead p l + 1 := by
  rw [lead, List.takeWhile_cons]
  cases p a <;> rfl

theorem seen_add (l : List α) : seen p l + l.countP p + lead p l = l.length := by
  induction l with
  | nil => rfl
  | cons a l ih =>
    rw [seen, lead_cons, List.countP_cons, List.length_cons]
    cases p a with
    | true =>
      rw [if_pos rfl, if_pos rfl, if_pos rfl]
      omega
    | false =>
      rw [if_neg Bool.false_ne_true, if_neg Bool.false_ne_true, if_neg Bool.false_ne_true]
      omega

theorem lead_of_countP_eq_zero {l : List α} (h : l.countP p = 0) : lead p l = l.length := by
  induction l with
  | nil => rfl
  | cons a l ih =>
    rw [List.countP_cons] at h
    have ha : ¬p a = true := by
      intro ha
      rw [if_pos ha] at h
      omega
    rw [lead_cons, if_neg ha, ih (by omega), List.length_cons]

theorem lead_append {l : List α} (h : l.countP p = 0) (a : α) (ha : p a = true) (r : List α) :
    lead p (l ++ a :: r) = l.length := by
  induction l with
  | nil => rw [List.nil_append, lead_cons, if_pos ha, List.length_nil]
  | cons b l ih =>
    rw [List.countP_cons] at h
    have hb : ¬p b = true := by
      intro hb
      rw [if_pos hb] at h
      omega
    rw [List.cons_append, lead_cons, if_neg hb, ih (by omega), List.length_cons]

theorem lead_add_lead {l : List α} (h : l.countP p = 1) :
    lead p l + lead p l.reverse + 1 = l.length := by
  have hpos : 0 < l.countP p := by omega
  obtain ⟨a, hmem, ha⟩ := List.countP_pos_iff.1 hpos
  obtain ⟨l₁, l₂, rfl⟩ := List.append_of_mem hmem
  rw [List.countP_append, List.countP_cons, if_pos ha] at h
  have h₁ : l₁.countP p = 0 := by omega
  have h₂ : l₂.reverse.countP p = 0 := by
    rw [List.countP_reverse]
    omega
  rw [lead_append p h₁ a ha, List.reverse_append, List.reverse_cons, List.append_assoc,
    List.singleton_append, lead_append p h₂ a ha, List.length_reverse, List.length_append,
    List.length_cons]
  omega

theorem sum_lead_eq_seen {l : List α} {f : α → Nat}
    (h : ∀ l₁ a l₂, l = l₁ ++ a :: l₂ → f a = lead p l₂) : ((l.filter p).map f).sum = seen p l := by
  induction l with
  | nil => rfl
  | cons a l ih =>
    have hrest := ih fun l₁ b l₂ heq => h (a :: l₁) b l₂ (congrArg (a :: ·) heq)
    rw [List.filter_cons, seen]
    split_ifs with ha
    · rw [List.map_cons, List.sum_cons, hrest, h [] a l rfl]
    · rw [hrest, Nat.zero_add]

theorem seen_both (l : List α) :
    l.countP p = 0 ∧ seen p l + seen p l.reverse = 0 ∨
      l.countP p = 1 ∧ seen p l + seen p l.reverse + 1 = l.length ∨
      2 ≤ l.countP p ∧ seen p l + seen p l.reverse + 2 * l.countP p + lead p l + lead p l.reverse =
        2 * l.length := by
  have hright := seen_add p l
  have hleft := seen_add p l.reverse
  rw [List.countP_reverse, List.length_reverse] at hleft
  rcases Nat.lt_trichotomy (l.countP p) 1 with h | h | h
  · have hzero : l.countP p = 0 := by omega
    have hlead := lead_of_countP_eq_zero p hzero
    have hlead' := lead_of_countP_eq_zero p (List.countP_reverse.trans hzero)
    rw [List.length_reverse] at hlead'
    exact Or.inl ⟨hzero, by omega⟩
  · have hlead := lead_add_lead p h
    exact Or.inr (Or.inl ⟨h, by omega⟩)
  · exact Or.inr (Or.inr ⟨h, by omega⟩)

section Rooms

variable {p} {l : List α} {g : α → Nat}

theorem countP_mul_le {m : Nat} (hg : ∀ a ∈ l, m ≤ g a) :
    l.countP p * m ≤ ((l.filter p).map g).sum := by
  have h := List.card_nsmul_le_sum ((l.filter p).map g) m (by
    intro x hx
    obtain ⟨a, ha, rfl⟩ := List.mem_map.1 hx
    exact hg a (List.mem_filter.1 ha).1)
  rwa [List.length_map, ← List.countP_eq_length_filter, smul_eq_mul] at h

theorem seen_ends_le {first last : α} {mid : List α} (hlen : mid.length ≤ 6)
    (hmany : 2 ≤ (first :: (mid ++ [last])).countP p) (hfirst : 4 ≤ g first) (hlast : 4 ≤ g last)
    (hmid : ∀ a ∈ mid, 3 ≤ g a) :
    seen p (first :: (mid ++ [last])) + seen p (first :: (mid ++ [last])).reverse + 2 ≤
      mid.length + (((first :: (mid ++ [last])).filter p).map g).sum := by
  have hreverse : (first :: (mid ++ [last])).reverse = last :: (mid.reverse ++ [first]) := by simp
  have hright := seen_add p (first :: (mid ++ [last]))
  have hleft := seen_add p (last :: (mid.reverse ++ [first]))
  have hsum := countP_mul_le (p := p) hmid
  rw [hreverse]
  rw [lead_cons] at hright hleft
  simp only [List.countP_cons, List.countP_append, List.countP_nil, List.countP_reverse,
    List.length_cons, List.length_append, List.length_nil, List.length_reverse] at hright hleft hmany
  rw [List.filter_cons, List.filter_append, List.filter_singleton]
  cases hp : p first <;> cases hq : p last <;>
    simp only [hp, hq, if_true, if_false, Bool.false_eq_true, Bool.cond_true, Bool.cond_false,
      List.map_cons, List.map_append, List.map_nil, List.sum_cons, List.sum_append,
      List.sum_nil] at * <;> omega

/-- On a short line every watcher is given room for all of it but itself, on a long one room for
three elements, and for one more at the ends. Four elements of a line are free. -/
theorem seen_both_le (hlen : l.length ≤ 8) (hg : ∀ a ∈ l, min 3 (l.length - 1) ≤ g a)
    (hends : ∀ first mid last, l = first :: (mid ++ [last]) → 6 ≤ l.length →
      4 ≤ g first ∧ 4 ≤ g last) :
    seen p l + seen p l.reverse ≤ (l.length - 4) + ((l.filter p).map g).sum := by
  have hsum := countP_mul_le (p := p) hg
  rcases seen_both p l with ⟨-, h⟩ | ⟨hone, h⟩ | ⟨hmany, h⟩
  · omega
  · rw [hone] at hsum
    omega
  · rcases Nat.lt_or_ge l.length 6 with hshort | hlong
    · have hmul := Nat.mul_le_mul_right (min 3 (l.length - 1)) hmany
      omega
    · obtain ⟨first, rest, rfl⟩ := List.exists_cons_of_length_pos (show 0 < l.length by omega)
      have hrest : rest ≠ [] := by
        intro hnil
        rw [hnil, List.length_singleton] at hlong
        omega
      obtain ⟨mid, last, rfl⟩ := (List.eq_nil_or_concat' rest).resolve_left hrest
      obtain ⟨hfirst, hlast⟩ := hends first mid last rfl hlong
      have hmid : ∀ a ∈ mid, 3 ≤ g a := by
        intro a ha
        have hmem := hg a (List.mem_cons_of_mem _ (List.mem_append_left _ ha))
        omega
      rw [List.length_cons, List.length_append, List.length_singleton] at hlen ⊢
      have hle := seen_ends_le (by omega) hmany hfirst hlast hmid
      omega

end Rooms

end SoFCheck.Util.Sight
