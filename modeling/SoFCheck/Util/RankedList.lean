import Mathlib

namespace SoFCheck.Util.RankedList

variable {α β γ : Type} {r : α → Nat}

/-- A list without repetitions whose elements have their ranks from `lo` on and
below `hi`. -/
structure Ranked (r : α → Nat) (lo hi : Nat) (l : List α) : Prop where
  nodup : l.Nodup
  bounds : ∀ a ∈ l, lo ≤ r a ∧ r a < hi

theorem Ranked.nil {lo hi : Nat} : Ranked r lo hi [] :=
  ⟨List.nodup_nil, fun _ ha => absurd ha List.not_mem_nil⟩

theorem Ranked.const {l : List α} {i : Nat} (hl : l.Nodup) (h : ∀ a ∈ l, r a = i) :
    Ranked r i (i + 1) l :=
  ⟨hl, fun a ha => by rw [h a ha]; omega⟩

theorem Ranked.append {lo hi : Nat} {l l' : List α} (mid : Nat) (h : Ranked r lo mid l)
    (h' : Ranked r mid hi l') (hlo : lo ≤ mid) (hhi : mid ≤ hi) : Ranked r lo hi (l ++ l') := by
  refine ⟨List.nodup_append.mpr ⟨h.nodup, h'.nodup, ?_⟩, fun a ha => ?_⟩
  · rintro a ha b hb rfl
    have h1 := (h.bounds a ha).2
    have h2 := (h'.bounds a hb).1
    omega
  · rcases List.mem_append.mp ha with ha | ha
    · obtain ⟨h1, h2⟩ := h.bounds a ha
      exact ⟨h1, by omega⟩
    · obtain ⟨h1, h2⟩ := h'.bounds a ha
      exact ⟨by omega, h2⟩

theorem Ranked.ite {lo hi : Nat} {l : List α} {p : Prop} [Decidable p] (h : p → Ranked r lo hi l) :
    Ranked r lo hi (if p then l else []) := by
  split
  · rename_i hp
    exact h hp
  · exact Ranked.nil

theorem nodup_flatMap_of_key {l : List β} {f : β → List α} (key : α → γ) {g : β → γ}
    (hg : Function.Injective g) (hl : l.Nodup) (hf : ∀ a, (f a).Nodup)
    (hkey : ∀ a, ∀ m ∈ f a, key m = g a) : (l.flatMap f).Nodup := by
  refine List.nodup_flatMap.mpr ⟨fun a _ => hf a, hl.imp fun {a b} hne => ?_⟩
  intro m ha hb
  exact hne (hg ((hkey a m ha).symm.trans (hkey b m hb)))

end SoFCheck.Util.RankedList
