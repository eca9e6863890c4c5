import Mathlib

namespace SoFCheck.Util.XorSum

variable {α : Type} {w : Nat}

theorem xor_left_comm (x y z : BitVec w) : x ^^^ (y ^^^ z) = y ^^^ (x ^^^ z) := by
  rw [← BitVec.xor_assoc, BitVec.xor_comm x, BitVec.xor_assoc]

theorem xor_cancel (x y : BitVec w) : x ^^^ (x ^^^ y) = y := by
  rw [← BitVec.xor_assoc, BitVec.xor_self, BitVec.zero_xor]

/-- The exclusive or of `f` over a list. -/
def xorSum (f : α → BitVec w) : List α → BitVec w
  | [] => 0
  | a :: l => f a ^^^ xorSum f l

theorem foldl_xor (f : α → BitVec w) (l : List α) (h : BitVec w) :
    l.foldl (fun h a => h ^^^ f a) h = h ^^^ xorSum f l := by
  induction l generalizing h with
  | nil => simp [xorSum]
  | cons a l ih => rw [List.foldl_cons, ih, xorSum, BitVec.xor_assoc]

theorem xorSum_congr {f g : α → BitVec w} {l : List α} (h : ∀ a ∈ l, f a = g a) :
    xorSum f l = xorSum g l := by
  induction l with
  | nil => rfl
  | cons a l ih => rw [xorSum, xorSum, h a (by simp), ih fun b hb => h b (List.mem_cons_of_mem a hb)]

theorem xorSum_update [DecidableEq α] (f : α → BitVec w) {l : List α} (hl : l.Nodup) {a : α}
    (ha : a ∈ l) (v : BitVec w) :
    xorSum (Function.update f a v) l = xorSum f l ^^^ f a ^^^ v := by
  induction l with
  | nil => simp at ha
  | cons b l ih =>
    obtain ⟨hb, hl⟩ := List.nodup_cons.mp hl
    by_cases hab : b = a
    · subst hab
      have hrest : xorSum (Function.update f b v) l = xorSum f l :=
        xorSum_congr fun c hc => Function.update_of_ne (by rintro rfl; exact hb hc) _ _
      have hcancel : f b ^^^ xorSum f l ^^^ f b = xorSum f l := by
        rw [BitVec.xor_comm (f b), BitVec.xor_assoc, BitVec.xor_self, BitVec.xor_zero]
      rw [xorSum, xorSum, Function.update_self, hrest, hcancel, BitVec.xor_comm]
    · have ha' : a ∈ l := (List.mem_cons.mp ha).resolve_left (Ne.symm hab)
      rw [xorSum, xorSum, Function.update_of_ne hab, ih hl ha', BitVec.xor_assoc, BitVec.xor_assoc,
        BitVec.xor_assoc]

end SoFCheck.Util.XorSum
