import SoFCheck.Eval.Impl

namespace SoFCheck.Eval.MirrorBoards

open SoFCheck.Util.Bits SoFCheck.Util.Words
open SoFCheck.Core.Types SoFCheck.Core.Grid SoFCheck.Core.Geometry SoFCheck.Eval.Weights
open SoFCheck.Eval.Bitboard SoFCheck.Eval.Impl

section Squares

@[simp] theorem coordFlipX_coordFlipX (s : Square) : coordFlipX (coordFlipX s) = s := by
  revert s
  decide

theorem row_coordFlipX (s : Square) : row (coordFlipX s) = 7 - row s := by
  revert s
  decide

@[simp] theorem col_coordFlipX (s : Square) : col (coordFlipX s) = col s := by
  revert s
  decide

theorem coordFlipX_injective : Function.Injective coordFlipX :=
  Function.LeftInverse.injective coordFlipX_coordFlipX

/-- The mirror swaps the cells in pairs. -/
def flipEquiv : Square ≃ Square := ⟨coordFlipX, coordFlipX, coordFlipX_coordFlipX, coordFlipX_coordFlipX⟩

theorem forward_invert (c : Color) : forward (invert c) = -forward c := by
  cases c <;> rfl

theorem offset_coordFlipX (dx dy : Int) (s t : Square) :
    offset (-dx, dy) (coordFlipX s) = some (coordFlipX t) ↔ offset (dx, dy) s = some t := by
  rw [offset_eq_some_iff, offset_eq_some_iff, row_coordFlipX, row_coordFlipX, col_coordFlipX,
    col_coordFlipX]
  have := row_lt s
  have := row_lt t
  omega

theorem inFront_coordFlipX (c : Color) (i j : Square) :
    inFront (invert c) (coordFlipX i) (coordFlipX j) = inFront c i j := by
  have := row_lt i
  have := row_lt j
  unfold inFront
  rw [row_coordFlipX, row_coordFlipX]
  cases c <;> simp [invert] <;> omega

end Squares

/-- `y` is `x` with its rows mirrored. -/
def Mirrored (x y : Bitboard) : Prop := ∀ s, hasBit y (coordFlipX s) = hasBit x s

namespace Mirrored

variable {x y x' y' : Bitboard}

theorem symm (h : Mirrored x y) : Mirrored y x := by
  intro s
  rw [← h (coordFlipX s), coordFlipX_coordFlipX]

theorem and (h : Mirrored x y) (h' : Mirrored x' y') : Mirrored (x &&& x') (y &&& y') := by
  intro s
  rw [hasBit_and, hasBit_and, h, h']

theorem or (h : Mirrored x y) (h' : Mirrored x' y') : Mirrored (x ||| x') (y ||| y') := by
  intro s
  rw [hasBit_or, hasBit_or, h, h']

theorem xor (h : Mirrored x y) (h' : Mirrored x' y') : Mirrored (x ^^^ x') (y ^^^ y') := by
  intro s
  rw [hasBit_xor, hasBit_xor, h, h']

theorem not (h : Mirrored x y) : Mirrored (~~~x) (~~~y) := by
  intro s
  rw [hasBit_not, hasBit_not, h]

theorem zero : Mirrored 0 0 := by
  intro s
  rw [hasBit_ofNat_zero, hasBit_ofNat_zero]

theorem empty_iff (h : Mirrored x y) : y = 0 ↔ x = 0 := by
  rw [eq_zero_iff, eq_zero_iff]
  constructor
  · intro hy s
    rw [← h, hy]
  · intro hx s
    rw [← coordFlipX_coordFlipX s, h, hx]

theorem extractAll_perm (h : Mirrored x y) :
    (extractAll y).Perm ((extractAll x).map coordFlipX) := by
  apply (List.perm_ext_iff_of_nodup (extractAll_nodup y)
    ((extractAll_nodup x).map coordFlipX_injective)).mpr
  intro s
  rw [mem_extractAll, List.mem_map]
  constructor
  · intro hs
    refine ⟨coordFlipX s, ?_, coordFlipX_coordFlipX s⟩
    rw [mem_extractAll, ← h, coordFlipX_coordFlipX, hs]
  · rintro ⟨t, ht, rfl⟩
    rw [h, mem_extractAll.mp ht]

theorem popcount_eq (h : Mirrored x y) : popcount y = popcount x := by
  rw [popcount_eq_length, popcount_eq_length, h.extractAll_perm.length_eq, List.length_map]

theorem bbCol (j : Fin 8) : Mirrored (bbCol j) (bbCol j) := by
  intro s
  rw [hasBit_bbCol, hasBit_bbCol, col_coordFlipX]

theorem single (s : Square) : Mirrored (coordToBitboard s) (coordToBitboard (coordFlipX s)) := by
  intro t
  rw [coordToBitboard, coordToBitboard, hasBit_single, hasBit_single]
  exact decide_eq_decide.mpr coordFlipX_injective.eq_iff

theorem collect {keep keep' : Square → Bool} (h : ∀ j, keep' (coordFlipX j) = keep j) :
    Mirrored (collect keep) (collect keep') := by
  intro s
  rw [hasBit_collect, hasBit_collect, h]

section Tables

theorem kingMetricRing (i : Square) (distance : Nat) :
    Mirrored (kingMetricRing i distance) (kingMetricRing (coordFlipX i) distance) := by
  apply Mirrored.collect
  intro j
  have hrow : absDiff (row (coordFlipX i)) (row (coordFlipX j)) = absDiff (row i) (row j) := by
    have := row_lt i
    have := row_lt j
    rw [row_coordFlipX, row_coordFlipX]
    unfold absDiff
    split_ifs <;> omega
  rw [hrow, col_coordFlipX, col_coordFlipX]

theorem doublePawn (i : Square) : Mirrored (doublePawn i) (doublePawn (coordFlipX i)) := by
  unfold Bitboard.doublePawn
  rw [col_coordFlipX]
  exact (bbCol _).xor (single i)

theorem isolatedPawn (i : Square) : Mirrored (isolatedPawn i) (isolatedPawn (coordFlipX i)) := by
  unfold Bitboard.isolatedPawn
  rw [col_coordFlipX]
  dsimp only
  split_ifs
  · exact (bbCol _).or (bbCol _)
  · exact zero.or (bbCol _)
  · exact bbCol _
  · exact zero

theorem passedOrOpenPawns (c : Color) (kind : PassedPawnKind) (i : Square) :
    Mirrored (passedOrOpenPawns c kind i) (passedOrOpenPawns (invert c) kind (coordFlipX i)) := by
  apply Mirrored.collect
  intro j
  dsimp only
  rw [col_coordFlipX, col_coordFlipX, inFront_coordFlipX]

theorem attackFrontspans (c : Color) (i : Square) :
    Mirrored (attackFrontspans c i) (attackFrontspans (invert c) (coordFlipX i)) := by
  apply Mirrored.collect
  intro j
  dsimp only
  rw [col_coordFlipX, col_coordFlipX, inFront_coordFlipX]

theorem bbShieldedKing (c : Color) : Mirrored (bbShieldedKing c) (bbShieldedKing (invert c)) := by
  have h : Mirrored (Impl.bbShieldedKing .white) (Impl.bbShieldedKing .black) := by
    unfold Mirrored
    decide +kernel
  cases c
  · exact h
  · exact h.symm

end Tables

section Pawns

theorem of_offset {dy : Int} (c : Color) (h : Mirrored x y) {f : Color → Bitboard → Bitboard}
    (hf : ∀ c x t, hasBit (f c x) t = true ↔ ∃ s, hasBit x s = true ∧ offset (forward c, dy) s = some t) :
    Mirrored (f c x) (f (invert c) y) := by
  intro t
  rw [Bool.eq_iff_iff, hf, hf, forward_invert]
  constructor
  · rintro ⟨s, hs, ho⟩
    refine ⟨coordFlipX s, ?_, ?_⟩
    · rw [← h, coordFlipX_coordFlipX, hs]
    · rw [← offset_coordFlipX, coordFlipX_coordFlipX]
      exact ho
  · rintro ⟨s, hs, ho⟩
    refine ⟨coordFlipX s, ?_, ?_⟩
    · rw [h, hs]
    · rw [offset_coordFlipX]
      exact ho

theorem advancePawnForward (c : Color) (h : Mirrored x y) :
    Mirrored (advancePawnForward c x) (advancePawnForward (invert c) y) :=
  of_offset c h fun _ _ _ => hasBit_advancePawnForward

theorem bbPawnAttacks (c : Color) (h : Mirrored x y) :
    Mirrored (bbPawnAttacks c x) (bbPawnAttacks (invert c) y) :=
  (of_offset c h fun _ _ _ => hasBit_advancePawnLeft).or
    (of_offset c h fun _ _ _ => hasBit_advancePawnRight)

theorem byteGather_eq (h : Mirrored x y) : byteGather y = byteGather x := by
  apply hasBit_ext
  intro j
  rw [Bool.eq_iff_iff, hasBit_byteGather, hasBit_byteGather]
  constructor
  · rintro ⟨s, hs, hj⟩
    refine ⟨coordFlipX s, ?_, (col_coordFlipX s).trans hj⟩
    rw [← h, coordFlipX_coordFlipX, hs]
  · rintro ⟨s, hs, hj⟩
    exact ⟨coordFlipX s, (h s).trans hs, (col_coordFlipX s).trans hj⟩

theorem byteScatter (cols : BitVec 8) : Mirrored (byteScatter cols) (byteScatter cols) := by
  intro s
  rw [hasBit_byteScatter, hasBit_byteScatter]
  exact congrArg cols.getLsbD (col_coordFlipX s)

end Pawns

end Mirrored

end SoFCheck.Eval.MirrorBoards
