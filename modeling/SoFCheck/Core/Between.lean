import SoFCheck.Core.Magic

namespace SoFCheck.Core.Between

open SoFCheck.Util.Bits SoFCheck.Core.Types SoFCheck.Core.Grid SoFCheck.Core.Geometry
open SoFCheck.Core.Magic

def ltMask (c : Square) : Bitboard := coordToBitboard c - 1

def gtMask (c : Square) : Bitboard := ~~~(ltMask c ||| coordToBitboard c)

def bishopLines (c : Square) : Bitboard := bbDiag1 (coordDiag1 c) ||| bbDiag2 (coordDiag2 c)

def rookLines (c : Square) : Bitboard :=
  bbRow (rowIdx (coordX (toCoord c))) ||| bbCol (rowIdx (coordY (toCoord c)))

def bishopLt (c : Square) : Bitboard := bishopLines c &&& ltMask c
def bishopGt (c : Square) : Bitboard := bishopLines c &&& gtMask c
def rookLt (c : Square) : Bitboard := rookLines c &&& ltMask c
def rookGt (c : Square) : Bitboard := rookLines c &&& gtMask c

def betweenOrdered (src dst : Square) : Bitboard :=
  let bbDst := coordToBitboard dst
  if bishopGt src &&& bbDst ≠ 0 then bishopGt src &&& bishopLt dst
  else if rookGt src &&& bbDst ≠ 0 then rookGt src &&& rookLt dst
  else 0

def between (src dst : Square) : Bitboard :=
  if src > dst then betweenOrdered dst src else betweenOrdered src dst

theorem hasBit_ltMask (c s : Square) : hasBit (ltMask c) s = decide (s < c) :=
  hasBit_single_sub_one c s

theorem hasBit_gtMask (c s : Square) : hasBit (gtMask c) s = decide (c < s) := by
  rw [gtMask, hasBit_not, hasBit_or, hasBit_ltMask, coordToBitboard, hasBit_single,
    Bool.eq_iff_iff]
  simp only [Bool.not_eq_true', Bool.or_eq_false_iff, decide_eq_false_iff_not, decide_eq_true_eq,
    Fin.ext_iff, Fin.lt_def]
  omega

theorem hasBit_bishopLines (c s : Square) : hasBit (bishopLines c) s =
    decide (row s + col s = row c + col c ∨ row c + col s = row s + col c) := by
  rw [bishopLines, hasBit_or, hasBit_bbDiag1, hasBit_bbDiag2, Bool.decide_or]

theorem hasBit_rookLines (c s : Square) :
    hasBit (rookLines c) s = decide (row s = row c ∨ col s = col c) := by
  rw [rookLines, hasBit_or, hasBit_bbRow, hasBit_bbCol, rowIdx_coordX, rowIdx_coordY,
    Bool.decide_or]

theorem lt_iff {s t : Square} : s < t ↔ 8 * row s + col s < 8 * row t + col t := by
  rw [Fin.lt_def, row, col, row, col, Nat.div_add_mod, Nat.div_add_mod]

theorem and_coordToBitboard_ne_zero {x : Bitboard} {s : Square} :
    x &&& coordToBitboard s ≠ 0 ↔ hasBit x s = true := by
  rw [Ne, coordToBitboard, and_single_eq_zero_iff, Bool.not_eq_false]

/-- On a line the table lookup gives the cells strictly between the two. -/
theorem hasBit_betweenOrdered {d : Dir} (hd : d ∈ dirs) {s t u : Square} (hst : s < t)
    (ht : t ∈ ray d s) : hasBit (betweenOrdered s t) u = true ↔ u ∈ inner d s t := by
  obtain ⟨n, h1, hn⟩ := (mem_ray hd).mp ht
  have hlt := lt_iff.mp hst
  have := row_lt s
  have := col_lt s
  have := row_lt t
  have := col_lt t
  have := row_lt u
  have := col_lt u
  rw [mem_inner hd h1 hn, betweenOrdered]
  rcases List.mem_append.mp hd with hr | hb
  · have hc := rookSteps_cases hr hn
    have hnb : ¬(bishopGt s &&& coordToBitboard t ≠ 0) := by
      rw [and_coordToBitboard_ne_zero, bishopGt, hasBit_and, hasBit_bishopLines]
      simp only [Bool.and_eq_true, decide_eq_true_eq]
      omega
    have hrk : rookGt s &&& coordToBitboard t ≠ 0 := by
      rw [and_coordToBitboard_ne_zero, rookGt, hasBit_and, hasBit_rookLines, hasBit_gtMask]
      simp only [Bool.and_eq_true, decide_eq_true_eq]
      exact ⟨by omega, hst⟩
    rw [if_neg hnb, if_pos hrk, rookGt, rookLt]
    simp only [hasBit_and, hasBit_rookLines, hasBit_gtMask, hasBit_ltMask, Bool.and_eq_true,
      decide_eq_true_eq, lt_iff]
    simp only [rookDirs, List.mem_cons, List.not_mem_nil, or_false] at hr
    constructor
    · intro h
      refine ⟨(row u - row s) + (col u - col s), ?_⟩
      rcases hr with rfl | rfl | rfl | rfl <;> simp only [Steps] at hn ⊢ <;> omega
    · rintro ⟨k, hk, hkn, hu⟩
      rcases hr with rfl | rfl | rfl | rfl <;> simp only [Steps] at hn hu <;> omega
  · have hc := bishopSteps_cases hb hn
    have hbp : bishopGt s &&& coordToBitboard t ≠ 0 := by
      rw [and_coordToBitboard_ne_zero, bishopGt, hasBit_and, hasBit_bishopLines, hasBit_gtMask]
      simp only [Bool.and_eq_true, decide_eq_true_eq]
      exact ⟨by omega, hst⟩
    rw [if_pos hbp, bishopGt, bishopLt]
    simp only [hasBit_and, hasBit_bishopLines, hasBit_gtMask, hasBit_ltMask, Bool.and_eq_true,
      decide_eq_true_eq, lt_iff]
    simp only [bishopDirs, List.mem_cons, List.not_mem_nil, or_false] at hb
    constructor
    · intro h
      refine ⟨row u - row s, ?_⟩
      rcases hb with rfl | rfl | rfl | rfl <;> simp only [Steps] at hn ⊢ <;> omega
    · rintro ⟨k, hk, hkn, hu⟩
      rcases hb with rfl | rfl | rfl | rfl <;> simp only [Steps] at hn hu <;> omega

theorem hasBit_between {d : Dir} (hd : d ∈ dirs) {s t u : Square} (ht : t ∈ ray d s) :
    hasBit (between s t) u = true ↔ u ∈ inner d s t := by
  rw [between]
  split
  · rename_i h
    rw [mem_inner_neg hd ht]
    exact hasBit_betweenOrdered (neg_mem_dirs d hd) h ((mem_ray_neg hd).mp ht)
  · rename_i h
    refine hasBit_betweenOrdered hd (lt_of_le_of_ne (not_lt.mp h) ?_) ht
    rintro rfl
    exact self_notMem_ray hd _ ht

end SoFCheck.Core.Between
