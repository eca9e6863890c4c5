import SoFCheck.Core.MakeRegular

namespace SoFCheck.Core.WellFormed

open SoFCheck.Util.Bits
open SoFCheck.Core.Types SoFCheck.Core.Grid SoFCheck.Core.Geometry SoFCheck.Core.Moves
open SoFCheck.Core.Mailbox SoFCheck.Core.MakeRegular

def doubleRow : Color → Nat
  | .white => 4
  | .black => 3

theorem coordX_rows : ∀ (c : Color) (s : Square),
    (coordX (toCoord s) = doubleMoveSrcRow c ↔ row s = pawnRow c) ∧
    (coordX (toCoord s) = doubleMoveDstRow c ↔ row s = doubleRow c) ∧
    (coordX (toCoord s) = promoteSrcRow c ↔ row s = pawnRow (invert c)) ∧
    (coordX (toCoord s) = promoteDstRow c ↔ row s = lastRow c) ∧
    (coordX (toCoord s) = enpassantSrcRow c ↔ row s = enpassantRow c) ∧
    (coordX (toCoord s) = enpassantDstRow c ↔ (row s : Int) = enpassantRow c + forward c) := by
  decide

theorem coordY_steps (s t : Square) :
    (coordY (toCoord s) = coordY (toCoord t) ↔ col s = col t) ∧
    (coordY (toCoord s) + 1 = coordY (toCoord t) ↔ col t = col s + 1) ∧
    (coordY (toCoord s) - 1 = coordY (toCoord t) ↔ col s = col t + 1) := by
  have hall : ∀ i j : Fin 8, (Int8.ofNat i = Int8.ofNat j ↔ i.val = j) ∧
      (Int8.ofNat i + 1 = Int8.ofNat j ↔ j.val = i + 1) ∧
      (Int8.ofNat i - 1 = Int8.ofNat j ↔ i.val = j + 1) := by decide
  rw [coordY_toCoord, coordY_toCoord]
  exact hall ⟨col s, col_lt s⟩ ⟨col t, col_lt t⟩

variable {C : Color} {k : MoveKind} {s t : Square}

theorem isWellFormed_range (s t : Square) :
    ¬((toCoord s < 0 || toCoord s ≥ 64 || toCoord t < 0 || toCoord t ≥ 64) = true) := by
  obtain ⟨h1, h2⟩ := toCoord_range s
  obtain ⟨h3, h4⟩ := toCoord_range t
  simp only [Bool.or_eq_true, decide_eq_true_eq, not_or, ge_iff_le, Int8.not_lt, Int8.not_le]
  exact ⟨⟨⟨h1, h2⟩, h3⟩, h4⟩

theorem isWellFormed_simple : (mkMove .simple s t).isWellFormed C = true ↔ s ≠ t := by
  rw [mkMove, Move.isWellFormed]
  dsimp only
  rw [if_neg (isWellFormed_range s t)]
  simp

theorem isWellFormed_body {x : Bool} {P : Prop} (hne : P → s ≠ t) (hx : x = true ↔ P) :
    (if (toCoord s < 0 || toCoord s ≥ 64 || toCoord t < 0 || toCoord t ≥ 64) = true then false
      else if (toCoord s == toCoord t) = true then false else x) = true ↔ P := by
  rw [if_neg (isWellFormed_range s t)]
  split
  · rename_i he
    simp only [Bool.false_eq_true, false_iff]
    exact fun hp => hne hp (by simpa using he)
  · exact hx

theorem isWellFormed_double : (mkMove .pawnDoubleMove s t).isWellFormed C = true ↔
    row s = pawnRow C ∧ row t = doubleRow C ∧ col s = col t := by
  obtain ⟨h1, -⟩ := coordX_rows C s
  obtain ⟨-, h2, -⟩ := coordX_rows C t
  obtain ⟨h3, -⟩ := coordY_steps s t
  refine isWellFormed_body ?_ ?_
  · rintro ⟨h, h', -⟩ rfl
    rw [h] at h'
    cases C <;> exact absurd h' (by decide)
  · simp only [mkMove, Bool.not_or, Bool.and_eq_true, Bool.not_eq_true', bne_eq_false_iff_eq, h1,
      h2, h3, and_assoc]

theorem ite_or_false {p q r : Bool} :
    (if (p || q) = true then false else r) = true ↔ p = false ∧ q = false ∧ r = true := by
  cases p <;> cases q <;> simp

theorem colDist_eq_one (s t : Square) : colDist s t = 1 ↔ col t = col s + 1 ∨ col s = col t + 1 := by
  rw [colDist]
  omega

theorem isWellFormed_promote (hk : isMoveKindPromote k = true) :
    (mkMove k s t).isWellFormed C = true ↔
      row s = pawnRow (invert C) ∧ row t = lastRow C ∧ (col s = col t ∨ colDist s t = 1) := by
  obtain ⟨-, -, h1, -⟩ := coordX_rows C s
  obtain ⟨-, -, -, h2, -⟩ := coordX_rows C t
  obtain ⟨h3, h4, h5⟩ := coordY_steps s t
  have hne : row s = pawnRow (invert C) ∧ row t = lastRow C ∧ (col s = col t ∨ colDist s t = 1) →
      s ≠ t := by
    rintro ⟨h, h', -⟩ rfl
    rw [h] at h'
    cases C <;> exact absurd h' (by decide)
  cases k
  case promoteKnight | promoteBishop | promoteRook | promoteQueen =>
    refine isWellFormed_body hne (ite_or_false.trans ?_)
    simp only [mkMove, bne_eq_false_iff_eq, h1, h2, Bool.not_and, Bool.or_eq_true,
      Bool.not_eq_true', h3, h4, h5, colDist_eq_one]
    rw [or_comm (a := col t = col s + 1), or_assoc]
  all_goals exact absurd hk (by decide)

theorem isWellFormed_enpassant : (mkMove .enpassant s t).isWellFormed C = true ↔
    row s = enpassantRow C ∧ (row t : Int) = enpassantRow C + forward C ∧ colDist s t = 1 := by
  obtain ⟨-, -, -, -, h1, -⟩ := coordX_rows C s
  obtain ⟨-, -, -, -, -, h2⟩ := coordX_rows C t
  obtain ⟨h3, h4, h5⟩ := coordY_steps s t
  refine isWellFormed_body ?_ ?_
  · rintro ⟨-, -, h⟩ rfl
    simp [colDist] at h
  · refine ite_or_false.trans ?_
    simp only [mkMove, bne_eq_false_iff_eq, h1, h2, Bool.not_and, Bool.or_eq_true,
      Bool.not_eq_true', h4, h5, colDist_eq_one]

theorem makeCoord_castlingRow : ∀ (c : Color),
    makeCoord (castlingRow c) 2 = toCoord (homeCell c 2) ∧
    makeCoord (castlingRow c) 3 = toCoord (homeCell c 3) ∧
    makeCoord (castlingRow c) 4 = toCoord (homeCell c 4) ∧
    makeCoord (castlingRow c) 5 = toCoord (homeCell c 5) ∧
    makeCoord (castlingRow c) 6 = toCoord (homeCell c 6) := by decide

theorem isWellFormed_castlingKingside : (mkMove .castlingKingside s t).isWellFormed C = true ↔
    s = homeCell C 4 ∧ t = homeCell C 6 := by
  obtain ⟨-, -, h4, -, h6⟩ := makeCoord_castlingRow C
  refine isWellFormed_body ?_ ?_
  · rintro ⟨rfl, rfl⟩ h
    cases C <;> exact absurd h (by decide)
  · simp only [mkMove, h4, h6, Bool.not_or, Bool.and_eq_true, Bool.not_eq_true',
      bne_eq_false_iff_eq, toCoord_inj]

theorem isWellFormed_castlingQueenside : (mkMove .castlingQueenside s t).isWellFormed C = true ↔
    s = homeCell C 4 ∧ t = homeCell C 2 := by
  obtain ⟨h2, -, h4, -, -⟩ := makeCoord_castlingRow C
  refine isWellFormed_body ?_ ?_
  · rintro ⟨rfl, rfl⟩ h
    cases C <;> exact absurd h (by decide)
  · simp only [mkMove, h2, h4, Bool.not_or, Bool.and_eq_true, Bool.not_eq_true',
      bne_eq_false_iff_eq, toCoord_inj]

theorem isWellFormed_null : (mkMove .null s t).isWellFormed C = true ↔ s = 0 ∧ t = 0 := by
  have h0 : ∀ s, toCoord s = 0 ↔ s = 0 := by decide
  rw [mkMove, Move.isWellFormed]
  dsimp only
  rw [if_neg (isWellFormed_range s t)]
  simp [h0]

theorem isWellFormed_invalid : (mkMove .invalid s t).isWellFormed C = false := by
  rw [mkMove, Move.isWellFormed]
  dsimp only
  split_ifs <;> rfl

end SoFCheck.Core.WellFormed
