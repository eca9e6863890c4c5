import SoFCheck.Core.MakeRefine
import SoFCheck.Core.Movegen
import SoFCheck.Core.WellFormed

namespace SoFCheck.Core.PseudoLegal

open SoFCheck.Util.Bits
open SoFCheck.Core.Types SoFCheck.Core.Grid SoFCheck.Core.Geometry SoFCheck.Core.NearAttacks
open SoFCheck.Core.Between SoFCheck.Core.BoardState SoFCheck.Core.Moves SoFCheck.Core.Attack
open SoFCheck.Core.MakeCells SoFCheck.Core.Mailbox SoFCheck.Core.Validate SoFCheck.Core.Position
open SoFCheck.Core.MakeRegular SoFCheck.Core.MakeRefine SoFCheck.Core.WellFormed
open SoFCheck.Core.Movegen

section Geometry

theorem exists_forward {c : Color} {s : Square} (h : row s ≠ 0 ∧ row s ≠ 7) :
    ∃ t, offset (forward c, 0) s = some t := by
  have hr := row_lt s
  have hc := col_lt s
  rw [offset, cellAt, if_pos (by cases c <;> dsimp only [forward] <;> omega)]
  exact ⟨_, rfl⟩

theorem forward_iff {c : Color} {s t : Square} (h : row s ≠ 0 ∧ row s ≠ 7) :
    toCoord t = toCoord s + pawnForwardDelta c ↔ offset (forward c, 0) s = some t := by
  obtain ⟨u, hu⟩ := exists_forward (c := c) h
  rw [toCoord_add_forward hu, toCoord_inj, hu, Option.some_inj, eq_comm]

theorem hasBit_mustEmpty {C : Color} {s : Square} (h : row s = pawnRow C) (v : Square) :
    hasBit (if C = .white then 0x0101#64 <<< ((toCoord s).toInt - 16).toNat
        else 0x010100#64 <<< (toCoord s).toInt.toNat) v =
      decide (offset (forward C, 0) s = some v ∨
        (offset (forward C, 0) s).bind (offset (forward C, 0)) = some v) := by
  revert C s v
  decide +kernel

theorem hasBit_castlingPass (C : Color) (v : Square) :
    (hasBit (bbCastlingKingsidePass <<< (castlingOffset C).toBitVec.toNat) v =
      decide (v = homeCell C 5 ∨ v = homeCell C 6)) ∧
    (hasBit (bbCastlingQueensidePass <<< (castlingOffset C).toBitVec.toNat) v =
      decide (v = homeCell C 1 ∨ v = homeCell C 2 ∨ v = homeCell C 3)) := by
  revert C v
  decide

theorem homeCell_next (C : Color) : toSquare (toCoord (homeCell C 4) + 1) = homeCell C 5 ∧
    toSquare (toCoord (homeCell C 4) - 1) = homeCell C 3 := by
  cases C <;> decide

theorem toInt_toCoord : ∀ s : Square, (toCoord s).toInt = s.val := by decide

theorem toInt_invalidCoord : invalidCoord.toInt = -1 := by decide

end Geometry

section Board

variable [Globals] {b : Board} {k : MoveKind} {s t : Square}

theorem and_bbAll_eq_zero (hb : Regular b) {x : Bitboard} :
    x &&& b.bbAll = 0 ↔ ∀ v, hasBit x v = true → (position b).pieceAt v = none := by
  rw [and_eq_zero_iff]
  exact forall₂_congr fun v _ =>
    (not_hasBit_bbAll hb.cells hb.synced).trans (pieceAt_eq_none hb.cells).symm

theorem not_isCellAttacked (hb : Regular b) {c : Color} {u : Square} :
    (!isCellAttacked b u c) = true ↔ ¬(position b).Attacked c u := by
  rw [Bool.not_eq_true', ← Bool.not_eq_true, isCellAttacked_iff_attacked hb.cells hb.synced]

theorem home_of_kingside (hb : Regular b) (h : isKingsideCastling b b.side = true) :
    (position b).pieceAt (homeCell b.side 4) = some (b.side, .king) ∧
      (position b).pieceAt (homeCell b.side 7) = some (b.side, .rook) := by
  obtain ⟨-, -, -, h4, -, -, h7⟩ := castlingSquare_homeCell b.side
  obtain ⟨hk, hr⟩ := (hb.castlingOk b.side).1 h
  exact ⟨pieceAt_eq_some.mpr (h4 ▸ hk), pieceAt_eq_some.mpr (h7 ▸ hr)⟩

theorem home_of_queenside (hb : Regular b) (h : isQueensideCastling b b.side = true) :
    (position b).pieceAt (homeCell b.side 4) = some (b.side, .king) ∧
      (position b).pieceAt (homeCell b.side 0) = some (b.side, .rook) := by
  obtain ⟨h0, -, -, h4, -, -, -⟩ := castlingSquare_homeCell b.side
  obtain ⟨hk, hr⟩ := (hb.castlingOk b.side).2 h
  exact ⟨pieceAt_eq_some.mpr (h4 ▸ hk), pieceAt_eq_some.mpr (h0 ▸ hr)⟩

theorem kingsidePass_iff (hb : Regular b) :
    bbCastlingKingsidePass <<< (castlingOffset b.side).toBitVec.toNat &&& b.bbAll = 0 ↔
      (position b).pieceAt (homeCell b.side 5) = none ∧
        (position b).pieceAt (homeCell b.side 6) = none := by
  rw [and_bbAll_eq_zero hb]
  simp only [(hasBit_castlingPass b.side _).1, decide_eq_true_eq, forall_eq_or_imp, forall_eq]

theorem queensidePass_iff (hb : Regular b) :
    bbCastlingQueensidePass <<< (castlingOffset b.side).toBitVec.toNat &&& b.bbAll = 0 ↔
      (position b).pieceAt (homeCell b.side 1) = none ∧
        (position b).pieceAt (homeCell b.side 2) = none ∧
        (position b).pieceAt (homeCell b.side 3) = none := by
  rw [and_bbAll_eq_zero hb]
  simp only [(hasBit_castlingPass b.side _).2, decide_eq_true_eq, forall_eq_or_imp, forall_eq]

theorem valid_castlingKingside (hb : Regular b) :
    (mkMove .castlingKingside s t).isWellFormed b.side = true ∧
      isMoveValid b (mkMove .castlingKingside s t) = true ↔
      (position b).Pseudo .castlingKingside s t := by
  obtain ⟨h5, -⟩ := homeCell_next b.side
  rw [isWellFormed_castlingKingside]
  constructor
  · rintro ⟨⟨rfl, rfl⟩, h⟩
    simp only [isMoveValid, isMoveValidImpl, mkMove, reduceCtorEq, if_false, if_true,
      toSquare_toCoord, h5, Bool.and_eq_true, beq_iff_eq, kingsidePass_iff hb,
      not_isCellAttacked hb] at h
    obtain ⟨⟨⟨hf, hp5, hp6⟩, ha⟩, ha'⟩ := h
    obtain ⟨hk, hr⟩ := home_of_kingside hb hf
    exact Position.Pseudo.castlingKingside hf hk hr hp5 hp6 ha ha'
  · intro h
    cases h with
    | push hs ho ht hk => exact absurd (pawnKind_cases hk) (by decide)
    | capture hs hr ht hk => exact absurd (pawnKind_cases hk) (by decide)
    | castlingKingside hf hk hr hp5 hp6 ha ha' =>
      refine ⟨⟨rfl, rfl⟩, ?_⟩
      simp only [isMoveValid, isMoveValidImpl, mkMove, reduceCtorEq, if_false, if_true,
        toSquare_toCoord, position_side, h5, Bool.and_eq_true, beq_iff_eq, kingsidePass_iff hb,
        not_isCellAttacked hb]
      exact ⟨⟨⟨hf, hp5, hp6⟩, ha⟩, ha'⟩

theorem valid_castlingQueenside (hb : Regular b) :
    (mkMove .castlingQueenside s t).isWellFormed b.side = true ∧
      isMoveValid b (mkMove .castlingQueenside s t) = true ↔
      (position b).Pseudo .castlingQueenside s t := by
  obtain ⟨-, h3⟩ := homeCell_next b.side
  rw [isWellFormed_castlingQueenside]
  constructor
  · rintro ⟨⟨rfl, rfl⟩, h⟩
    simp only [isMoveValid, isMoveValidImpl, mkMove, reduceCtorEq, if_false, if_true,
      toSquare_toCoord, h3, Bool.and_eq_true, beq_iff_eq, queensidePass_iff hb,
      not_isCellAttacked hb] at h
    obtain ⟨⟨⟨hf, hp1, hp2, hp3⟩, ha⟩, ha'⟩ := h
    obtain ⟨hk, hr⟩ := home_of_queenside hb hf
    exact Position.Pseudo.castlingQueenside hf hk hr hp1 hp2 hp3 ha ha'
  · intro h
    cases h with
    | push hs ho ht hk => exact absurd (pawnKind_cases hk) (by decide)
    | capture hs hr ht hk => exact absurd (pawnKind_cases hk) (by decide)
    | castlingQueenside hf hk hr hp1 hp2 hp3 ha ha' =>
      refine ⟨⟨rfl, rfl⟩, ?_⟩
      simp only [isMoveValid, isMoveValidImpl, mkMove, reduceCtorEq, if_false, if_true,
        toSquare_toCoord, position_side, h3, Bool.and_eq_true, beq_iff_eq, queensidePass_iff hb,
        not_isCellAttacked hb]
      exact ⟨⟨⟨hf, hp1, hp2, hp3⟩, ha⟩, ha'⟩

theorem valid_double (hb : Regular b) :
    (mkMove .pawnDoubleMove s t).isWellFormed b.side = true ∧
      isMoveValid b (mkMove .pawnDoubleMove s t) = true ↔
      (position b).Pseudo .pawnDoubleMove s t := by
  have hval : isMoveValid b (mkMove .pawnDoubleMove s t) = true ↔
      b.cells s = makeCell b.side .pawn ∧
        (if b.side = .white then 0x0101#64 <<< ((toCoord s).toInt - 16).toNat
          else 0x010100#64 <<< (toCoord s).toInt.toNat) &&& b.bbAll = 0 := by
    simp only [isMoveValid, isMoveValidImpl, mkMove, reduceCtorEq, if_false, if_true,
      toSquare_toCoord, BitVec.and_comm b.bbAll]
    split
    · rename_i h
      simp only [beq_iff_eq, h, true_and]
    · rename_i h
      simp [h]
  rw [isWellFormed_double, hval]
  constructor
  · rintro ⟨⟨hrow, hrow', hcol⟩, hs, hempty⟩
    have hs' := pieceAt_eq_some.mpr hs
    obtain ⟨u, hu⟩ := exists_forward (c := b.side) (hb.pawns _ _ hs)
    have hu' := row_forward hu
    have hut : offset (forward b.side, 0) u = some t := by
      rw [offset_eq_some_iff]
      cases hc : b.side <;> simp only [hc, pawnRow, doubleRow, forward] at hrow hrow' hu' ⊢ <;> omega
    have hnone := (and_bbAll_eq_zero hb).mp hempty
    simp only [hasBit_mustEmpty hrow, decide_eq_true_eq, hu, Option.bind_some] at hnone
    exact Position.Pseudo.double hs' hrow hu hut (hnone u (Or.inl rfl)) (hnone t (Or.inr hut))
  · intro h
    cases h with
    | push hs ho ht hk => exact absurd (pawnKind_cases hk) (by decide)
    | capture hs hr ht hk => exact absurd (pawnKind_cases hk) (by decide)
    | @double s u t hs hrow ho ho' hu ht =>
      rw [position_side] at hrow ho ho'
      have h1 := row_forward ho
      have h2 := row_forward ho'
      refine ⟨⟨hrow, ?_, h1.2.symm.trans h2.2.symm⟩, pieceAt_eq_some.mp hs, ?_⟩
      · cases hc : b.side <;> simp only [hc, pawnRow, doubleRow, forward] at hrow h1 h2 ⊢ <;> omega
      · rw [and_bbAll_eq_zero hb]
        simp only [hasBit_mustEmpty hrow, decide_eq_true_eq, ho, Option.bind_some, ho',
          Option.some_inj]
        rintro v (rfl | rfl)
        · exact hu
        · exact ht

theorem enpassantOf_eq_some (hb : Regular b) {e : Square} :
    (position b).enpassant = some e ↔ b.enpassantCoord = toCoord e := by
  constructor
  · exact fun he => (enpassant_eq hb he).1
  · intro he
    change enpassantOf b = some e
    rw [enpassantOf, if_neg (he ▸ toCoord_ne_invalidCoord e), he, toSquare_toCoord]

theorem enpassant_pieces (hb : Regular b) {e t : Square} (he : b.enpassantCoord = toCoord e)
    (ho : offset (forward b.side, 0) e = some t) :
    (position b).pieceAt e = some (invert b.side, .pawn) ∧ (position b).pieceAt t = none := by
  obtain ⟨h1, h2⟩ := hb.enpassantOk (he ▸ toCoord_ne_invalidCoord e)
  rw [he, toSquare_toCoord] at h1
  rw [he, toCoord_add_forward ho, toSquare_toCoord] at h2
  exact ⟨pieceAt_eq_some.mpr h1, (pieceAt_eq_none hb.cells).mpr h2⟩

theorem valid_enpassant (hb : Regular b) :
    (mkMove .enpassant s t).isWellFormed b.side = true ∧
      isMoveValid b (mkMove .enpassant s t) = true ↔ (position b).Pseudo .enpassant s t := by
  have hval : isMoveValid b (mkMove .enpassant s t) = true ↔
      b.cells s = makeCell b.side .pawn ∧
        ((s.val : Int) + 1 = b.enpassantCoord.toInt ∨ (s.val : Int) - 1 = b.enpassantCoord.toInt) ∧
        toCoord t = b.enpassantCoord + pawnForwardDelta b.side := by
    simp only [isMoveValid, isMoveValidImpl, mkMove, reduceCtorEq, if_false, if_true,
      toSquare_toCoord, toInt_toCoord]
    split
    · rename_i h
      simp only [Bool.and_eq_true, Bool.or_eq_true, beq_iff_eq, h, true_and]
    · rename_i h
      simp [h]
  rw [isWellFormed_enpassant, hval]
  constructor
  · rintro ⟨⟨hrow, hrow', hcol⟩, hs, hnext, hdst⟩
    have hne : b.enpassantCoord ≠ invalidCoord := by
      intro he
      rw [he, toInt_invalidCoord] at hnext
      have hv := val_eq s
      cases hc : b.side <;> simp only [hc, enpassantRow] at hrow <;> omega
    obtain ⟨h0, h64, hx⟩ := hb.enpassantRow hne
    obtain ⟨e, he⟩ : ∃ e, b.enpassantCoord = toCoord e := ⟨_, (toCoord_toSquare h0 h64).symm⟩
    rw [he, coordX_eq_enpassantSrcRow] at hx
    rw [he, toInt_toCoord] at hnext
    rw [he] at hdst
    have hmid : row e ≠ 0 ∧ row e ≠ 7 := by
      cases hc : b.side <;> simp only [hc, enpassantRow] at hx <;> omega
    have ho := (forward_iff hmid).mp hdst
    obtain ⟨hpe, hpt⟩ := enpassant_pieces hb he ho
    refine Position.Pseudo.enpassant ((enpassantOf_eq_some hb).mpr he) hpe
      (pieceAt_eq_some.mpr hs) (hrow.trans hx.symm) ?_ ho hpt
    have hv := val_eq s
    have hv' := val_eq e
    rw [colDist]
    omega
  · intro h
    cases h with
    | push hs ho ht hk => exact absurd (pawnKind_cases hk) (by decide)
    | capture hs hr ht hk => exact absurd (pawnKind_cases hk) (by decide)
    | @enpassant e s t he hpe hs hr hc ho ht =>
      obtain ⟨hep, hrow⟩ := enpassant_eq hb he
      rw [position_side] at ho
      have hf := row_forward ho
      refine ⟨⟨hr.trans hrow, ?_, ?_⟩, pieceAt_eq_some.mp hs, ?_, ?_⟩
      · rw [hf.1, hrow]
      · rw [colDist, hf.2]
        exact hc
      · have hv := val_eq s
        have hv' := val_eq e
        rw [colDist_eq_one] at hc
        rw [hep, toInt_toCoord]
        omega
      · rw [hep, toCoord_add_forward ho]

omit [Globals] in
theorem and_coordToBitboard_bne {x : Bitboard} :
    (x &&& coordToBitboard t != 0) = true ↔ hasBit x t = true := by
  rw [bne_iff_ne, and_coordToBitboard_ne_zero]

/-- What `isMoveValid` asks of the plain moves of a pawn. -/
theorem isMoveValid_pawn (hb : Regular b) (hs : b.cells s = makeCell b.side .pawn)
    (hk : k = .simple ∨ isMoveKindPromote k = true) :
    isMoveValid b (mkMove k s t) = true ↔
      (k = .simple → row s ≠ pawnRow (invert b.side)) ∧
        (offset (forward b.side, 0) s = some t ∧ (position b).pieceAt t = none ∨
          Reaches (position b).occupied b.side .pawn s t ∧ (position b).Enemy t) := by
  have hatt : hasBit ((if b.side = .white then whitePawnAttacks else blackPawnAttacks) s) t = true ↔
      Reaches (position b).occupied b.side .pawn s t := by
    rw [← hasBit_pawnAttacks]
    cases b.side <;> rfl
  obtain ⟨-, -, hsrc, -⟩ := coordX_rows b.side s
  have hkind : (!isMoveKindPromote k && coordX (toCoord s) == promoteSrcRow b.side) = true ↔
      ¬(k = .simple → row s ≠ pawnRow (invert b.side)) := by
    rw [Bool.and_eq_true, Bool.not_eq_true', beq_iff_eq, hsrc]
    rcases hk with rfl | hk
    · simp [isMoveKindPromote]
    · have : k ≠ .simple := by rintro rfl; cases hk
      simp [hk, this]
  have hne : k ≠ .null ∧ k ≠ .castlingKingside ∧ k ≠ .castlingQueenside ∧ k ≠ .pawnDoubleMove ∧
      k ≠ .enpassant := by
    rcases hk with rfl | hk
    · decide
    · refine ⟨?_, ?_, ?_, ?_, ?_⟩ <;> rintro rfl <;> cases hk
  obtain ⟨h1, h2, h3, h4, h5⟩ := hne
  simp only [isMoveValid, isMoveValidImpl, mkMove, h1, h2, h3, h4, h5, if_false, toSquare_toCoord,
    hs, if_true, hkind]
  split
  · rename_i h
    simp [h]
  rename_i h
  rw [not_not] at h
  rw [iff_true_intro h, true_and]
  rcases isCellValid_iff.mp (hb.cells t) with he | ⟨c, q, he⟩
  · have henemy : ¬(position b).Enemy t := by
      rw [enemy_iff]
      rintro ⟨q, hq⟩
      exact emptyCell_ne_makeCell _ _ (he.symm.trans hq)
    simp [he, (pieceAt_eq_none hb.cells).mpr he, henemy, forward_iff (hb.pawns _ _ hs)]
  · have hnone : (position b).pieceAt t ≠ none := by
      rw [pieceAt_eq_some.mpr he]
      exact fun he => by cases he
    rcases eq_or_eq_invert b.side c with rfl | rfl
    · have henemy : ¬(position b).Enemy t := by
        rw [enemy_iff]
        rintro ⟨q', hq⟩
        simp [he] at hq
      simp [he, hnone, henemy]
    · have henemy : (position b).Enemy t := enemy_iff.mpr ⟨q, he⟩
      simp only [he, makeCell_ne_emptyCell, if_false, cellPieceColor_makeCell, ne_eq, invert_ne,
        not_false_eq_true, if_true, hnone, and_false, false_or, henemy, and_true]
      rw [and_coordToBitboard_bne]
      exact hatt

omit [Globals] in
theorem lastRow_iff {C : Color} (h : (row t : Int) = row s + forward C) :
    row t = lastRow C ↔ row s = pawnRow (invert C) := by
  cases C <;> simp only [forward, lastRow, pawnRow, invert] at h ⊢ <;> omega

theorem valid_pawn (hb : Regular b) (hs : b.cells s = makeCell b.side .pawn)
    (hk : k = .simple ∨ isMoveKindPromote k = true) :
    (mkMove k s t).isWellFormed b.side = true ∧ isMoveValid b (mkMove k s t) = true ↔
      (position b).PawnKind k t ∧
        (offset (forward b.side, 0) s = some t ∧ (position b).pieceAt t = none ∨
          Reaches (position b).occupied b.side .pawn s t ∧ (position b).Enemy t) := by
  rw [isMoveValid_pawn hb hs hk, ← and_assoc]
  refine and_congr_left fun hmove => ?_
  have hrow : (row t : Int) = row s + forward b.side := by
    rcases hmove with ⟨ho, -⟩ | ⟨hr, -⟩
    · exact (row_forward ho).1
    · exact hr.1
  have hst : s ≠ t := by
    rintro rfl
    have := forward_ne_zero b.side
    omega
  have hcol : col s = col t ∨ colDist s t = 1 := by
    rcases hmove with ⟨ho, -⟩ | ⟨hr, -⟩
    · exact Or.inl (row_forward ho).2.symm
    · exact Or.inr hr.2
  have hlast := lastRow_iff hrow
  rw [Position.PawnKind, position_side]
  rcases hk with rfl | hk
  · rw [isWellFormed_simple]
    by_cases h : row t = lastRow b.side
    · simp [h, hlast.mp h, isMoveKindPromote]
    · simp [h, mt hlast.mpr h, hst]
  · have hks : k ≠ .simple := by rintro rfl; cases hk
    rw [isWellFormed_promote hk]
    by_cases h : row t = lastRow b.side
    · simp [h, hlast.mp h, hk, hks, hcol]
    · simp [h, hks]

/-- What `isMoveValid` asks of the other pieces. -/
theorem valid_piece (hb : Regular b) {pc : Piece} (hpc : pc ≠ .pawn)
    (hs : b.cells s = makeCell b.side pc) : isMoveValid b (mkMove .simple s t) = true ↔
      ¬(position b).Own t ∧ Reaches (position b).occupied b.side pc s t := by
  have hown : coordToBitboard t &&& bbColor b b.side ≠ 0 ↔ (position b).Own t := by
    rw [BitVec.and_comm, and_coordToBitboard_ne_zero, hasBit_bbColor hb.cells hb.synced, own_iff]
  simp only [isMoveValid, isMoveValidImpl, mkMove, reduceCtorEq, if_false, toSquare_toCoord, hs,
    makeCell_inj, hpc, and_false, true_and]
  by_cases h : (position b).Own t
  · rw [if_neg nofun, if_pos (hown.mpr h)]
    simp [h]
  rw [if_neg nofun, if_neg (mt hown.mp h), iff_true_intro h, true_and]
  have hocc := occupied_eq hb.cells hb.synced
  cases pc with
  | pawn => exact absurd rfl hpc
  | king =>
    simp only [reduceCtorEq, if_false, if_true, and_coordToBitboard_bne]
    exact hasBit_kingAttacks
  | knight =>
    simp only [reduceCtorEq, if_false, if_true, and_coordToBitboard_bne]
    exact hasBit_knightAttacks
  | bishop =>
    simp only [reduceCtorEq, if_false, if_true, bishopAttackMasked_eq, and_coordToBitboard_bne]
    rw [hasBit_bishopAttackBitboard (c := b.side), hocc]
  | rook =>
    simp only [reduceCtorEq, if_false, if_true, rookAttackMasked_eq, and_coordToBitboard_bne]
    rw [hasBit_rookAttackBitboard (c := b.side), hocc]
  | queen =>
    simp only [reduceCtorEq, if_false, if_true, bishopAttackMasked_eq, rookAttackMasked_eq,
      Bool.or_eq_true, and_coordToBitboard_bne]
    rw [hasBit_bishopAttackBitboard (c := b.side), hasBit_rookAttackBitboard (c := b.side), hocc,
      reaches_queen]

theorem own_of_isMoveValid (hk : k = .simple ∨ isMoveKindPromote k = true)
    (h : isMoveValid b (mkMove k s t) = true) : ∃ pc, b.cells s = makeCell b.side pc := by
  by_contra hno
  push Not at hno
  have hne : k ≠ .null ∧ k ≠ .castlingKingside ∧ k ≠ .castlingQueenside := by
    rcases hk with rfl | hk
    · decide
    · refine ⟨?_, ?_, ?_⟩ <;> rintro rfl <;> cases hk
  obtain ⟨h1, h2, h3⟩ := hne
  simp [isMoveValid, isMoveValidImpl, mkMove, h1, h2, h3, hno] at h

theorem pawn_of_promote (hk : isMoveKindPromote k = true)
    (h : isMoveValid b (mkMove k s t) = true) : b.cells s = makeCell b.side .pawn := by
  by_contra hno
  have hne : k ≠ .null ∧ k ≠ .castlingKingside ∧ k ≠ .castlingQueenside ∧ k ≠ .simple := by
    refine ⟨?_, ?_, ?_, ?_⟩ <;> rintro rfl <;> cases hk
  obtain ⟨h1, h2, h3, h4⟩ := hne
  simp [isMoveValid, isMoveValidImpl, mkMove, h1, h2, h3, h4, hno] at h

omit [Globals] in
theorem pseudo_of_pawn (hs : b.cells s = makeCell b.side .pawn)
    (h : (position b).PawnKind k t ∧
      (offset (forward b.side, 0) s = some t ∧ (position b).pieceAt t = none ∨
        Reaches (position b).occupied b.side .pawn s t ∧ (position b).Enemy t)) :
    (position b).Pseudo k s t := by
  obtain ⟨hk, ⟨ho, ht⟩ | ⟨hr, ht⟩⟩ := h
  · exact Position.Pseudo.push (pieceAt_eq_some.mpr hs) ho ht hk
  · exact Position.Pseudo.capture (pieceAt_eq_some.mpr hs) hr ht hk

/-- `isMoveValid` decides the pseudo-legal moves of the mailbox rules. -/
theorem isMoveValid_iff (hb : Regular b) :
    (mkMove k s t).isWellFormed b.side = true ∧ isMoveValid b (mkMove k s t) = true ↔
      (position b).Pseudo k s t := by
  have hpawn : ∀ {k s t}, (position b).Pseudo k s t →
      (position b).pieceAt s = some (b.side, .pawn) →
      k = .simple ∨ isMoveKindPromote k = true →
      (mkMove k s t).isWellFormed b.side = true ∧ isMoveValid b (mkMove k s t) = true := by
    intro k s t h hs hk
    refine (valid_pawn hb (pieceAt_eq_some.mp hs) hk).mpr ?_
    cases h with
    | piece hs' hpc hr ht =>
      rw [hs, Option.some_inj, Prod.mk.injEq] at hs'
      exact absurd hs'.2.symm hpc
    | push hs' ho ht hk' => exact ⟨hk', Or.inl ⟨ho, ht⟩⟩
    | capture hs' hr ht hk' => exact ⟨hk', Or.inr ⟨hr, ht⟩⟩
    | _ => exact absurd hk (by decide)
  cases k
  case null =>
    constructor
    · rintro ⟨-, h⟩
      simp [isMoveValid, isMoveValidImpl, mkMove] at h
    · exact fun h => absurd rfl (ne_null_of_pseudo h)
  case invalid =>
    constructor
    · rintro ⟨h, -⟩
      rw [isWellFormed_invalid] at h
      cases h
    · intro h
      cases h with
      | push hs ho ht hk => exact absurd (pawnKind_cases hk) (by decide)
      | capture hs hr ht hk => exact absurd (pawnKind_cases hk) (by decide)
  case pawnDoubleMove => exact valid_double hb
  case enpassant => exact valid_enpassant hb
  case castlingKingside => exact valid_castlingKingside hb
  case castlingQueenside => exact valid_castlingQueenside hb
  case simple =>
    constructor
    · rintro ⟨hw, hv⟩
      obtain ⟨pc, hs⟩ := own_of_isMoveValid (Or.inl rfl) hv
      by_cases hpc : pc = .pawn
      · subst hpc
        exact pseudo_of_pawn hs ((valid_pawn hb hs (Or.inl rfl)).mp ⟨hw, hv⟩)
      · obtain ⟨ht, hr⟩ := (valid_piece hb hpc hs).mp hv
        exact Position.Pseudo.piece (pieceAt_eq_some.mpr hs) hpc hr ht
    · intro h
      cases h with
      | piece hs hpc hr ht =>
        exact ⟨isWellFormed_simple.mpr hr.ne, (valid_piece hb hpc (pieceAt_eq_some.mp hs)).mpr ⟨ht, hr⟩⟩
      | push hs ho ht hk => exact hpawn (Position.Pseudo.push hs ho ht hk) hs (Or.inl rfl)
      | capture hs hr ht hk => exact hpawn (Position.Pseudo.capture hs hr ht hk) hs (Or.inl rfl)
  case promoteKnight | promoteBishop | promoteRook | promoteQueen =>
    constructor
    · rintro ⟨hw, hv⟩
      have hs := pawn_of_promote rfl hv
      exact pseudo_of_pawn hs ((valid_pawn hb hs (Or.inr rfl)).mp ⟨hw, hv⟩)
    · intro h
      cases h with
      | push hs ho ht hk => exact hpawn (Position.Pseudo.push hs ho ht hk) hs (Or.inr rfl)
      | capture hs hr ht hk => exact hpawn (Position.Pseudo.capture hs hr ht hk) hs (Or.inr rfl)

end Board

end SoFCheck.Core.PseudoLegal
