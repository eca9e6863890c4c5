import SoFCheck.Core.CellView
import SoFCheck.Core.Position

namespace SoFCheck.Core.MakeCells

open SoFCheck.Util.Bits
open SoFCheck.Core.Types SoFCheck.Core.Grid SoFCheck.Core.Geometry SoFCheck.Core.BoardState
open SoFCheck.Core.Moves SoFCheck.Core.MoveMake SoFCheck.Core.CellView SoFCheck.Core.Mailbox

/-- The board shows the contents `f`, in its cells as well as in its
bitboards. -/
def Shows (b : Board) (f : Square → Cell) : Prop := ∀ s, view b s = ofCell (f s)

theorem Shows.cells {b : Board} {f : Square → Cell} (h : Shows b f) : b.cells = f :=
  funext fun s => congrArg View.cell (h s)

theorem Shows.synced {b : Board} {f : Square → Cell} (h : Shows b f)
    (ha : b.bbAll = b.bbWhite ||| b.bbBlack) : Synced b :=
  synced_iff.mpr ⟨fun s => by rw [h.cells]; exact h s, ha⟩

theorem shows_of_synced {b : Board} (h : Synced b) : Shows b b.cells := (synced_iff.mp h).1

/-- The contents after the piece on `src` has gone to `dst` as `x`. -/
def relocateCells (f : Square → Cell) (src dst : Square) (x : Cell) : Square → Cell :=
  Function.update (Function.update f src emptyCell) dst x

section Geometry

theorem homeCell_inj {c : Color} {i j : Fin 8} : homeCell c i = homeCell c j ↔ i = j := by
  revert c i j
  decide

theorem toSquare_castlingOffset (c : Color) (y : Fin 8) :
    toSquare (castlingOffset c + Int8.ofNat y) = homeCell c y := by
  revert c y
  decide

theorem castlingSquare_homeCell (C : Color) : castlingSquare C 0 = homeCell C 0 ∧
    castlingSquare C 2 = homeCell C 2 ∧ castlingSquare C 3 = homeCell C 3 ∧
    castlingSquare C 4 = homeCell C 4 ∧ castlingSquare C 5 = homeCell C 5 ∧
    castlingSquare C 6 = homeCell C 6 ∧ castlingSquare C 7 = homeCell C 7 := by
  cases C <;> decide

theorem hasBit_homeMasks (c : Color) (s : Square) :
    (hasBit (0xf0#64 <<< castlingShift c) s = decide (∃ i ∈ [4, 5, 6, 7], s = homeCell c i)) ∧
    (hasBit (0xa0#64 <<< castlingShift c) s = decide (∃ i ∈ [5, 7], s = homeCell c i)) ∧
    (hasBit (0x50#64 <<< castlingShift c) s = decide (∃ i ∈ [4, 6], s = homeCell c i)) ∧
    (hasBit (0x1d#64 <<< castlingShift c) s = decide (∃ i ∈ [0, 2, 3, 4], s = homeCell c i)) ∧
    (hasBit (0x09#64 <<< castlingShift c) s = decide (∃ i ∈ [0, 3], s = homeCell c i)) ∧
    (hasBit (0x14#64 <<< castlingShift c) s = decide (∃ i ∈ [2, 4], s = homeCell c i)) := by
  revert c s
  decide +kernel

end Geometry

section Kinds

variable [Globals] {C : Color} {b : Board} {f : Square → Cell} (h : Shows b f)

include h

theorem shows_updateCastling (x : Bitboard) : Shows (updateCastling b x) f := by
  intro s
  rw [← h s, updateCastling]
  dsimp only
  split_ifs <;> rfl

theorem shows_dropEnpassant : Shows (dropEnpassant b) f := by
  intro s
  rw [← h s, dropEnpassant]
  split <;> rfl

omit h in
theorem view_dropCastling (s : Square) : view (dropCastling C b) s = view b s := rfl

theorem shows_makeSimple {src dst : Square} (hsd : src ≠ dst) {p : Piece}
    (hs : f src = makeCell C p) (hd : Takeable C (f dst)) :
    Shows (makeSimple C b src dst (makeCell C p) (f dst))
      (relocateCells f src dst (makeCell C p)) := by
  refine shows_updateCastling (fun s => ?_) _
  simp only [view_clearPieces, view_clearColor, view_xorPieces, view_xorColor, view_xorHash,
    view_setCell, coordToBitboard, hasBit_or, hasBit_single, Bool.or_eq_true, decide_eq_true_eq,
    h s, relocateCells]
  by_cases h1 : s = src
  · subst h1
    simp [hsd, hsd.symm, hs, lift_piece]
  · by_cases h2 : s = dst
    · subst h2
      simp [hsd.symm, capture_piece hd]
    · simp [h1, h2, Ne.symm h1, Ne.symm h2]

theorem shows_makePromote {src dst : Square} (hsd : src ≠ dst) (p : Piece)
    (hs : f src = makeCell C .pawn) (hd : Takeable C (f dst)) :
    Shows (makePromote C b (makeCell C p) src dst (makeCell C .pawn) (f dst))
      (relocateCells f src dst (makeCell C p)) := by
  refine shows_updateCastling (fun s => ?_) _
  simp only [view_clearPieces, view_clearColor, view_xorPieces, view_xorColor, view_xorHash,
    view_setCell, coordToBitboard, hasBit_or, hasBit_single, Bool.or_eq_true, decide_eq_true_eq,
    h s, relocateCells]
  by_cases h1 : s = src
  · subst h1
    simp [hsd, hsd.symm, hs, lift_piece]
  · by_cases h2 : s = dst
    · subst h2
      simp [hsd, hsd.symm, capture_piece hd]
    · simp [h1, h2, Ne.symm h1, Ne.symm h2]

theorem shows_makePawnDoubleMove {src dst : Square} (hsd : src ≠ dst)
    (hs : f src = makeCell C .pawn) (hd : f dst = emptyCell) :
    Shows (makePawnDoubleMove C false b (mkMove .pawnDoubleMove src dst)
        (coordToBitboard src ||| coordToBitboard dst))
      (relocateCells f src dst (makeCell C .pawn)) := by
  intro s
  simp only [makePawnDoubleMove, mkMove, toSquare_toCoord, Bool.false_eq_true, if_false,
    view_xorPieces, view_xorColor, view_xorHash, view_setEnpassant, view_setCell, coordToBitboard,
    hasBit_or, hasBit_single, Bool.or_eq_true, decide_eq_true_eq, h s, relocateCells]
  by_cases h1 : s = src
  · subst h1
    simp [hsd, hs, lift_piece]
  · by_cases h2 : s = dst
    · subst h2
      simp [hsd.symm, hd, drop_piece]
    · simp [h1, h2, Ne.symm h1, Ne.symm h2]

theorem shows_makeEnpassant {src dst taken : Square} (hsd : src ≠ dst) (hst : src ≠ taken)
    (hdt : dst ≠ taken) (htk : toSquare (enpassantPawnPos C (toCoord dst)) = taken)
    (hs : f src = makeCell C .pawn) (hd : f dst = emptyCell)
    (ht : f taken = makeCell (invert C) .pawn) :
    Shows (makeEnpassant C false b (mkMove .enpassant src dst)
        (coordToBitboard src ||| coordToBitboard dst))
      (Function.update (relocateCells f src dst (makeCell C .pawn)) taken emptyCell) := by
  intro s
  simp only [makeEnpassant, mkMove, toSquare_toCoord, htk, Bool.false_eq_true, if_false,
    view_xorPieces, view_xorColor, view_xorHash, view_setCell, coordToBitboard,
    hasBit_or, hasBit_single, Bool.or_eq_true, decide_eq_true_eq, h s, relocateCells]
  by_cases h1 : s = src
  · subst h1
    simp [hsd, hst, hst.symm, hs, lift_piece]
  · by_cases h2 : s = dst
    · subst h2
      simp [hsd.symm, hdt, hdt.symm, hd, drop_piece]
    · by_cases h3 : s = taken
      · subst h3
        simp [Ne.symm h1, Ne.symm h2, h1, h2, ht, lift_piece]
      · simp [h1, h2, h3, Ne.symm h1, Ne.symm h2, Ne.symm h3]

theorem shows_makeKingsideCastling (h4 : f (homeCell C 4) = makeCell C .king)
    (h5 : f (homeCell C 5) = emptyCell) (h6 : f (homeCell C 6) = emptyCell)
    (h7 : f (homeCell C 7) = makeCell C .rook) :
    Shows (makeKingsideCastling C false b)
      (relocateCells (relocateCells f (homeCell C 4) (homeCell C 6) (makeCell C .king))
        (homeCell C 7) (homeCell C 5) (makeCell C .rook)) := by
  intro s
  obtain ⟨m1, m2, m3, -, -, -⟩ := hasBit_homeMasks C s
  have e4 : toSquare (castlingOffset C + 4) = homeCell C 4 := toSquare_castlingOffset C 4
  have e5 : toSquare (castlingOffset C + 5) = homeCell C 5 := toSquare_castlingOffset C 5
  have e6 : toSquare (castlingOffset C + 6) = homeCell C 6 := toSquare_castlingOffset C 6
  have e7 : toSquare (castlingOffset C + 7) = homeCell C 7 := toSquare_castlingOffset C 7
  simp only [makeKingsideCastling, Bool.false_eq_true, if_false, view_dropCastling, view_xorPieces,
    view_xorColor, view_xorHash, view_setCell, m1, m2, m3, decide_eq_true_eq, h s, relocateCells,
    e4, e5, e6, e7, List.exists_mem_cons_iff, List.not_mem_nil, false_and, exists_false, or_false]
  by_cases h1 : s = homeCell C 4
  · subst h1
    simp [homeCell_inj, h4, lift_piece]
  by_cases h2 : s = homeCell C 5
  · subst h2
    simp [homeCell_inj, h5, drop_piece]
  by_cases h3 : s = homeCell C 6
  · subst h3
    simp [homeCell_inj, h6, drop_piece]
  by_cases h8 : s = homeCell C 7
  · subst h8
    simp [homeCell_inj, h7, lift_piece]
  · simp [h1, h2, h3, h8]

theorem shows_makeQueensideCastling (h0 : f (homeCell C 0) = makeCell C .rook)
    (h2 : f (homeCell C 2) = emptyCell) (h3 : f (homeCell C 3) = emptyCell)
    (h4 : f (homeCell C 4) = makeCell C .king) :
    Shows (makeQueensideCastling C false b)
      (relocateCells (relocateCells f (homeCell C 4) (homeCell C 2) (makeCell C .king))
        (homeCell C 0) (homeCell C 3) (makeCell C .rook)) := by
  intro s
  obtain ⟨-, -, -, m1, m2, m3⟩ := hasBit_homeMasks C s
  have e0 : toSquare (castlingOffset C + 0) = homeCell C 0 := toSquare_castlingOffset C 0
  have e2 : toSquare (castlingOffset C + 2) = homeCell C 2 := toSquare_castlingOffset C 2
  have e3 : toSquare (castlingOffset C + 3) = homeCell C 3 := toSquare_castlingOffset C 3
  have e4 : toSquare (castlingOffset C + 4) = homeCell C 4 := toSquare_castlingOffset C 4
  simp only [makeQueensideCastling, Bool.false_eq_true, if_false, view_dropCastling,
    view_xorPieces, view_xorColor, view_xorHash, view_setCell, m1, m2, m3, decide_eq_true_eq, h s,
    relocateCells, e0, e2, e3, e4, List.exists_mem_cons_iff, List.not_mem_nil, false_and,
    exists_false, or_false]
  by_cases h1 : s = homeCell C 0
  · subst h1
    simp [homeCell_inj, h0, lift_piece]
  by_cases h5 : s = homeCell C 2
  · subst h5
    simp [homeCell_inj, h2, drop_piece]
  by_cases h6 : s = homeCell C 3
  · subst h6
    simp [homeCell_inj, h3, drop_piece]
  by_cases h7 : s = homeCell C 4
  · subst h7
    simp [homeCell_inj, h4, lift_piece]
  · simp [h1, h5, h6, h7]

end Kinds

section Unmake

variable {C : Color} {b : Board} {f : Square → Cell}

theorem view_restoreCaptured (dst : Square) (x : Cell) (s : Square) :
    view (restoreCaptured C b dst x) s =
      if x ≠ emptyCell ∧ dst = s then
        ((view b s).assignColor (invert C) true).assignPiece x true
      else view b s := by
  rw [restoreCaptured]
  split
  · rename_i hx
    simp only [view_raisePieces, view_raiseColor, coordToBitboard, hasBit_single,
      decide_eq_true_eq, hx, Ne, not_false_eq_true, true_and]
    split_ifs <;> rfl
  · rename_i hx
    rw [if_neg fun h' => hx h'.1]

theorem shows_unmakeSimple {src dst : Square} (hsd : src ≠ dst) {p : Piece}
    (hs : f src = makeCell C p) (hd : Takeable C (f dst))
    (h : Shows b (relocateCells f src dst (makeCell C p))) :
    Shows (unmakeSimple C b src dst (makeCell C p) (f dst)) f := by
  intro s
  rw [unmakeSimple, view_restoreCaptured]
  simp only [view_xorPieces, view_xorColor, view_setCell, coordToBitboard, hasBit_or,
    hasBit_single, Bool.or_eq_true, decide_eq_true_eq, h s, relocateCells]
  by_cases h1 : s = src
  · subst h1
    simp [hsd, hsd.symm, hs, drop_piece]
  by_cases h2 : s = dst
  · subst h2
    rcases hd with he | ⟨q, he⟩
    · simp [hsd, hsd.symm, he, lift_piece]
    · simp [hsd, hsd.symm, he, uncapture_piece]
  · simp [h1, h2, Ne.symm h1, Ne.symm h2]

theorem shows_unmakePromote {src dst : Square} (hsd : src ≠ dst) (p : Piece)
    (hs : f src = makeCell C .pawn) (hd : Takeable C (f dst))
    (h : Shows b (relocateCells f src dst (makeCell C p))) :
    Shows (unmakePromote C b (makeCell C p) src dst (f dst)) f := by
  intro s
  rw [unmakePromote, view_restoreCaptured]
  simp only [view_xorPieces, view_xorColor, view_setCell, coordToBitboard, hasBit_or,
    hasBit_single, Bool.or_eq_true, decide_eq_true_eq, h s, relocateCells]
  by_cases h1 : s = src
  · subst h1
    simp [hsd, hsd.symm, hs, drop_piece]
  by_cases h2 : s = dst
  · subst h2
    rcases hd with he | ⟨q, he⟩
    · simp [hsd, hsd.symm, he, lift_piece]
    · simp [hsd, hsd.symm, he, uncapture_piece]
  · simp [h1, h2, Ne.symm h1, Ne.symm h2]

variable [Globals]

theorem shows_unmakePawnDoubleMove {src dst : Square} (hsd : src ≠ dst)
    (hs : f src = makeCell C .pawn) (hd : f dst = emptyCell)
    (h : Shows b (relocateCells f src dst (makeCell C .pawn))) :
    Shows (makePawnDoubleMove C true b (mkMove .pawnDoubleMove src dst)
      (coordToBitboard src ||| coordToBitboard dst)) f := by
  intro s
  simp only [makePawnDoubleMove, mkMove, toSquare_toCoord, if_true, view_xorPieces,
    view_xorColor, view_setCell, coordToBitboard, hasBit_or, hasBit_single, Bool.or_eq_true,
    decide_eq_true_eq, h s, relocateCells]
  by_cases h1 : s = src
  · subst h1
    simp [hsd, hs, drop_piece]
  by_cases h2 : s = dst
  · subst h2
    simp [hsd.symm, hd, lift_piece]
  · simp [h1, h2, Ne.symm h1, Ne.symm h2]

theorem shows_unmakeEnpassant {src dst taken : Square} (hsd : src ≠ dst) (hst : src ≠ taken)
    (hdt : dst ≠ taken) (htk : toSquare (enpassantPawnPos C (toCoord dst)) = taken)
    (hs : f src = makeCell C .pawn) (hd : f dst = emptyCell)
    (ht : f taken = makeCell (invert C) .pawn)
    (h : Shows b (Function.update (relocateCells f src dst (makeCell C .pawn)) taken emptyCell)) :
    Shows (makeEnpassant C true b (mkMove .enpassant src dst)
      (coordToBitboard src ||| coordToBitboard dst)) f := by
  intro s
  simp only [makeEnpassant, mkMove, toSquare_toCoord, htk, if_true, view_xorPieces,
    view_xorColor, view_setCell, coordToBitboard, hasBit_or, hasBit_single, Bool.or_eq_true,
    decide_eq_true_eq, h s, relocateCells]
  by_cases h1 : s = src
  · subst h1
    simp [hsd, hst, hst.symm, hs, drop_piece]
  by_cases h2 : s = dst
  · subst h2
    simp [hsd.symm, hdt, hdt.symm, hd, lift_piece]
  by_cases h3 : s = taken
  · subst h3
    simp [Ne.symm h1, Ne.symm h2, h1, h2, ht, drop_piece]
  · simp [h1, h2, h3, Ne.symm h1, Ne.symm h2, Ne.symm h3]

theorem shows_unmakeKingsideCastling (h4 : f (homeCell C 4) = makeCell C .king)
    (h5 : f (homeCell C 5) = emptyCell) (h6 : f (homeCell C 6) = emptyCell)
    (h7 : f (homeCell C 7) = makeCell C .rook)
    (h : Shows b (relocateCells
      (relocateCells f (homeCell C 4) (homeCell C 6) (makeCell C .king))
      (homeCell C 7) (homeCell C 5) (makeCell C .rook))) :
    Shows (makeKingsideCastling C true b) f := by
  intro s
  obtain ⟨m1, m2, m3, -, -, -⟩ := hasBit_homeMasks C s
  have e4 : toSquare (castlingOffset C + 4) = homeCell C 4 := toSquare_castlingOffset C 4
  have e5 : toSquare (castlingOffset C + 5) = homeCell C 5 := toSquare_castlingOffset C 5
  have e6 : toSquare (castlingOffset C + 6) = homeCell C 6 := toSquare_castlingOffset C 6
  have e7 : toSquare (castlingOffset C + 7) = homeCell C 7 := toSquare_castlingOffset C 7
  simp only [makeKingsideCastling, if_true, view_xorPieces, view_xorColor, view_setCell, m1, m2,
    m3, decide_eq_true_eq, h s, relocateCells, e4, e5, e6, e7, List.exists_mem_cons_iff,
    List.not_mem_nil, false_and, exists_false, or_false]
  by_cases h1 : s = homeCell C 4
  · subst h1
    simp [homeCell_inj, h4, drop_piece]
  by_cases h2 : s = homeCell C 5
  · subst h2
    simp [homeCell_inj, h5, lift_piece]
  by_cases h3 : s = homeCell C 6
  · subst h3
    simp [homeCell_inj, h6, lift_piece]
  by_cases h8 : s = homeCell C 7
  · subst h8
    simp [homeCell_inj, h7, drop_piece]
  · simp [h1, h2, h3, h8]

theorem shows_unmakeQueensideCastling (h0 : f (homeCell C 0) = makeCell C .rook)
    (h2 : f (homeCell C 2) = emptyCell) (h3 : f (homeCell C 3) = emptyCell)
    (h4 : f (homeCell C 4) = makeCell C .king)
    (h : Shows b (relocateCells
      (relocateCells f (homeCell C 4) (homeCell C 2) (makeCell C .king))
      (homeCell C 0) (homeCell C 3) (makeCell C .rook))) :
    Shows (makeQueensideCastling C true b) f := by
  intro s
  obtain ⟨-, -, -, m1, m2, m3⟩ := hasBit_homeMasks C s
  have e0 : toSquare (castlingOffset C + 0) = homeCell C 0 := toSquare_castlingOffset C 0
  have e2 : toSquare (castlingOffset C + 2) = homeCell C 2 := toSquare_castlingOffset C 2
  have e3 : toSquare (castlingOffset C + 3) = homeCell C 3 := toSquare_castlingOffset C 3
  have e4 : toSquare (castlingOffset C + 4) = homeCell C 4 := toSquare_castlingOffset C 4
  simp only [makeQueensideCastling, if_true, view_xorPieces, view_xorColor, view_setCell, m1, m2,
    m3, decide_eq_true_eq, h s, relocateCells, e0, e2, e3, e4, List.exists_mem_cons_iff,
    List.not_mem_nil, false_and, exists_false, or_false]
  by_cases h1 : s = homeCell C 0
  · subst h1
    simp [homeCell_inj, h0, drop_piece]
  by_cases h5 : s = homeCell C 2
  · subst h5
    simp [homeCell_inj, h2, lift_piece]
  by_cases h6 : s = homeCell C 3
  · subst h6
    simp [homeCell_inj, h3, lift_piece]
  by_cases h7 : s = homeCell C 4
  · subst h7
    simp [homeCell_inj, h4, drop_piece]
  · simp [h1, h5, h6, h7]

end Unmake

section Assembled

/-- The contents after a move. -/
def movedCells (f : Square → Cell) (C : Color) (k : MoveKind) (s t : Square) : Square → Cell :=
  match k with
  | .null | .invalid => f
  | .simple | .pawnDoubleMove => relocateCells f s t (f s)
  | .enpassant =>
    Function.update (relocateCells f s t (f s)) (toSquare (enpassantPawnPos C (toCoord t))) emptyCell
  | .castlingKingside =>
    relocateCells (relocateCells f s t (f s)) (homeCell C 7) (homeCell C 5) (makeCell C .rook)
  | .castlingQueenside =>
    relocateCells (relocateCells f s t (f s)) (homeCell C 0) (homeCell C 3) (makeCell C .rook)
  | .promoteKnight | .promoteBishop | .promoteRook | .promoteQueen =>
    relocateCells f s t (makeCell C (moveKindPromotePiece k))

/-- What must stand where for a move of kind `k` to make sense. -/
def Shape (f : Square → Cell) (C : Color) (k : MoveKind) (s t : Square) : Prop :=
  match k with
  | .null => True
  | .invalid => False
  | .simple => s ≠ t ∧ (∃ p, f s = makeCell C p) ∧ Takeable C (f t)
  | .pawnDoubleMove => s ≠ t ∧ f s = makeCell C .pawn ∧ f t = emptyCell
  | .enpassant =>
    let taken := toSquare (enpassantPawnPos C (toCoord t))
    s ≠ t ∧ s ≠ taken ∧ t ≠ taken ∧ f s = makeCell C .pawn ∧ f t = emptyCell ∧
      f taken = makeCell (invert C) .pawn
  | .castlingKingside =>
    s = homeCell C 4 ∧ t = homeCell C 6 ∧ f (homeCell C 4) = makeCell C .king ∧
      f (homeCell C 5) = emptyCell ∧ f (homeCell C 6) = emptyCell ∧
      f (homeCell C 7) = makeCell C .rook
  | .castlingQueenside =>
    s = homeCell C 4 ∧ t = homeCell C 2 ∧ f (homeCell C 0) = makeCell C .rook ∧
      f (homeCell C 2) = emptyCell ∧ f (homeCell C 3) = emptyCell ∧
      f (homeCell C 4) = makeCell C .king
  | .promoteKnight | .promoteBishop | .promoteRook | .promoteQueen =>
    s ≠ t ∧ f s = makeCell C .pawn ∧ Takeable C (f t)

variable [Globals] {C : Color} {b : Board} {f : Square → Cell} {k : MoveKind} {s t : Square}

theorem shows_makeKind (h : Shows b f) (hm : Shape f C k s t) :
    Shows (makeKind C b (mkMove k s t) (f s) (f t)) (movedCells f C k s t) := by
  have hcast : toSquare (mkMove k s t).src = s ∧ toSquare (mkMove k s t).dst = t := by
    simp [mkMove]
  rw [makeKind, hcast.1, hcast.2]
  cases k with
  | null => exact h
  | invalid => exact hm.elim
  | simple =>
    obtain ⟨hne, ⟨p, hs⟩, ht⟩ := hm
    simp only [mkMove, movedCells, hs]
    exact shows_makeSimple h hne hs ht
  | pawnDoubleMove =>
    obtain ⟨hne, hs, ht⟩ := hm
    simp only [movedCells, hs]
    exact shows_makePawnDoubleMove h hne hs ht
  | enpassant =>
    obtain ⟨hne, h1, h2, hs, ht, htk⟩ := hm
    simp only [movedCells, hs]
    exact shows_makeEnpassant h hne h1 h2 rfl hs ht htk
  | castlingKingside =>
    obtain ⟨rfl, rfl, h4, h5, h6, h7⟩ := hm
    simp only [mkMove, movedCells, h4]
    exact shows_makeKingsideCastling h h4 h5 h6 h7
  | castlingQueenside =>
    obtain ⟨rfl, rfl, h0, h2, h3, h4⟩ := hm
    simp only [mkMove, movedCells, h4]
    exact shows_makeQueensideCastling h h0 h2 h3 h4
  | promoteKnight | promoteBishop | promoteRook | promoteQueen =>
    obtain ⟨hne, hs, ht⟩ := hm
    simp only [mkMove, hs]
    exact shows_makePromote h hne _ hs ht

theorem shows_unmakeKind (h : Shows b (movedCells f C k s t)) (hm : Shape f C k s t) :
    Shows (unmakeKind C b (mkMove k s t) (f t)) f := by
  have hcast : toSquare (mkMove k s t).src = s ∧ toSquare (mkMove k s t).dst = t := by
    simp [mkMove]
  rw [unmakeKind, hcast.1, hcast.2]
  cases k with
  | null => exact h
  | invalid => exact hm.elim
  | simple =>
    obtain ⟨hne, ⟨p, hs⟩, ht⟩ := hm
    have hb : b.cells t = makeCell C p := by
      rw [h.cells]
      simp [movedCells, relocateCells, hs]
    simp only [movedCells, hs] at h
    simp only [mkMove, hb]
    exact shows_unmakeSimple hne hs ht h
  | pawnDoubleMove =>
    obtain ⟨hne, hs, ht⟩ := hm
    simp only [movedCells, hs] at h
    exact shows_unmakePawnDoubleMove hne hs ht h
  | enpassant =>
    obtain ⟨hne, h1, h2, hs, ht, htk⟩ := hm
    simp only [movedCells, hs] at h
    exact shows_unmakeEnpassant hne h1 h2 rfl hs ht htk h
  | castlingKingside =>
    obtain ⟨rfl, rfl, h4, h5, h6, h7⟩ := hm
    simp only [movedCells, h4] at h
    exact shows_unmakeKingsideCastling h4 h5 h6 h7 h
  | castlingQueenside =>
    obtain ⟨rfl, rfl, h0, h2, h3, h4⟩ := hm
    simp only [movedCells, h4] at h
    exact shows_unmakeQueensideCastling h0 h2 h3 h4 h
  | promoteKnight | promoteBishop | promoteRook | promoteQueen =>
    obtain ⟨hne, hs, ht⟩ := hm
    exact shows_unmakePromote hne _ hs ht h

end Assembled

end SoFCheck.Core.MakeCells
