import SoFCheck.Core.MakeCells

namespace SoFCheck.Core.MakeHash

open SoFCheck.Util.Bits SoFCheck.Util.XorSum
open SoFCheck.Core.Types SoFCheck.Core.Grid SoFCheck.Core.Geometry SoFCheck.Core.BoardState
open SoFCheck.Core.Moves SoFCheck.Core.MoveMake SoFCheck.Core.MakeCells SoFCheck.Core.Mailbox

variable [Globals]

/-- How far the stored hash is from the hash of the essential fields. -/
def defect (b : Board) : BoardHash := b.hash ^^^ boardHash b

theorem defect_eq_zero {b : Board} : defect b = 0 ↔ b.hash = boardHash b := by
  rw [defect]
  exact BitVec.xor_eq_zero_iff

section Statements

variable (b : Board)

theorem defect_xorHash (h : BoardHash) : defect (xorHash b h) = defect b ^^^ h := by
  simp only [defect, xorHash, boardHash, BitVec.xor_assoc, BitVec.xor_comm h]

theorem defect_modifyColor (c : Color) (f : Bitboard → Bitboard) :
    defect (modifyColor b c f) = defect b := rfl

theorem defect_modifyPieces (x : Cell) (f : Bitboard → Bitboard) :
    defect (modifyPieces b x f) = defect b := rfl

theorem defect_setCell (s : Square) (x : Cell) : defect (setCell b s x) =
    defect b ^^^ zobristPieces (b.cells s) s ^^^ zobristPieces x s := by
  simp only [defect, boardHash, setCell, xorSum_update_cells, BitVec.xor_assoc]

theorem defect_setCastling (x : Castling) : defect (setCastling b x) =
    defect b ^^^ zobristCastling b.castling ^^^ zobristCastling x := by
  simp only [defect, boardHash, setCastling, BitVec.xor_assoc, BitVec.xor_comm, xor_left_comm,
    xor_cancel]

theorem defect_setEnpassant (x : Coord) : defect (setEnpassant b x) =
    defect b ^^^ enpassantTerm b.enpassantCoord ^^^ enpassantTerm x := by
  simp only [defect, boardHash, setEnpassant, BitVec.xor_assoc, BitVec.xor_comm, xor_left_comm,
    xor_cancel]

theorem zobristPieces_emptyCell (s : Square) : zobristPieces emptyCell s = 0 :=
  Globals.zobrist.pieces_empty s

theorem enpassantTerm_toCoord (s : Square) : enpassantTerm (toCoord s) = zobristEnpassant s := by
  rw [enpassantTerm, if_pos (toCoord_ne_invalidCoord s), toSquare_toCoord]

theorem enpassantTerm_invalidCoord : enpassantTerm invalidCoord = 0 := by
  rw [enpassantTerm, if_neg (not_not.mpr rfl)]

end Statements

section Kinds

variable {C : Color} {b : Board}

theorem defect_updateCastling (x : Bitboard) : defect (updateCastling b x) = defect b := by
  rw [updateCastling]
  dsimp only
  split_ifs
  · rfl
  · rw [defect_xorHash, defect_setCastling, defect_xorHash]
    simp only [setCastling_castling, xorHash_castling, BitVec.xor_assoc,
      BitVec.xor_self, BitVec.xor_zero]
  · rfl

theorem defect_dropCastling : defect (dropCastling C b) = defect b := by
  change defect (xorHash (setCastling (xorHash b _) _) _) = _
  rw [defect_xorHash, defect_setCastling, defect_xorHash]
  simp only [clearCastling, xorHash_castling, BitVec.xor_assoc, BitVec.xor_self,
    BitVec.xor_zero]

theorem defect_dropEnpassant : defect (dropEnpassant b) = defect b := by
  rw [dropEnpassant]
  split
  · rename_i h
    simp only [defect_setEnpassant, defect_xorHash, xorHash_enpassantCoord, enpassantTerm_invalidCoord]
    rw [enpassantTerm, if_pos h]
    simp
  · rfl

theorem defect_makeSimple {src dst : Square} (hsd : src ≠ dst) :
    defect (makeSimple C b src dst (b.cells src) (b.cells dst)) = defect b := by
  rw [makeSimple, defect_updateCastling]
  simp [defect_modifyPieces, defect_modifyColor, defect_xorHash, defect_setCell, hsd.symm,
    zobristPieces_emptyCell, BitVec.xor_assoc, BitVec.xor_comm, xor_left_comm]

theorem defect_makePromote {src dst : Square} (hsd : src ≠ dst) (x : Cell) :
    defect (makePromote C b x src dst (b.cells src) (b.cells dst)) = defect b := by
  rw [makePromote, defect_updateCastling]
  simp [defect_modifyPieces, defect_modifyColor, defect_xorHash, defect_setCell, hsd.symm,
    zobristPieces_emptyCell, BitVec.xor_assoc, BitVec.xor_comm, xor_left_comm]

theorem defect_makePawnDoubleMove {src dst : Square} (hsd : src ≠ dst)
    (hs : b.cells src = makeCell C .pawn) (hd : b.cells dst = emptyCell)
    (he : b.enpassantCoord = invalidCoord) (x : Bitboard) :
    defect (makePawnDoubleMove C false b (mkMove .pawnDoubleMove src dst) x) = defect b := by
  simp [makePawnDoubleMove, mkMove, defect_modifyPieces, defect_modifyColor, defect_xorHash,
    defect_setCell, defect_setEnpassant, he, enpassantTerm_invalidCoord, enpassantTerm_toCoord,
    hsd.symm, hs, hd, zobristPieces_emptyCell, BitVec.xor_assoc, BitVec.xor_comm]

theorem defect_makeEnpassant {src dst taken : Square} (hsd : src ≠ dst) (hst : src ≠ taken)
    (hdt : dst ≠ taken) (htk : toSquare (enpassantPawnPos C (toCoord dst)) = taken)
    (hs : b.cells src = makeCell C .pawn) (hd : b.cells dst = emptyCell)
    (ht : b.cells taken = makeCell (invert C) .pawn) (x : Bitboard) :
    defect (makeEnpassant C false b (mkMove .enpassant src dst) x) = defect b := by
  simp [makeEnpassant, mkMove, htk, defect_modifyPieces, defect_modifyColor, defect_xorHash,
    defect_setCell, hsd.symm, hst.symm, hdt.symm, hs, hd, ht, zobristPieces_emptyCell,
    BitVec.xor_assoc, BitVec.xor_comm]

theorem zobristPieceCastlingKingside_eq (C : Color) : zobristPieceCastlingKingside C =
    zobristPieces (makeCell C .king) (homeCell C 4) ^^^
      zobristPieces (makeCell C .rook) (homeCell C 5) ^^^
      zobristPieces (makeCell C .king) (homeCell C 6) ^^^
      zobristPieces (makeCell C .rook) (homeCell C 7) := by
  obtain ⟨h0, h2, h3, h4, h5, h6, h7⟩ := castlingSquare_homeCell C
  rw [← h4, ← h5, ← h6, ← h7]
  exact Globals.zobrist.kingside_eq C

theorem zobristPieceCastlingQueenside_eq (C : Color) : zobristPieceCastlingQueenside C =
    zobristPieces (makeCell C .rook) (homeCell C 0) ^^^
      zobristPieces (makeCell C .king) (homeCell C 2) ^^^
      zobristPieces (makeCell C .rook) (homeCell C 3) ^^^
      zobristPieces (makeCell C .king) (homeCell C 4) := by
  obtain ⟨h0, h2, h3, h4, h5, h6, h7⟩ := castlingSquare_homeCell C
  rw [← h0, ← h2, ← h3, ← h4]
  exact Globals.zobrist.queenside_eq C

theorem defect_makeKingsideCastling (h4 : b.cells (homeCell C 4) = makeCell C .king)
    (h5 : b.cells (homeCell C 5) = emptyCell) (h6 : b.cells (homeCell C 6) = emptyCell)
    (h7 : b.cells (homeCell C 7) = makeCell C .rook) :
    defect (makeKingsideCastling C false b) = defect b := by
  have e4 : toSquare (castlingOffset C + 4) = homeCell C 4 := toSquare_castlingOffset C 4
  have e5 : toSquare (castlingOffset C + 5) = homeCell C 5 := toSquare_castlingOffset C 5
  have e6 : toSquare (castlingOffset C + 6) = homeCell C 6 := toSquare_castlingOffset C 6
  have e7 : toSquare (castlingOffset C + 7) = homeCell C 7 := toSquare_castlingOffset C 7
  simp [makeKingsideCastling, e4, e5, e6, e7, defect_dropCastling, defect_modifyPieces,
    defect_modifyColor, defect_xorHash, defect_setCell, homeCell_inj, h4, h5, h6, h7,
    zobristPieceCastlingKingside_eq, zobristPieces_emptyCell, BitVec.xor_assoc, BitVec.xor_comm,
    xor_left_comm]

theorem defect_makeQueensideCastling (h0 : b.cells (homeCell C 0) = makeCell C .rook)
    (h2 : b.cells (homeCell C 2) = emptyCell) (h3 : b.cells (homeCell C 3) = emptyCell)
    (h4 : b.cells (homeCell C 4) = makeCell C .king) :
    defect (makeQueensideCastling C false b) = defect b := by
  have e0 : toSquare (castlingOffset C + 0) = homeCell C 0 := toSquare_castlingOffset C 0
  have e2 : toSquare (castlingOffset C + 2) = homeCell C 2 := toSquare_castlingOffset C 2
  have e3 : toSquare (castlingOffset C + 3) = homeCell C 3 := toSquare_castlingOffset C 3
  have e4 : toSquare (castlingOffset C + 4) = homeCell C 4 := toSquare_castlingOffset C 4
  simp only [makeQueensideCastling, e0, e2, e3, e4]
  simp [defect_dropCastling, defect_modifyPieces,
    defect_modifyColor, defect_xorHash, defect_setCell, homeCell_inj, h0, h2, h3, h4,
    zobristPieceCastlingQueenside_eq, zobristPieces_emptyCell, BitVec.xor_assoc, BitVec.xor_comm,
    xor_left_comm]

theorem defect_makeKind {k : MoveKind} {s t : Square} (hm : Shape b.cells C k s t)
    (he : b.enpassantCoord = invalidCoord) :
    defect (makeKind C b (mkMove k s t) (b.cells s) (b.cells t)) = defect b := by
  have hcast : toSquare (mkMove k s t).src = s ∧ toSquare (mkMove k s t).dst = t := by
    simp [mkMove]
  rw [makeKind, hcast.1, hcast.2]
  cases k with
  | null => rfl
  | invalid => rfl
  | simple => exact defect_makeSimple hm.1
  | pawnDoubleMove => exact defect_makePawnDoubleMove hm.1 hm.2.1 hm.2.2 he _
  | enpassant =>
    obtain ⟨hne, h1, h2, hs, ht, htk⟩ := hm
    exact defect_makeEnpassant hne h1 h2 rfl hs ht htk _
  | castlingKingside =>
    obtain ⟨rfl, rfl, h4, h5, h6, h7⟩ := hm
    exact defect_makeKingsideCastling h4 h5 h6 h7
  | castlingQueenside =>
    obtain ⟨rfl, rfl, h0, h2, h3, h4⟩ := hm
    exact defect_makeQueensideCastling h0 h2 h3 h4
  | promoteKnight | promoteBishop | promoteRook | promoteQueen => exact defect_makePromote hm.1 _

end Kinds

end SoFCheck.Core.MakeHash
