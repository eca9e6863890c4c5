import SoFCheck.Core.MakeRegular

namespace SoFCheck.Core.MakeRefine

open SoFCheck.Util.Bits
open SoFCheck.Core.Types SoFCheck.Core.Grid SoFCheck.Core.Geometry SoFCheck.Core.BoardState
open SoFCheck.Core.Moves SoFCheck.Core.MoveMake SoFCheck.Core.CellView SoFCheck.Core.MakeCells
open SoFCheck.Core.MakeBoard SoFCheck.Core.MakeValid SoFCheck.Core.MakeRegular
open SoFCheck.Core.Mailbox SoFCheck.Core.Validate SoFCheck.Core.Attack SoFCheck.Core.Position

variable [Globals] {b : Board} {k : MoveKind} {s t : Square}

section Fields

theorem updateCastling_enpassantCoord (b : Board) (x : Bitboard) :
    (updateCastling b x).enpassantCoord = b.enpassantCoord := by
  rw [updateCastling]
  dsimp only
  split_ifs <;> rfl

theorem makeKind_enpassantCoord (C : Color) (b : Board) (k : MoveKind) (s t : Square)
    (x y : Cell) : (makeKind C b (mkMove k s t) x y).enpassantCoord =
      if k = .pawnDoubleMove then toCoord t else b.enpassantCoord := by
  rw [makeKind]
  cases k with
  | simple =>
    simp only [mkMove, makeSimple, updateCastling_enpassantCoord]
    rfl
  | promoteKnight | promoteBishop | promoteRook | promoteQueen =>
    simp only [mkMove, makePromote, updateCastling_enpassantCoord]
    rfl
  | _ => rfl

theorem moveMake_enpassantCoord (b : Board) (k : MoveKind) (s t : Square) :
    (moveMake b (mkMove k s t)).1.enpassantCoord =
      if k = .pawnDoubleMove then toCoord t else invalidCoord := by
  rw [moveMake_mkMove, finishMove_enpassantCoord, makeKind_enpassantCoord,
    dropEnpassant_enpassantCoord]

theorem dropEnpassant_castling (b : Board) : (dropEnpassant b).castling = b.castling := by
  rw [dropEnpassant]
  split <;> rfl

theorem moveMake_flags (hc : CastlingOk b) (hm : Shape b.cells b.side k s t) (hk : k ≠ .null)
    (c : Color) :
    isKingsideCastling (moveMake b (mkMove k s t)).1 c = (isKingsideCastling b c &&
        !(([homeCell c 4, homeCell c 7] : List Square).any (· ∈ [s, t]))) ∧
      isQueensideCastling (moveMake b (mkMove k s t)).1 c = (isQueensideCastling b c &&
        !(([homeCell c 4, homeCell c 0] : List Square).any (· ∈ [s, t]))) := by
  have hcells := dropEnpassant_cells b
  have hflags := dropEnpassant_castling b
  have hc' : CastlingOk (dropEnpassant b) := by
    intro c
    rw [hcells, isKingsideCastling, isQueensideCastling, hflags]
    exact hc c
  have h := makeKind_flags hc' (by rwa [hcells]) hk c
  rw [hcells] at h
  rw [moveMake_mkMove, isKingsideCastling, isQueensideCastling, finishMove_castling]
  rw [isKingsideCastling, isQueensideCastling, isKingsideCastling, isQueensideCastling, hflags] at h
  exact h

theorem makeKind_castling_le (C : Color) (b : Board) (m : Move) (x y : Cell)
    (h : b.castling &&& Castling.all = b.castling) :
    (makeKind C b m x y).castling &&& Castling.all = (makeKind C b m x y).castling := by
  have hand : ∀ z : Castling, b.castling &&& z &&& Castling.all = b.castling &&& z := fun z => by
    rw [BitVec.and_assoc, BitVec.and_comm z, ← BitVec.and_assoc, h]
  have hup : ∀ (b' : Board) (z : Bitboard), b'.castling = b.castling →
      (updateCastling b' z).castling &&& Castling.all = (updateCastling b' z).castling := by
    intro b' z hb'
    rw [updateCastling]
    dsimp only
    split_ifs
    · rw [hb', h]
    · rw [hb']
      exact hand _
    · rw [hb', h]
  rw [makeKind]
  cases m.kind with
  | simple => exact hup _ _ rfl
  | promoteKnight | promoteBishop | promoteRook | promoteQueen => exact hup _ _ rfl
  | castlingKingside | castlingQueenside => exact hand _
  | _ => exact h

end Fields

section Regular

omit [Globals] in
theorem pawnKind_cases {p : Position} (hk : p.PawnKind k t) :
    k = .simple ∨ isMoveKindPromote k = true := by
  rw [Position.PawnKind] at hk
  split at hk
  · exact Or.inr hk
  · exact Or.inl hk

omit [Globals] in
theorem ne_null_of_pseudo {p : Position} (h : p.Pseudo k s t) : k ≠ .null := by
  rintro rfl
  have hpk : ∀ u, ¬p.PawnKind .null u := fun u hk =>
    absurd (pawnKind_cases hk) (by decide)
  cases h with
  | push hs ho ht hk => exact hpk _ hk
  | capture hs hr ht hk => exact hpk _ hk

theorem double_enpassant (hb : Regular b) (h : (position b).Pseudo .pawnDoubleMove s t) :
    row t = enpassantRow (invert b.side) ∧
      (moveMake b (mkMove .pawnDoubleMove s t)).1.cells t = makeCell b.side .pawn ∧
      (moveMake b (mkMove .pawnDoubleMove s t)).1.cells
        (toSquare (toCoord t + pawnForwardDelta (invert b.side))) = emptyCell := by
  have hm := shape_of_pseudo hb h
  rw [moveMake_cells hb.synced hm]
  cases h with
  | push hs ho ht hk => exact absurd (pawnKind_cases hk) (by decide)
  | capture hs hr ht hk => exact absurd (pawnKind_cases hk) (by decide)
  | @double s u t hs hrow ho ho' hu ht =>
    obtain ⟨hst, hs', ht'⟩ := hm
    have hback := toCoord_add_forward (offset_back ho')
    have h1 := (row_forward ho).1
    have h2 := (row_forward ho').1
    rw [position_side] at hback hrow h1 h2
    rw [hback, toSquare_toCoord, movedCells, hs']
    refine ⟨?_, by simp [relocateCells], ?_⟩
    · cases hc : b.side <;> simp only [hc, pawnRow, forward] at hrow h1 h2 <;>
        simp only [invert, enpassantRow] <;> omega
    · rw [relocateCells_apply, if_neg (ne_of_offset (forward_ne_zero _) ho'),
        if_neg (ne_of_offset (forward_ne_zero _) ho).symm]
      exact (pieceAt_eq_none hb.cells).mp hu

theorem regular_of_moveMake (hb : Regular b) (hm : Shape b.cells b.side k s t) (hk : k ≠ .null)
    (hs : Sane (movedCells b.cells b.side k s t))
    (hep : k = .pawnDoubleMove → (position b).Pseudo .pawnDoubleMove s t) :
    Regular (moveMake b (mkMove k s t)).1 := by
  have hcells := moveMake_cells hb.synced hm
  have hsync := moveMake_synced hb.synced hm
  have hside := moveMake_side b (mkMove k s t)
  rw [← hcells] at hs
  refine ⟨⟨hs.cells, ?_, fun he => ?_⟩, fun he => ?_,
    castlingOk_of_flags hb.castlingOk hm hcells fun c => moveMake_flags hb.castlingOk hm hk c,
    hsync, moveMake_hash hm hb.hash, count_of_sane hsync hs, hs.king, hs.pawns⟩
  · rw [moveMake_mkMove, finishMove_castling]
    exact makeKind_castling_le _ _ _ _ _ (by rw [dropEnpassant_castling]; exact hb.castlingAll)
  · rw [moveMake_enpassantCoord] at he ⊢
    split at he
    · rename_i hkd
      rw [if_pos hkd, hside, coordX_eq_enpassantSrcRow]
      exact ⟨(toCoord_range t).1, (toCoord_range t).2, (double_enpassant hb (hep hkd)).1⟩
    · exact absurd rfl he
  · rw [moveMake_enpassantCoord] at he ⊢
    split at he
    · rename_i hkd
      subst hkd
      rw [if_pos rfl, hside, toSquare_toCoord, invert_invert]
      exact (double_enpassant hb (hep rfl)).2
    · exact absurd rfl he

theorem regular_moveMake (hb : Regular b) (hl : wasMoveLegal b = true)
    (h : (position b).Pseudo k s t) : Regular (moveMake b (mkMove k s t)).1 := by
  refine regular_of_moveMake hb (shape_of_pseudo hb h) ?_ (sane_movedCells hb hl h)
    fun hk => hk ▸ h
  exact ne_null_of_pseudo h

theorem null_fields (b : Board) :
    (moveMake b Move.null).1.cells = b.cells ∧ (moveMake b Move.null).1.castling = b.castling ∧
      (moveMake b Move.null).1.enpassantCoord = invalidCoord := by
  rw [null_eq]
  refine ⟨?_, ?_, moveMake_enpassantCoord b .null 0 0⟩
  · rw [moveMake_mkMove, ← dropEnpassant_cells b]
    exact funext fun u => congrArg View.cell (view_finishMove _ _ _ _ u)
  · rw [moveMake_mkMove, finishMove_castling, ← dropEnpassant_castling b]
    rfl

theorem regular_null (hb : Regular b) : Regular (moveMake b Move.null).1 := by
  obtain ⟨hcells, hcast, hep⟩ := null_fields b
  have hm : Shape b.cells b.side .null 0 0 := trivial
  have hsync := moveMake_synced hb.synced hm
  have hhash := moveMake_hash hm hb.hash
  rw [← null_eq] at hsync hhash
  have hs : Sane (moveMake b Move.null).1.cells := by
    rw [hcells]
    exact sane_of_regular hb
  refine ⟨⟨hs.cells, ?_, fun he => absurd hep he⟩, fun he => absurd hep he, fun c => ?_, hsync,
    hhash, count_of_sane hsync hs, hs.king, hs.pawns⟩
  · rw [hcast]
    exact hb.castlingAll
  · rw [isKingsideCastling, isQueensideCastling, hcast, hcells]
    exact hb.castlingOk c

end Regular

section Refine

omit [Globals] in
theorem pieceOf_relocateCells {f : Square → Cell} {g : Square → Option (Color × Piece)}
    (h : ∀ u, pieceOf (f u) = g u) (s t : Square) (x : Cell) (u : Square) :
    pieceOf (relocateCells f s t x u) = Position.relocate g s t (pieceOf x) u := by
  simp only [relocateCells_apply, Position.relocate, Function.update_apply]
  split_ifs
  · rfl
  · rfl
  · exact h u

omit [Globals] in
/-- The contents after a pseudo-legal move are those of the mailbox rules. -/
theorem pieceOf_movedCells (h : (position b).Pseudo k s t) (u : Square) :
    pieceOf (movedCells b.cells b.side k s t u) = (position b).placement k s t u := by
  have hbase : ∀ u, pieceOf (b.cells u) = (position b).pieceAt u := fun _ => rfl
  have hpawn : ∀ {k}, (position b).PawnKind k t →
      pieceOf (movedCells b.cells b.side k s t u) = (position b).placement k s t u := by
    intro k hk
    cases k with
    | simple => exact pieceOf_relocateCells hbase s t _ u
    | promoteKnight | promoteBishop | promoteRook | promoteQueen =>
      refine (pieceOf_relocateCells hbase s t _ u).trans ?_
      rw [pieceOf_makeCell]
      rfl
    | _ => exact absurd (pawnKind_cases hk) (by decide)
  cases h with
  | piece hs hpc hr ht => exact pieceOf_relocateCells hbase s t _ u
  | push hs ho ht hk => exact hpawn hk
  | capture hs hr ht hk => exact hpawn hk
  | double hs hrow ho ho' hu ht => exact pieceOf_relocateCells hbase s t _ u
  | enpassant he hpe hs hr hc ho ht =>
    rw [Position.placement, he, movedCells, ← position_side, toSquare_enpassantPawnPos ho]
    dsimp only
    rw [Function.update_apply, Function.update_apply]
    split
    · rfl
    · exact pieceOf_relocateCells hbase s t _ u
  | castlingKingside hf hk hr h5 h6 ha ha' =>
    refine (pieceOf_relocateCells (fun u => pieceOf_relocateCells hbase _ _ _ u) _ _ _ u).trans ?_
    rw [pieceOf_makeCell]
    rfl
  | castlingQueenside hf hk hr h1 h2 h3 ha ha' =>
    refine (pieceOf_relocateCells (fun u => pieceOf_relocateCells hbase _ _ _ u) _ _ _ u).trans ?_
    rw [pieceOf_makeCell]
    rfl

theorem position_moveMake (hb : Regular b) (h : (position b).Pseudo k s t) :
    position (moveMake b (mkMove k s t)).1 = (position b).play k s t := by
  have hm := shape_of_pseudo hb h
  have hk := ne_null_of_pseudo h
  have hflags := moveMake_flags hb.castlingOk hm hk
  have hpiece : (fun u => pieceOf ((moveMake b (mkMove k s t)).1.cells u)) =
      (position b).placement k s t := by
    rw [moveMake_cells hb.synced hm]
    exact funext (pieceOf_movedCells h)
  have hep : enpassantOf (moveMake b (mkMove k s t)).1 =
      if k = .pawnDoubleMove then some t else none := by
    rw [enpassantOf, moveMake_enpassantCoord]
    split_ifs with hkd h'
    · exact absurd h' (toCoord_ne_invalidCoord t)
    · rw [toSquare_toCoord]
    · rfl
    · rename_i h'
      exact absurd rfl h'
  rw [position, Position.play, hpiece, hep, moveMake_side, funext fun c => (hflags c).1,
    funext fun c => (hflags c).2]
  rfl

theorem wasMoveLegal_moveMake (hb : Regular b) (hl : wasMoveLegal b = true)
    (h : (position b).Pseudo k s t) : wasMoveLegal (moveMake b (mkMove k s t)).1 = true ↔
      ¬((position b).play k s t).InCheck b.side := by
  rw [wasMoveLegal_iff (regular_moveMake hb hl h), moveMake_side, invert_invert,
    position_moveMake hb h]

end Refine

end SoFCheck.Core.MakeRefine
