import SoFCheck.Core.MakeHash

namespace SoFCheck.Core.MakeBoard

open SoFCheck.Util.Bits SoFCheck.Util.XorSum
open SoFCheck.Core.Types SoFCheck.Core.Grid SoFCheck.Core.Geometry SoFCheck.Core.BoardState
open SoFCheck.Core.Moves SoFCheck.Core.MoveMake SoFCheck.Core.CellView SoFCheck.Core.MakeCells
open SoFCheck.Core.MakeHash SoFCheck.Core.Mailbox

/-- The fields that no case of the two `switch` statements touches. -/
structure Frame (b b' : Board) : Prop where
  unused : b'.unused = b.unused
  side : b'.side = b.side
  moveCounter : b'.moveCounter = b.moveCounter
  moveNumber : b'.moveNumber = b.moveNumber

theorem Frame.trans {b b' b'' : Board} (h : Frame b b') (h' : Frame b' b'') : Frame b b'' :=
  ⟨h'.unused.trans h.unused, h'.side.trans h.side, h'.moveCounter.trans h.moveCounter,
    h'.moveNumber.trans h.moveNumber⟩

theorem frame_restoreCaptured (C : Color) (b : Board) (t : Square) (y : Cell) :
    Frame b (restoreCaptured C b t y) := by
  rw [restoreCaptured]
  split <;> exact ⟨rfl, rfl, rfl, rfl⟩

theorem frame_unmakeSimple (C : Color) (b : Board) (s t : Square) (x y : Cell) :
    Frame b (unmakeSimple C b s t x y) := by
  rw [unmakeSimple]
  refine Frame.trans ?_ (frame_restoreCaptured _ _ _ _)
  exact ⟨rfl, rfl, rfl, rfl⟩

theorem frame_unmakePromote (C : Color) (b : Board) (z : Cell) (s t : Square) (y : Cell) :
    Frame b (unmakePromote C b z s t y) := by
  rw [unmakePromote]
  refine Frame.trans ?_ (frame_restoreCaptured _ _ _ _)
  exact ⟨rfl, rfl, rfl, rfl⟩

theorem toSquare_mkMove (k : MoveKind) (s t : Square) :
    toSquare (mkMove k s t).src = s ∧ toSquare (mkMove k s t).dst = t := by
  simp [mkMove]

variable [Globals]

theorem frame_updateCastling (b : Board) (x : Bitboard) : Frame b (updateCastling b x) := by
  rw [updateCastling]
  dsimp only
  split_ifs <;> exact ⟨rfl, rfl, rfl, rfl⟩

theorem frame_dropEnpassant (b : Board) : Frame b (dropEnpassant b) := by
  rw [dropEnpassant]
  split <;> exact ⟨rfl, rfl, rfl, rfl⟩

theorem frame_makeSimple (C : Color) (b : Board) (s t : Square) (x y : Cell) :
    Frame b (makeSimple C b s t x y) := by
  rw [makeSimple]
  refine Frame.trans ?_ (frame_updateCastling _ _)
  exact ⟨rfl, rfl, rfl, rfl⟩

theorem frame_makePromote (C : Color) (b : Board) (z : Cell) (s t : Square) (x y : Cell) :
    Frame b (makePromote C b z s t x y) := by
  rw [makePromote]
  refine Frame.trans ?_ (frame_updateCastling _ _)
  exact ⟨rfl, rfl, rfl, rfl⟩

theorem frame_makeKind (C : Color) (b : Board) (m : Move) (x y : Cell) :
    Frame b (makeKind C b m x y) := by
  rw [makeKind]
  cases m.kind with
  | simple => exact frame_makeSimple _ _ _ _ _ _
  | promoteKnight | promoteBishop | promoteRook | promoteQueen =>
    exact frame_makePromote _ _ _ _ _ _ _
  | _ => exact ⟨rfl, rfl, rfl, rfl⟩

theorem frame_unmakeKind (C : Color) (b : Board) (m : Move) (y : Cell) :
    Frame b (unmakeKind C b m y) := by
  rw [unmakeKind]
  cases m.kind with
  | simple => exact frame_unmakeSimple _ _ _ _ _ _
  | promoteKnight | promoteBishop | promoteRook | promoteQueen =>
    exact frame_unmakePromote _ _ _ _ _ _
  | _ => exact ⟨rfl, rfl, rfl, rfl⟩

section Make

variable {b : Board} {k : MoveKind} {s t : Square}

theorem view_finishMove (C : Color) (b : Board) (x y : Cell) (s : Square) :
    view (finishMove C b x y) s = view b s := by
  simp only [finishMove]
  split_ifs <;> rfl

theorem finishMove_side (C : Color) (b : Board) (x y : Cell) :
    (finishMove C b x y).side = invert C := by
  simp only [finishMove]
  split_ifs <;> rfl

theorem finishMove_bbAll (C : Color) (b : Board) (x y : Cell) : (finishMove C b x y).bbAll =
    (finishMove C b x y).bbWhite ||| (finishMove C b x y).bbBlack := by
  simp only [finishMove]

theorem finishMove_unused (C : Color) (b : Board) (x y : Cell) :
    (finishMove C b x y).unused = b.unused := by
  simp only [finishMove]
  split_ifs <;> rfl

theorem finishMove_castling (C : Color) (b : Board) (x y : Cell) :
    (finishMove C b x y).castling = b.castling := by
  simp only [finishMove]
  split_ifs <;> rfl

theorem finishMove_enpassantCoord (C : Color) (b : Board) (x y : Cell) :
    (finishMove C b x y).enpassantCoord = b.enpassantCoord := by
  simp only [finishMove]
  split_ifs <;> rfl

theorem finishMove_moveCounter (C : Color) (b : Board) (x y : Cell) :
    (finishMove C b x y).moveCounter =
      if y ≠ emptyCell ∨ x = makeCell C .pawn then 0 else b.moveCounter + 1 := by
  simp only [finishMove, Bool.or_eq_true, bne_iff_ne, beq_iff_eq]
  split_ifs <;> rfl

theorem finishMove_moveNumber (C : Color) (b : Board) (x y : Cell) :
    (finishMove C b x y).moveNumber = if C = .black then b.moveNumber + 1 else b.moveNumber := by
  simp only [finishMove]
  split_ifs <;> rfl

theorem sideTerm_invert (c : Color) : sideTerm (invert c) = sideTerm c ^^^ zobristMoveSide := by
  cases c <;> simp [sideTerm, invert]

theorem defect_finishMove {C : Color} {b : Board} (hC : b.side = C) (x y : Cell) :
    defect (finishMove C b x y) = defect b := by
  subst hC
  have hd : ∀ b' : Board, b'.hash = b.hash ^^^ zobristMoveSide → b'.side = invert b.side →
      b'.enpassantCoord = b.enpassantCoord → b'.castling = b.castling → b'.cells = b.cells →
      defect b' = defect b := by
    intro b' hh hs he hc hf
    simp [defect, boardHash, hh, hs, he, hc, hf, sideTerm_invert, BitVec.xor_assoc,
      BitVec.xor_comm, xor_left_comm]
  refine hd _ ?_ (finishMove_side _ _ _ _) (finishMove_enpassantCoord _ _ _ _)
    (finishMove_castling _ _ _ _) ?_
  · simp only [finishMove]
    split_ifs <;> rfl
  · exact funext fun s => congrArg View.cell (view_finishMove _ _ _ _ s)

theorem moveMake_mkMove (b : Board) (k : MoveKind) (s t : Square) : moveMake b (mkMove k s t) =
    (finishMove b.side (makeKind b.side (dropEnpassant b) (mkMove k s t) (b.cells s) (b.cells t))
      (b.cells s) (b.cells t), ⟨b.hash, b.castling, b.enpassantCoord, b.moveCounter, b.cells t⟩) := by
  obtain ⟨hs, ht⟩ := toSquare_mkMove k s t
  rw [moveMake, moveMakeImpl, hs, ht]

theorem dropEnpassant_cells (b : Board) : (dropEnpassant b).cells = b.cells := by
  rw [dropEnpassant]
  split <;> rfl

theorem dropEnpassant_enpassantCoord (b : Board) :
    (dropEnpassant b).enpassantCoord = invalidCoord := by
  rw [dropEnpassant]
  split
  · rfl
  · rename_i h
    exact not_not.mp h

theorem shows_moveMake (hb : Synced b) (hm : Shape b.cells b.side k s t) :
    Shows (moveMake b (mkMove k s t)).1 (movedCells b.cells b.side k s t) := by
  rw [moveMake_mkMove]
  intro u
  rw [view_finishMove]
  exact shows_makeKind (shows_dropEnpassant (shows_of_synced hb)) hm u

theorem moveMake_cells (hb : Synced b) (hm : Shape b.cells b.side k s t) :
    (moveMake b (mkMove k s t)).1.cells = movedCells b.cells b.side k s t :=
  (shows_moveMake hb hm).cells

theorem moveMake_synced (hb : Synced b) (hm : Shape b.cells b.side k s t) :
    Synced (moveMake b (mkMove k s t)).1 := by
  refine (shows_moveMake hb hm).synced ?_
  rw [moveMake_mkMove]
  exact finishMove_bbAll _ _ _ _

theorem moveMake_side (b : Board) (m : Move) : (moveMake b m).1.side = invert b.side :=
  finishMove_side _ _ _ _

theorem moveMake_hash (hm : Shape b.cells b.side k s t) (hh : b.hash = boardHash b) :
    (moveMake b (mkMove k s t)).1.hash = boardHash (moveMake b (mkMove k s t)).1 := by
  rw [← defect_eq_zero] at hh ⊢
  have hc := dropEnpassant_cells b
  rw [moveMake_mkMove, defect_finishMove ((frame_dropEnpassant b).trans (frame_makeKind _ _ _ _ _)).side,
    ← hc, defect_makeKind (by rwa [hc]) (dropEnpassant_enpassantCoord b), defect_dropEnpassant, hh]

/-- Unmaking a move gives the very same board back. -/
theorem moveUnmake_moveMake (hb : Synced b) (hm : Shape b.cells b.side k s t) :
    moveUnmake (moveMake b (mkMove k s t)).1 (mkMove k s t) (moveMake b (mkMove k s t)).2 = b := by
  have hside : (if (moveMake b (mkMove k s t)).1.side = .black then Color.white else .black) =
      b.side := by
    rw [moveMake_side]
    cases b.side <;> rfl
  have hshow := shows_unmakeKind (shows_moveMake hb hm) hm
  have hp : (moveMake b (mkMove k s t)).2 =
      ⟨b.hash, b.castling, b.enpassantCoord, b.moveCounter, b.cells t⟩ := by rw [moveMake_mkMove]
  have hmake := (frame_dropEnpassant b).trans
    (frame_makeKind b.side (dropEnpassant b) (mkMove k s t) (b.cells s) (b.cells t))
  have hunmake := frame_unmakeKind b.side (moveMake b (mkMove k s t)).1 (mkMove k s t) (b.cells t)
  have hnumber : (unmakeKind b.side (moveMake b (mkMove k s t)).1 (mkMove k s t)
      (b.cells t)).moveNumber = if b.side = .black then b.moveNumber + 1 else b.moveNumber := by
    rw [hunmake.moveNumber, moveMake_mkMove, finishMove_moveNumber, hmake.moveNumber]
  have hunused : (unmakeKind b.side (moveMake b (mkMove k s t)).1 (mkMove k s t)
      (b.cells t)).unused = b.unused := by
    rw [hunmake.unused, moveMake_mkMove, finishMove_unused, hmake.unused]
  have hview : ∀ u, view (moveUnmake (moveMake b (mkMove k s t)).1 (mkMove k s t)
      (moveMake b (mkMove k s t)).2) u = ofCell (b.cells u) := by
    intro u
    rw [moveUnmake, hside, moveUnmakeImpl, hp, ← hshow u]
    dsimp only
    split_ifs <;> rfl
  have hs : Shows (moveUnmake (moveMake b (mkMove k s t)).1 (mkMove k s t)
      (moveMake b (mkMove k s t)).2) b.cells := hview
  obtain ⟨hw, hk, ha, hpc⟩ := (hs.synced (by rw [moveUnmake, moveUnmakeImpl])).unique hb hs.cells
  refine Board.ext hs.cells ?_ ?_ ?_ ?_ ?_ ?_ ?_ hw hk ha hpc
  all_goals
    rw [moveUnmake, hside, moveUnmakeImpl, hp]
    dsimp only
    split_ifs <;> simp_all

end Make

end SoFCheck.Core.MakeBoard
