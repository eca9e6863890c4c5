import SoFCheck.Core.InitialPosition
import SoFCheck.Core.Legality

namespace SoFCheck.Core.Sequence

open SoFCheck.Core.Types SoFCheck.Core.Grid SoFCheck.Core.Geometry SoFCheck.Core.BoardState
open SoFCheck.Core.Moves SoFCheck.Core.Attack SoFCheck.Core.Mailbox SoFCheck.Core.Validate
open SoFCheck.Core.Position SoFCheck.Core.MoveMake SoFCheck.Core.MakeCells SoFCheck.Core.MakeBoard
open SoFCheck.Core.MakeRegular SoFCheck.Core.MakeRefine SoFCheck.Core.WellFormed
open SoFCheck.Core.Movegen SoFCheck.Core.PseudoLegal SoFCheck.Core.Legality
open SoFCheck.Core.InitialPosition

variable [Globals]

/-- What `moveMake` asks of its callers: a pseudo-legal move or a null move. -/
def Playable (b : Board) (m : Move) : Prop :=
  m.isWellFormed b.side = true ∧ (m.kind = .null ∨ isMoveValid b m = true)

/-- The tag of a move is for the search only. -/
def untag (m : Move) : Move := { m with tag := 0 }

variable {b : Board} {m : Move} {ms : List Move}

omit [Globals] in
theorem shape_source {f : Square → Cell} {c : Color} {k : MoveKind} {s t : Square}
    (h : Shape f c k s t) :
    k = .null ∨ k = .castlingKingside ∨ k = .castlingQueenside ∨ f s ≠ emptyCell := by
  cases k with
  | simple =>
    obtain ⟨-, ⟨p, hp⟩, -⟩ := h
    simp [hp]
  | pawnDoubleMove =>
    obtain ⟨-, hp, -⟩ := h
    simp [hp]
  | enpassant =>
    obtain ⟨-, -, -, hp, -⟩ := h
    simp [hp]
  | promoteKnight | promoteBishop | promoteRook | promoteQueen =>
    obtain ⟨-, hp, -⟩ := h
    simp [hp]
  | invalid => exact h.elim
  | _ => simp

omit [Globals] in
theorem shape_castling {f : Square → Cell} {c : Color} {k : MoveKind} {s t : Square}
    (h : Shape f c k s t) (hk : k = .castlingKingside ∨ k = .castlingQueenside) :
    f t = emptyCell := by
  obtain rfl | rfl := hk
  · obtain ⟨-, rfl, -, -, h6, -⟩ := h
    exact h6
  · obtain ⟨-, rfl, -, h2, -⟩ := h
    exact h2

theorem playable_cases (hb : Regular b) (h : Playable b m) :
    untag m = Move.null ∨
      ∃ k s t, untag m = mkMove k s t ∧ (position b).Pseudo k s t := by
  obtain ⟨hw, hv⟩ := h
  have hw' : (untag m).isWellFormed b.side = true := hw
  obtain ⟨s, t, hm⟩ := exists_mkMove hw' rfl
  rcases hv with hk | hv
  · left
    change untag m = mkMove m.kind s t at hm
    rw [hk] at hm
    rw [hm, isWellFormed_null] at hw'
    rw [hm, hw'.1, hw'.2, ← null_eq]
  · have hv' : isMoveValid b (untag m) = true := hv
    rw [hm] at hw' hv'
    exact Or.inr ⟨_, s, t, hm, (isMoveValid_iff hb).mp ⟨hw', hv'⟩⟩

omit [Globals] in
theorem inCheck_congr {p q : Position} (h : p.pieceAt = q.pieceAt) {c : Color} :
    p.InCheck c ↔ q.InCheck c := by
  have hocc : p.occupied = q.occupied := funext fun s => congrArg Option.isSome (congrFun h s)
  simp only [Position.InCheck, Position.Attacked, h, hocc]

theorem wasMoveLegal_null (hb : Regular b) :
    wasMoveLegal (moveMake b Move.null).1 = !isCheck b := by
  rw [Bool.eq_iff_iff, wasMoveLegal_iff (regular_null hb), Bool.not_eq_true', ← Bool.not_eq_true,
    isCheck_iff hb, moveMake_side, invert_invert]
  refine not_congr (inCheck_congr (funext fun s => ?_))
  exact congrArg pieceOf (congrFun (null_fields b).1 s)

theorem regular_playable (hb : Valid b) (h : Playable b m) : Regular (moveMake b m).1 := by
  obtain ⟨hr, hl⟩ := valid_iff.mp hb
  change Regular (moveMake b (untag m)).1
  rcases playable_cases hr h with he | ⟨k, s, t, he, hp⟩
  · rw [he]
    exact regular_null hr
  · rw [he]
    exact regular_moveMake hr hl hp

theorem isMoveLegal_eq (hr : Regular b) (hl : wasMoveLegal b = true) (h : Playable b m) :
    isMoveLegal b m = wasMoveLegal (moveMake b m).1 := by
  change isMoveLegal b (untag m) = wasMoveLegal (moveMake b (untag m)).1
  rcases playable_cases hr h with he | ⟨k, s, t, he, hp⟩
  · rw [he, wasMoveLegal_null hr]
    rfl
  · rw [he, Bool.eq_iff_iff, isMoveLegal_iff hr hl hp, wasMoveLegal_moveMake hr hl hp]

/-- The first move of a game, the pawn from e2 to e4. -/
def firstMove : Move := mkMove .pawnDoubleMove 52 36

theorem pseudo_firstMove : (position initialPosition).Pseudo .pawnDoubleMove 52 36 := by
  rw [position_initialPosition]
  refine .double (u := 44) ?_ ?_ ?_ ?_ ?_ ?_ <;> decide

theorem playable_firstMove : Playable initialPosition firstMove := by
  have hr := (valid_iff.mp valid_initialPosition).1
  obtain ⟨hw, hv⟩ := (isMoveValid_iff hr).mpr pseudo_firstMove
  exact ⟨hw, Or.inr hv⟩

theorem isMoveLegal_firstMove : isMoveLegal initialPosition firstMove = true := by
  obtain ⟨hr, hl⟩ := valid_iff.mp valid_initialPosition
  have hsafe : ¬((position initialFields).play .pawnDoubleMove 52 36).InCheck .white := by
    decide +kernel
  rw [firstMove, isMoveLegal_iff hr hl pseudo_firstMove, position_initialPosition,
    initialPosition_fields.2.1]
  exact hsafe

/-- The test before the move and the test after it agree. -/
theorem isMoveLegal_eq_wasMoveLegal (hb : Valid b) (h : Playable b m) :
    isMoveLegal b m = wasMoveLegal (moveMake b m).1 :=
  isMoveLegal_eq (valid_iff.mp hb).1 (valid_iff.mp hb).2 h

omit [Globals] in
theorem isMoveLegal_eq_wasMoveLegal_first : letI := spreadGlobals
    isMoveLegal initialPosition firstMove = wasMoveLegal (moveMake initialPosition firstMove).1 :=
  letI := spreadGlobals
  isMoveLegal_eq_wasMoveLegal valid_initialPosition playable_firstMove

/-- A pseudo-legal move that `isMoveLegal` accepts, or a null move out of check. -/
structure LegalStep (b : Board) (m : Move) : Prop where
  playable : Playable b m
  legal : isMoveLegal b m = true

/-- The three tests that a move must pass. -/
structure LegalMove (b : Board) (m : Move) : Prop where
  wellFormed : m.isWellFormed b.side = true
  valid : isMoveValid b m = true
  legal : isMoveLegal b m = true

instance instDecidableLegalStep : Decidable (LegalStep b m) :=
  decidable_of_iff ((m.isWellFormed b.side = true ∧ (m.kind = .null ∨ isMoveValid b m = true)) ∧
    isMoveLegal b m = true) ⟨fun h => ⟨h.1, h.2⟩, fun h => ⟨h.playable, h.legal⟩⟩

instance instDecidableLegalMove : Decidable (LegalMove b m) :=
  decidable_of_iff (m.isWellFormed b.side = true ∧ isMoveValid b m = true ∧ isMoveLegal b m = true)
    ⟨fun h => ⟨h.1, h.2.1, h.2.2⟩, fun h => ⟨h.wellFormed, h.valid, h.legal⟩⟩

theorem legalMove_of_tests
    (h : ¬(!m.isWellFormed b.side || !isMoveValid b m || !isMoveLegal b m) = true) : LegalMove b m := by
  simp only [Bool.or_eq_true, Bool.not_eq_true', not_or, Bool.not_eq_false] at h
  obtain ⟨⟨hw, hv⟩, hl⟩ := h
  exact ⟨hw, hv, hl⟩

theorem LegalMove.legalStep (h : LegalMove b m) : LegalStep b m :=
  ⟨⟨h.wellFormed, Or.inr h.valid⟩, h.legal⟩

theorem valid_moveMake (hb : Valid b) (h : LegalStep b m) : Valid (moveMake b m).1 := by
  obtain ⟨hr, hl⟩ := valid_iff.mp hb
  refine valid_iff.mpr ⟨regular_playable hb h.playable, ?_⟩
  rw [← isMoveLegal_eq hr hl h.playable]
  exact h.legal

theorem legalStep_of_pseudo (hb : Valid b) (h : (position b).Pseudo k s t)
    (hsafe : ¬((position b).play k s t).InCheck b.side) : LegalStep b (mkMove k s t) := by
  obtain ⟨hr, hl⟩ := valid_iff.mp hb
  obtain ⟨hw, hv⟩ := (isMoveValid_iff hr).mpr h
  exact ⟨⟨hw, Or.inr hv⟩, (isMoveLegal_iff hr hl h).mpr hsafe⟩

theorem legalStep_firstMove : LegalStep initialPosition firstMove :=
  ⟨playable_firstMove, isMoveLegal_firstMove⟩

/-- The reply, the pawn from e7 to e5. -/
def secondMove : Move := mkMove .pawnDoubleMove 12 28

theorem legalStep_secondMove : LegalStep (moveMake initialPosition firstMove).1 secondMove := by
  have hr := (valid_iff.mp valid_initialPosition).1
  have hpos : position (moveMake initialPosition firstMove).1 =
      (position initialFields).play .pawnDoubleMove 52 36 := by
    rw [firstMove, position_moveMake hr pseudo_firstMove, position_initialPosition]
  refine legalStep_of_pseudo (valid_moveMake valid_initialPosition legalStep_firstMove) ?_ ?_
  · rw [hpos]
    refine .double (u := 20) ?_ ?_ ?_ ?_ ?_ ?_ <;> decide
  · rw [hpos, moveMake_side, initialPosition_fields.2.1]
    decide +kernel

/-- The board after a list of moves, and what must be kept to unmake them. -/
def makeAll (b : Board) : List Move → Board × List MovePersistence
  | [] => (b, [])
  | m :: ms =>
    let (b, p) := moveMake b m
    let (b, ps) := makeAll b ms
    (b, p :: ps)

theorem foldl_moveMake (b : Board) (ms : List Move) :
    ms.foldl (fun b move => (moveMake b move).1) b = (makeAll b ms).1 := by
  induction ms generalizing b with
  | nil => rfl
  | cons m ms ih => exact ih (moveMake b m).1

/-- Unmake a list of moves, the last one first. -/
def unmakeAll (b : Board) : List Move → List MovePersistence → Board
  | m :: ms, p :: ps => moveUnmake (unmakeAll b ms ps) m p
  | _, _ => b

/-- Each move satisfies `P` on the board obtained so far. -/
def Along (P : Board → Move → Prop) (b : Board) : List Move → Prop
  | [] => True
  | m :: ms => P b m ∧ Along P (moveMake b m).1 ms

instance decidableAlong (P : Board → Move → Prop) [h : ∀ b m, Decidable (P b m)] :
    (b : Board) → (ms : List Move) → Decidable (Along P b ms)
  | _, [] => .isTrue trivial
  | b, m :: ms =>
    have := decidableAlong P (moveMake b m).1 ms
    inferInstanceAs (Decidable (P b m ∧ Along P (moveMake b m).1 ms))

theorem valid_makeAll (hb : Valid b) (h : Along LegalStep b ms) : Valid (makeAll b ms).1 := by
  induction ms generalizing b with
  | nil => exact hb
  | cons m ms ih => exact ih (valid_moveMake hb h.1) h.2

theorem valid_along (hb : Valid b) (h : Along LegalMove b ms) : Valid (makeAll b ms).1 := by
  induction ms generalizing b with
  | nil => exact hb
  | cons m ms ih => exact ih (valid_moveMake hb h.1.legalStep) h.2

/-- Both sides may castle. The black pawn can be taken en passant, and a white one is about to become
a knight. -/
def variedFields : Board :=
  { initialFields with
    cells := fun s =>
      [(0, makeCell .black .rook), (4, makeCell .black .king), (7, makeCell .black .rook),
        (9, makeCell .white .pawn), (11, makeCell .black .pawn), (16, makeCell .black .pawn),
        (28, makeCell .white .pawn), (55, makeCell .white .pawn), (56, makeCell .white .rook),
        (60, makeCell .white .king)].lookup s.val |>.getD emptyCell
    side := .black
    castling := Castling.whiteQueenside ||| Castling.blackKingside }

def variedBoard : Board := update variedFields

theorem valid_variedBoard : Valid variedBoard :=
  valid_update_of_cells ⟨by decide, by decide, fun h => absurd rfl h⟩ (by decide +kernel)
    (by decide +kernel) (by decide +kernel) (by decide +kernel)

/-- Moves of all kinds. -/
def variedMoves : List Move :=
  [mkMove .pawnDoubleMove 11 27, mkMove .enpassant 28 19, mkMove .castlingKingside 4 6,
    mkMove .promoteKnight 9 0, mkMove .simple 16 24, mkMove .castlingQueenside 60 58]

omit [Globals] in
theorem legalStep_variedMoves : letI := spreadGlobals
    Along LegalStep variedBoard (variedMoves ++ [Move.null]) := by
  decide +kernel

omit [Globals] in
theorem valid_makeAll_varied : letI := spreadGlobals
    Valid (makeAll variedBoard (variedMoves ++ [Move.null])).1 :=
  letI := spreadGlobals
  valid_makeAll valid_variedBoard legalStep_variedMoves

/-- White may take en passant, castle or promote. -/
def passedBoard : Board := (moveMake variedBoard (mkMove .pawnDoubleMove 11 27)).1

omit [Globals] in
theorem valid_passedBoard : letI := spreadGlobals; Valid passedBoard := by
  let _ := spreadGlobals
  obtain ⟨hstep, -⟩ := legalStep_variedMoves
  exact valid_moveMake valid_variedBoard hstep

omit [Globals] in
theorem spec_passedBoard : letI := spreadGlobals
    passedBoard.side = .white ∧ isMoveValid passedBoard (mkMove .enpassant 28 19) = true := by
  decide +kernel

/-- A search line: the king may be left in check by the last move only. -/
def SearchLine (b : Board) : List Move → Prop
  | [] => True
  | m :: ms => Playable b m ∧ (ms ≠ [] → wasMoveLegal (moveMake b m).1 = true) ∧
      SearchLine (moveMake b m).1 ms

instance decidablePlayable (b : Board) (m : Move) : Decidable (Playable b m) :=
  inferInstanceAs (Decidable (_ ∧ _))

instance decidableSearchLine : (b : Board) → (ms : List Move) → Decidable (SearchLine b ms)
  | _, [] => .isTrue trivial
  | b, m :: ms =>
    have := decidableSearchLine (moveMake b m).1 ms
    inferInstanceAs (Decidable (Playable b m ∧ (ms ≠ [] → wasMoveLegal (moveMake b m).1 = true) ∧
      SearchLine (moveMake b m).1 ms))

theorem moveUnmake_playable (hb : Valid b) (h : Playable b m) :
    moveUnmake (moveMake b m).1 m (moveMake b m).2 = b := by
  obtain ⟨hr, -⟩ := valid_iff.mp hb
  change moveUnmake (moveMake b (untag m)).1 (untag m) (moveMake b (untag m)).2 = b
  rcases playable_cases hr h with he | ⟨k, s, t, he, hp⟩
  · rw [he, null_eq]
    exact moveUnmake_moveMake hr.synced trivial
  · rw [he]
    exact moveUnmake_moveMake hr.synced (shape_of_pseudo hr hp)

theorem unmakeAll_makeAll (hb : Valid b) (h : SearchLine b ms) :
    unmakeAll (makeAll b ms).1 ms (makeAll b ms).2 = b := by
  induction ms generalizing b with
  | nil => rfl
  | cons m ms ih =>
    obtain ⟨hm, hl, hms⟩ := h
    have hinner : unmakeAll (makeAll (moveMake b m).1 ms).1 ms
        (makeAll (moveMake b m).1 ms).2 = (moveMake b m).1 := by
      cases ms with
      | nil => rfl
      | cons m' ms' => exact ih (valid_iff.mpr ⟨regular_playable hb hm, hl (List.cons_ne_nil _ _)⟩) hms
    rw [makeAll, unmakeAll, hinner]
    exact moveUnmake_playable hb hm

omit [Globals] in
theorem searchLine_variedMoves : letI := spreadGlobals
    SearchLine variedBoard variedMoves := by
  decide +kernel

/-- At the end of the line the king walks into an attack. -/
def exposedMoves : List Move := variedMoves.take 2 ++ [mkMove .simple 4 12]

omit [Globals] in
theorem searchLine_exposedMoves : letI := spreadGlobals
    SearchLine variedBoard exposedMoves := by
  decide +kernel

omit [Globals] in
theorem unmakeAll_makeAll_varied : letI := spreadGlobals
    unmakeAll (makeAll variedBoard variedMoves).1 variedMoves (makeAll variedBoard variedMoves).2 =
        variedBoard ∧
      unmakeAll (makeAll variedBoard exposedMoves).1 exposedMoves (makeAll variedBoard exposedMoves).2 =
        variedBoard :=
  letI := spreadGlobals
  ⟨unmakeAll_makeAll valid_variedBoard searchLine_variedMoves,
    unmakeAll_makeAll valid_variedBoard searchLine_exposedMoves⟩

end SoFCheck.Core.Sequence
