import SoFCheck.Core.Sequence
import SoFCheck.Core.Strutil

namespace SoFCheck.Core.MoveParser

open SoFCheck.Util.CString
open SoFCheck.Core.Types SoFCheck.Core.Grid SoFCheck.Core.Geometry SoFCheck.Core.BoardState
open SoFCheck.Core.Moves SoFCheck.Core.Mailbox SoFCheck.Core.Validate SoFCheck.Core.Position
open SoFCheck.Core.MakeRegular SoFCheck.Core.MakeRefine SoFCheck.Core.Movegen SoFCheck.Core.WellFormed
open SoFCheck.Core.PseudoLegal SoFCheck.Core.InitialPosition SoFCheck.Core.Sequence
open SoFCheck.Core.Strutil

/-- The piece to promote the pawn. -/
inductive PromotePiece where
  | none
  | knight
  | bishop
  | rook
  | queen
  deriving DecidableEq, Repr

/-- Two parsed moves are compared on all four bytes. -/
structure ParsedMove where
  promote : PromotePiece
  src : Coord
  dst : Coord
  unused : BitVec 8
  deriving DecidableEq, Repr

def invalidParsedMove : ParsedMove := ⟨.none, invalidCoord, invalidCoord, 0⟩

def nullParsedMove : ParsedMove := ⟨.none, 0, 0, 0⟩

def promotePieceOf (c : Byte) : Option PromotePiece :=
  if c = 'n' then some .knight
  else if c = 'b' then some .bishop
  else if c = 'r' then some .rook
  else if c = 'q' then some .queen
  else none

/-- `ParsedMove::fromStr` on the characters between `first` and `last`. -/
def ParsedMove.fromStr (str : List Byte) : ParsedMove :=
  match str with
  | [c0, c1, c2, c3] =>
    if str = nullMoveStr then nullParsedMove
    else if !isYCharValid c0 || !isXCharValid c1 || !isYCharValid c2 || !isXCharValid c3 then
      invalidParsedMove
    else ⟨.none, charsToCoord c0 c1, charsToCoord c2 c3, 0⟩
  | [c0, c1, c2, c3, c4] =>
    if !isYCharValid c0 || !isXCharValid c1 || !isYCharValid c2 || !isXCharValid c3 then
      invalidParsedMove
    else
      match promotePieceOf c4 with
      | some promote => ⟨promote, charsToCoord c0 c1, charsToCoord c2 c3, 0⟩
      | none => invalidParsedMove
  | _ => invalidParsedMove

/-- The kind `promote - Knight + PromoteKnight`. -/
def promoteKind : PromotePiece → MoveKind
  | .none => .castlingQueenside
  | .knight => .promoteKnight
  | .bishop => .promoteBishop
  | .rook => .promoteRook
  | .queen => .promoteQueen

/-- The kind of a move that promotes nothing, guessed from the board. -/
def kindFromParsed (C : Color) (src dst : Coord) (board : Board) : MoveKind :=
  let cell := board.cells (toSquare src)
  if cell = makeCell C .pawn ∧ coordX src = doubleMoveSrcRow C ∧ coordX dst = doubleMoveDstRow C then
    .pawnDoubleMove
  else if cell = makeCell C .pawn ∧ coordY src ≠ coordY dst ∧
      board.cells (toSquare dst) = emptyCell then
    .enpassant
  else
    let x := castlingRow C
    if cell = makeCell C .king ∧ src = makeCoord x 4 ∧ dst = makeCoord x 6 then .castlingKingside
    else if cell = makeCell C .king ∧ src = makeCoord x 4 ∧ dst = makeCoord x 2 then
      .castlingQueenside
    else .simple

def moveFromParsedImpl (C : Color) (p : ParsedMove) (board : Board) : Move :=
  if p = invalidParsedMove then Move.invalid
  else if p = nullParsedMove then Move.null
  else if p.promote ≠ .none then ⟨promoteKind p.promote, p.src, p.dst, 0⟩
  else ⟨kindFromParsed C p.src p.dst board, p.src, p.dst, 0⟩

def moveFromParsed (parsedMove : ParsedMove) (board : Board) : Move :=
  if board.side = .white then moveFromParsedImpl .white parsedMove board
  else moveFromParsedImpl .black parsedMove board

def moveParse (str : List Byte) (board : Board) : Move :=
  moveFromParsed (ParsedMove.fromStr str) board

section Kind

variable {b : Board} {k : MoveKind} {s t : Square}

theorem not_double_of_step {c : Color} (h : (row t : Int) = row s + forward c) :
    ¬(row s = pawnRow c ∧ row t = doubleRow c) := by
  intro h'
  cases c <;> simp only [forward, pawnRow, doubleRow] at h h' <;> omega

theorem not_reaches_castling (occ : Square → Bool) (c : Color) :
    ¬Reaches occ c .king (homeCell c 4) (homeCell c 6) ∧
      ¬Reaches occ c .king (homeCell c 4) (homeCell c 2) := by
  cases c <;> simp only [Reaches] <;> decide

theorem kindFromParsed_eq (C : Color) :
    kindFromParsed C (toCoord s) (toCoord t) b =
      if b.cells s = makeCell C .pawn ∧ row s = pawnRow C ∧ row t = doubleRow C then
        .pawnDoubleMove
      else if b.cells s = makeCell C .pawn ∧ col s ≠ col t ∧ b.cells t = emptyCell then .enpassant
      else if b.cells s = makeCell C .king ∧ s = homeCell C 4 ∧ t = homeCell C 6 then
        .castlingKingside
      else if b.cells s = makeCell C .king ∧ s = homeCell C 4 ∧ t = homeCell C 2 then
        .castlingQueenside
      else .simple := by
  obtain ⟨h2, -, h4, -, h6⟩ := makeCoord_castlingRow C
  simp only [kindFromParsed, toSquare_toCoord, (coordX_rows C s).1, (coordX_rows C t).2.1, ne_eq,
    (coordY_steps s t).1, h2, h4, h6, toCoord_inj]

/-- The guess of the parser is the one kind that the move can have. -/
theorem kindFromParsed_of_pseudo [Globals] (hb : Regular b) (h : (position b).Pseudo k s t)
    (hk : isMoveKindPromote k = false) :
    kindFromParsed b.side (toCoord s) (toCoord t) b = k := by
  rw [kindFromParsed_eq]
  cases h with
  | piece hs hpc hr ht =>
    rename_i pc
    have hcell : b.cells s = makeCell b.side pc := pieceAt_eq_some.mp hs
    have hking : ∀ y, ¬Reaches (position b).occupied b.side .king (homeCell b.side 4)
        (homeCell b.side y) →
        ¬(b.cells s = makeCell b.side .king ∧ s = homeCell b.side 4 ∧ t = homeCell b.side y) := by
      rintro y hn ⟨hc, rfl, rfl⟩
      rw [hcell, makeCell_inj] at hc
      rw [hc.2] at hr
      exact hn hr
    obtain ⟨h6, h2⟩ := not_reaches_castling (position b).occupied b.side
    rw [if_neg (by simp [hcell, hpc]), if_neg (by simp [hcell, hpc]), if_neg (hking 6 h6),
      if_neg (hking 2 h2)]
  | push hs ho ht hpk =>
    have hcell : b.cells s = makeCell b.side .pawn := pieceAt_eq_some.mp hs
    obtain ⟨hrow, hcol⟩ := row_forward ho
    rw [if_neg (fun h => not_double_of_step hrow h.2), if_neg (by simp [hcol]),
      if_neg (by simp [hcell]), if_neg (by simp [hcell])]
    apply Eq.symm
    exact (pawnKind_cases hpk).resolve_right (by simp [hk])
  | double hs hr ho ho' hu ht =>
    have hcell : b.cells s = makeCell b.side .pawn := pieceAt_eq_some.mp hs
    have h1 := (row_forward ho).1
    have h2 := (row_forward ho').1
    have hdst : row t = doubleRow b.side := by
      rw [position_side] at hr h1 h2
      cases hc : b.side <;> simp only [hc, pawnRow, forward, doubleRow] at hr h1 h2 ⊢ <;> omega
    rw [if_pos ⟨hcell, hr, hdst⟩]
  | capture hs hr ht hpk =>
    have hcell : b.cells s = makeCell b.side .pawn := pieceAt_eq_some.mp hs
    obtain ⟨pc, hpc⟩ := enemy_iff.mp ht
    rw [if_neg (fun h => not_double_of_step hr.1 h.2), if_neg (by simp [hpc]),
      if_neg (by simp [hcell]), if_neg (by simp [hcell])]
    apply Eq.symm
    exact (pawnKind_cases hpk).resolve_right (by simp [hk])
  | enpassant he hpe hs hr hc ho ht =>
    rename_i e
    have hcell : b.cells s = makeCell b.side .pawn := pieceAt_eq_some.mp hs
    obtain ⟨hrow, hcol⟩ := row_forward ho
    have hne : col s ≠ col t := by
      have := (colDist_eq_one s e).mp hc
      omega
    have hstep : (row t : Int) = row s + forward b.side := by
      rw [hr]
      exact hrow
    rw [if_neg (fun h => not_double_of_step hstep h.2),
      if_pos ⟨hcell, hne, (pieceAt_eq_none hb.cells).mp ht⟩]
  | castlingKingside hf hkg hrk h5 h6 ha ha' =>
    have hcell : b.cells (homeCell b.side 4) = makeCell b.side .king := pieceAt_eq_some.mp hkg
    rw [position_side, if_neg (by simp [hcell]), if_neg (by simp [hcell]), if_pos ⟨hcell, rfl, rfl⟩]
  | castlingQueenside hf hkg hrk h1 h2 h3 ha ha' =>
    have hcell : b.cells (homeCell b.side 4) = makeCell b.side .king := pieceAt_eq_some.mp hkg
    have hne : homeCell b.side 2 ≠ homeCell b.side 6 := by cases b.side <;> decide
    rw [position_side, if_neg (by simp [hcell]), if_neg (by simp [hcell]), if_neg (by simp [hne]),
      if_pos ⟨hcell, rfl, rfl⟩]

end Kind

section Notation

variable {b : Board} {k : MoveKind} {s t : Square}

/-- The piece that a kind promotes to. -/
def promoteOf : MoveKind → PromotePiece
  | .promoteKnight => .knight
  | .promoteBishop => .bishop
  | .promoteRook => .rook
  | .promoteQueen => .queen
  | _ => .none

theorem promoteOf_eq_none : promoteOf k = .none ↔ isMoveKindPromote k = false := by
  cases k <;> decide

theorem promoteKind_promoteOf (hk : isMoveKindPromote k = true) : promoteKind (promoteOf k) = k := by
  cases k <;> first | rfl | cases hk

theorem promotePieceOf_transpos (hk : isMoveKindPromote k = true) :
    promotePieceOf (transpos (moveKindPromotePiece k)) = some (promoteOf k) := by
  cases k <;> first | decide | cases hk

theorem transpos_promotePieceOf {c : Byte} {p : PromotePiece} (h : promotePieceOf c = some p) :
    p ≠ .none ∧ isMoveKindPromote (promoteKind p) = true ∧
      transpos (moveKindPromotePiece (promoteKind p)) = c := by
  rw [promotePieceOf] at h
  split_ifs at h with hn hb hr hq <;> cases h
  · exact ⟨by decide, rfl, hn ▸ by decide⟩
  · exact ⟨by decide, rfl, hb ▸ by decide⟩
  · exact ⟨by decide, rfl, hr ▸ by decide⟩
  · exact ⟨by decide, rfl, hq ▸ by decide⟩

theorem fromStr_moveToStr (hk : k ≠ .null) :
    ParsedMove.fromStr (moveToStr (mkMove k s t)) = ⟨promoteOf k, toCoord s, toCoord t, 0⟩ := by
  have hzero : ∀ s : Square, ySubToChar (coordY (toCoord s)) ≠ '0' := by decide
  have hstr : ∀ r, ySubToChar (coordY (toCoord s)) :: r ≠ nullMoveStr :=
    fun r h => hzero s (List.cons.inj h).1
  rw [moveToStr, if_neg (show (mkMove k s t).kind ≠ .null from hk)]
  cases hp : isMoveKindPromote k with
  | false =>
    simp [mkMove, hp, ParsedMove.fromStr, hstr, isYCharValid_coordY, isXCharValid_coordX,
      promoteOf_eq_none.mpr hp]
  | true =>
    simp [mkMove, hp, ParsedMove.fromStr, isYCharValid_coordY, isXCharValid_coordX,
      promotePieceOf_transpos hp]

theorem moveFromParsed_eq (p : ParsedMove) (b : Board) :
    moveFromParsed p b = moveFromParsedImpl b.side p b := by
  rw [moveFromParsed]
  cases b.side <;> rfl

theorem kindFromParsed_range (C : Color) (src dst : Coord) (b : Board) :
    isMoveKindPromote (kindFromParsed C src dst b) = false ∧
      kindFromParsed C src dst b ≠ .null := by
  simp only [kindFromParsed]
  split_ifs <;> decide

theorem fromStr_cases (str : List Byte) :
    ParsedMove.fromStr str = invalidParsedMove ∨ ParsedMove.fromStr str = nullParsedMove ∨
      ∃ y x y' x', (isYCharValid y = true ∧ isXCharValid x = true) ∧
        (isYCharValid y' = true ∧ isXCharValid x' = true) ∧
        ((str = [y, x, y', x'] ∧
            ParsedMove.fromStr str = ⟨.none, charsToCoord y x, charsToCoord y' x', 0⟩) ∨
          ∃ c p, promotePieceOf c = some p ∧ str = [y, x, y', x', c] ∧
            ParsedMove.fromStr str = ⟨p, charsToCoord y x, charsToCoord y' x', 0⟩) := by
  have hchars : ∀ p q r u : Bool, ¬(!p || !q || !r || !u) = true → (p = true ∧ q = true) ∧
      r = true ∧ u = true := by decide
  rw [ParsedMove.fromStr.eq_def]
  split
  · rename_i y x y' x'
    split_ifs with hz hc
    · exact Or.inr (Or.inl rfl)
    · exact Or.inl rfl
    · obtain ⟨h, h'⟩ := hchars _ _ _ _ hc
      exact Or.inr (Or.inr ⟨y, x, y', x', h, h', Or.inl ⟨rfl, rfl⟩⟩)
  · rename_i y x y' x' c
    split_ifs with hc
    · exact Or.inl rfl
    · obtain ⟨h, h'⟩ := hchars _ _ _ _ hc
      cases hp : promotePieceOf c with
      | none => exact Or.inl rfl
      | some p => exact Or.inr (Or.inr ⟨y, x, y', x', h, h', Or.inr ⟨c, p, hp, rfl, rfl⟩⟩)
  · exact Or.inl rfl

theorem moveToStr_moveParse {str : List Byte} (hv : (moveParse str b).kind ≠ .invalid)
    (hn : (moveParse str b).kind ≠ .null) : moveToStr (moveParse str b) = str := by
  rw [moveParse, moveFromParsed_eq, moveFromParsedImpl] at hv hn ⊢
  have hi : ParsedMove.fromStr str ≠ invalidParsedMove := fun h => hv (by rw [if_pos h]; rfl)
  have hz : ParsedMove.fromStr str ≠ nullParsedMove := by
    intro h
    rw [if_neg hi, if_pos h] at hn
    exact hn rfl
  rw [if_neg hi, if_neg hz]
  obtain ⟨y, x, y', x', h, h', hc⟩ := ((fromStr_cases str).resolve_left hi).resolve_left hz
  obtain ⟨hy, hx⟩ := toChars_charsToCoord h.1 h.2
  obtain ⟨hy', hx'⟩ := toChars_charsToCoord h'.1 h'.2
  cases hc with
  | inl hc =>
    obtain ⟨hkp, hkn⟩ := kindFromParsed_range b.side (charsToCoord y x) (charsToCoord y' x') b
    rw [hc.2, hc.1]
    simp [moveToStr, hy, hx, hy', hx', hkp, hkn]
  | inr hc =>
    obtain ⟨c, p, hp, hstr, hf⟩ := hc
    obtain ⟨hne, hkp, htp⟩ := transpos_promotePieceOf hp
    have hkn : promoteKind p ≠ .null := by cases p <;> decide
    rw [hf, hstr]
    simp [moveToStr, hy, hx, hy', hx', hkp, hkn, hne, htp]

variable [Globals]

theorem moveParse_moveToStr (hb : Regular b) (h : (position b).Pseudo k s t) :
    moveParse (moveToStr (mkMove k s t)) b = mkMove k s t := by
  have hwf := ((isMoveValid_iff hb).mpr h).1
  have hkn : k ≠ .null := by
    rintro rfl
    exact absurd ((isMoveValid_iff hb).mpr h).2 (by simp [isMoveValid, isMoveValidImpl, mkMove])
  have hst : s ≠ t := by
    rintro rfl
    simp [Move.isWellFormed, mkMove, hkn] at hwf
  have hinv : (⟨promoteOf k, toCoord s, toCoord t, 0⟩ : ParsedMove) ≠ invalidParsedMove :=
    fun he => toCoord_ne_invalidCoord s (ParsedMove.mk.inj he).2.1
  have hnull : (⟨promoteOf k, toCoord s, toCoord t, 0⟩ : ParsedMove) ≠ nullParsedMove := by
    intro he
    have hc := (ParsedMove.mk.inj he).2
    exact hst (toCoord_injective (hc.1.trans hc.2.1.symm))
  rw [moveParse, fromStr_moveToStr hkn, moveFromParsed_eq, moveFromParsedImpl, if_neg hinv,
    if_neg hnull]
  cases hp : isMoveKindPromote k with
  | false =>
    rw [if_neg (by simpa using promoteOf_eq_none.mpr hp), kindFromParsed_of_pseudo hb h hp]
    rfl
  | true =>
    rw [if_pos (by simp [promoteOf_eq_none, hp]), promoteKind_promoteOf hp]
    rfl

theorem moveParse_of_valid (hb : Regular b) {m : Move} (htag : m.tag = 0)
    (hwf : m.isWellFormed b.side = true) (hv : isMoveValid b m = true) :
    moveParse (moveToStr m) b = m := by
  obtain ⟨s, t, hm⟩ := exists_mkMove hwf htag
  rw [hm] at hwf hv ⊢
  exact moveParse_moveToStr hb ((isMoveValid_iff hb).mp ⟨hwf, hv⟩)

/-- The moves that a board admits and their strings determine each other. -/
theorem moveStr_faithful (hb : Valid b) :
    (∀ m, m.tag = 0 → m.isWellFormed b.side = true → isMoveValid b m = true →
        moveParse (moveToStr m) b = m) ∧
      (∀ m m', m.tag = 0 → m.isWellFormed b.side = true → isMoveValid b m = true → m'.tag = 0 →
        m'.isWellFormed b.side = true → isMoveValid b m' = true → moveToStr m = moveToStr m' →
        m = m') ∧
      ∀ str, (moveParse str b).isWellFormed b.side = true →
        isMoveValid b (moveParse str b) = true → moveToStr (moveParse str b) = str := by
  obtain ⟨hr, -⟩ := valid_iff.mp hb
  have hround : ∀ m, m.tag = 0 → m.isWellFormed b.side = true → isMoveValid b m = true →
      moveParse (moveToStr m) b = m := fun m => moveParse_of_valid hr
  refine ⟨hround, ?_, ?_⟩
  · intro m m' htag hwf hv htag' hwf' hv' he
    rw [← hround m htag hwf hv, he, hround m' htag' hwf' hv']
  · intro str hwf hv
    apply moveToStr_moveParse
    · intro hk
      simp [Move.isWellFormed, hk] at hwf
    · intro hk
      simp [isMoveValid, isMoveValidImpl, hk] at hv

omit [Globals] in
theorem moveStr_faithful_first : letI := spreadGlobals
    moveParse (moveToStr firstMove) initialPosition = firstMove :=
  letI := spreadGlobals
  (moveStr_faithful valid_initialPosition).1 firstMove rfl playable_firstMove.1
    (playable_firstMove.2.resolve_left (by decide))

end Notation

end SoFCheck.Core.MoveParser
