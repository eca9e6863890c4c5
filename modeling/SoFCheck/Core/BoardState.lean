import SoFCheck.Core.Between
import SoFCheck.Core.MagicNumbers
import SoFCheck.Core.NearAttacks
import SoFCheck.Util.XorSum

namespace SoFCheck.Core.BoardState

open SoFCheck.Util.Bits SoFCheck.Util.XorSum
open SoFCheck.Core.Types SoFCheck.Core.Grid SoFCheck.Core.Geometry SoFCheck.Core.Magic
open SoFCheck.Core.MagicNumbers

/-- The cell of the castling row of `c` in column `y`. -/
def castlingSquare (c : Color) (y : Subcoord) : Square := toSquare (makeCoord (castlingRow c) y)

/-- The Zobrist tables. The numbers are arbitrary but for what `initZobrist`
makes of them. -/
structure Zobrist where
  pieces : Cell → Square → BoardHash
  moveSide : BoardHash
  castling : Castling → BoardHash
  enpassant : Square → BoardHash
  pieceCastlingKingside : Color → BoardHash
  pieceCastlingQueenside : Color → BoardHash
  pieces_empty : ∀ s, pieces emptyCell s = 0
  kingside_eq : ∀ c, pieceCastlingKingside c =
    pieces (makeCell c .king) (castlingSquare c 4) ^^^ pieces (makeCell c .rook) (castlingSquare c 5) ^^^
      pieces (makeCell c .king) (castlingSquare c 6) ^^^ pieces (makeCell c .rook) (castlingSquare c 7)
  queenside_eq : ∀ c, pieceCastlingQueenside c =
    pieces (makeCell c .rook) (castlingSquare c 0) ^^^ pieces (makeCell c .king) (castlingSquare c 2) ^^^
      pieces (makeCell c .rook) (castlingSquare c 3) ^^^ pieces (makeCell c .king) (castlingSquare c 4)

/-- The tables that `SoFCore::init` fills once before anything else runs. -/
class Globals where
  build : Build
  zobrist : Zobrist

/-- A Zobrist number for each piece on each cell. -/
def spreadPieces (c : Cell) (s : Square) : BoardHash :=
  if c = emptyCell then 0 else BitVec.ofNat 64 ((c.toBitVec.toNat * 64 + s.val + 1) * 8)

@[reducible] def spreadGlobals : Globals where
  build := .bmi2
  zobrist :=
    { pieces := spreadPieces, moveSide := 1, castling := fun _ => 2, enpassant := fun _ => 4
      pieceCastlingKingside := fun c =>
        spreadPieces (makeCell c .king) (castlingSquare c 4) ^^^
          spreadPieces (makeCell c .rook) (castlingSquare c 5) ^^^
          spreadPieces (makeCell c .king) (castlingSquare c 6) ^^^
          spreadPieces (makeCell c .rook) (castlingSquare c 7)
      pieceCastlingQueenside := fun c =>
        spreadPieces (makeCell c .rook) (castlingSquare c 0) ^^^
          spreadPieces (makeCell c .king) (castlingSquare c 2) ^^^
          spreadPieces (makeCell c .rook) (castlingSquare c 3) ^^^
          spreadPieces (makeCell c .king) (castlingSquare c 4)
      pieces_empty := fun _ => rfl
      kingside_eq := fun _ => rfl
      queenside_eq := fun _ => rfl }

/-- The same tables in a build without the instructions of BMI2. -/
@[reducible] def portableGlobals : Globals where
  build := .portable sparseConsts
  zobrist := spreadGlobals.zobrist

section Tables

variable [g : Globals]

def zobristPieces : Cell → Square → BoardHash := g.zobrist.pieces
def zobristMoveSide : BoardHash := g.zobrist.moveSide
def zobristCastling : Castling → BoardHash := g.zobrist.castling
def zobristEnpassant : Square → BoardHash := g.zobrist.enpassant
def zobristPieceCastlingKingside : Color → BoardHash := g.zobrist.pieceCastlingKingside
def zobristPieceCastlingQueenside : Color → BoardHash := g.zobrist.pieceCastlingQueenside

def rookAttackBitboard (occupied : Bitboard) (pos : Square) : Bitboard :=
  attackBitboard g.build .rook occupied pos

def bishopAttackBitboard (occupied : Bitboard) (pos : Square) : Bitboard :=
  attackBitboard g.build .bishop occupied pos

def rookAttackMasked (occupied : Bitboard) (pos : Square) (postMask : Bitboard) : Bitboard :=
  attackBitboardMasked g.build .rook occupied pos postMask

def bishopAttackMasked (occupied : Bitboard) (pos : Square) (postMask : Bitboard) : Bitboard :=
  attackBitboardMasked g.build .bishop occupied pos postMask

end Tables

@[ext] structure Board where
  cells : Square → Cell
  unused : BitVec 8
  side : Color
  castling : Castling
  enpassantCoord : Coord
  moveCounter : BitVec 16
  moveNumber : BitVec 16
  hash : BoardHash
  bbWhite : Bitboard
  bbBlack : Bitboard
  bbAll : Bitboard
  bbPieces : Cell → Bitboard

/-- `Board::operator==`, which does not look at the derived fields. -/
def sameBoard (b b' : Board) : Bool :=
  decide (∀ s, b.cells s = b'.cells s) && decide (b.side = b'.side) &&
    decide (b.castling = b'.castling) && decide (b.enpassantCoord = b'.enpassantCoord) &&
    decide (b.moveCounter = b'.moveCounter) && decide (b.moveNumber = b'.moveNumber)

def bbColor (b : Board) (c : Color) : Bitboard := if c = .white then b.bbWhite else b.bbBlack

def kingPos (b : Board) (c : Color) : Square := getLowest (b.bbPieces (makeCell c .king))

def isKingsideCastling (b : Board) (c : Color) : Bool := has (b.castling &&& castlingKingside c)

def isQueensideCastling (b : Board) (c : Color) : Bool := has (b.castling &&& castlingQueenside c)

def clearKingsideCastling (b : Board) (c : Color) : Board :=
  { b with castling := b.castling &&& ~~~(castlingKingside c) }

def clearQueensideCastling (b : Board) (c : Color) : Board :=
  { b with castling := b.castling &&& ~~~(castlingQueenside c) }

def clearCastling (b : Board) (c : Color) : Board :=
  { b with castling := b.castling &&& (~~~(castlingKingside c) &&& ~~~(castlingQueenside c)) }

section Update

/-- The part of `Board::update` that drops an impossible en passant coordinate. -/
def updateEnpassant (b : Board) : Board :=
  if b.enpassantCoord ≠ invalidCoord then
    let enpassantPreCoord := b.enpassantCoord + pawnForwardDelta b.side
    if b.cells (toSquare b.enpassantCoord) ≠ makeCell (invert b.side) .pawn ∨
        b.cells (toSquare enpassantPreCoord) ≠ emptyCell then
      { b with enpassantCoord := invalidCoord }
    else b
  else b

/-- One turn of the loop of `Board::update` over the colours. -/
def updateCastlingFlags (b : Board) (color : Color) : Board :=
  let b := if b.cells (castlingSquare color 4) ≠ makeCell color .king then
    clearCastling b color else b
  let b := if b.cells (castlingSquare color 0) ≠ makeCell color .rook then
    clearQueensideCastling b color else b
  if b.cells (castlingSquare color 7) ≠ makeCell color .rook then
    clearKingsideCastling b color else b

def addToBitboards (b : Board) (i : Square) : Board :=
  let cell := b.cells i
  if cell = emptyCell then b
  else
    let bbAdd := coordToBitboard i
    let b := if cellPieceColor cell = .white then { b with bbWhite := b.bbWhite ||| bbAdd }
      else { b with bbBlack := b.bbBlack ||| bbAdd }
    { b with bbPieces := Function.update b.bbPieces cell (b.bbPieces cell ||| bbAdd) }

def updateBitboards (b : Board) : Board :=
  let b := { b with bbWhite := 0, bbBlack := 0, bbPieces := fun _ => 0 }
  let b := (List.finRange 64).foldl addToBitboards b
  { b with bbAll := b.bbWhite ||| b.bbBlack }

def updateHash [Globals] (b : Board) : Board :=
  let hash := if b.side = .white then 0 else zobristMoveSide
  let hash := if b.enpassantCoord ≠ invalidCoord then
    hash ^^^ zobristEnpassant (toSquare b.enpassantCoord) else hash
  let hash := hash ^^^ zobristCastling b.castling
  { b with
    hash := (List.finRange 64).foldl (fun hash i =>
      if b.cells i = emptyCell then hash else hash ^^^ zobristPieces (b.cells i) i) hash }

def update [Globals] (b : Board) : Board :=
  let b := updateEnpassant b
  let b := [Color.white, Color.black].foldl updateCastlingFlags b
  let b := updateBitboards b
  updateHash b

end Update

section Synced

/-- The bitboards say exactly what the cells say. -/
structure Synced (b : Board) : Prop where
  color : ∀ c s, hasBit (bbColor b c) s =
    decide (b.cells s ≠ emptyCell ∧ cellPieceColor (b.cells s) = c)
  pieces : ∀ x s, hasBit (b.bbPieces x) s = decide (b.cells s ≠ emptyCell ∧ b.cells s = x)
  all : b.bbAll = b.bbWhite ||| b.bbBlack

def sideTerm [Globals] (c : Color) : BoardHash := if c = .white then 0 else zobristMoveSide

def enpassantTerm [Globals] (x : Coord) : BoardHash :=
  if x ≠ invalidCoord then zobristEnpassant (toSquare x) else 0

/-- The hash of the essential fields. -/
def boardHash [Globals] (b : Board) : BoardHash :=
  sideTerm b.side ^^^ enpassantTerm b.enpassantCoord ^^^ zobristCastling b.castling ^^^
    xorSum (fun i => zobristPieces (b.cells i) i) (List.finRange 64)

/-- The en passant coordinate points at a pawn that may just have moved by two. -/
def EnpassantOk (b : Board) : Prop :=
  b.enpassantCoord ≠ invalidCoord →
    b.cells (toSquare b.enpassantCoord) = makeCell (invert b.side) .pawn ∧
      b.cells (toSquare (b.enpassantCoord + pawnForwardDelta b.side)) = emptyCell

/-- A castling flag is only set while king and rook are at home. -/
def CastlingOk (b : Board) : Prop :=
  ∀ c, (isKingsideCastling b c = true → b.cells (castlingSquare c 4) = makeCell c .king ∧
      b.cells (castlingSquare c 7) = makeCell c .rook) ∧
    (isQueensideCastling b c = true → b.cells (castlingSquare c 4) = makeCell c .king ∧
      b.cells (castlingSquare c 0) = makeCell c .rook)

theorem xorSum_update_cells [Globals] (cells : Square → Cell) (s : Square) (x : Cell) :
    xorSum (fun i => zobristPieces (Function.update cells s x i) i) (List.finRange 64) =
      xorSum (fun i => zobristPieces (cells i) i) (List.finRange 64) ^^^
        zobristPieces (cells s) s ^^^ zobristPieces x s := by
  have h : (fun i => zobristPieces (Function.update cells s x i) i) =
      Function.update (fun i => zobristPieces (cells i) i) s (zobristPieces x s) := by
    funext i
    by_cases hi : i = s
    · subst hi; simp
    · simp [hi]
  rw [h]
  exact xorSum_update _ (List.nodup_finRange 64) (List.mem_finRange s) _

theorem updateHash_eq [Globals] (b : Board) : updateHash b = { b with hash := boardHash b } := by
  have hskip : (fun (hash : BoardHash) i =>
      if b.cells i = emptyCell then hash else hash ^^^ zobristPieces (b.cells i) i) =
      fun hash i => hash ^^^ zobristPieces (b.cells i) i := by
    funext hash i
    split
    · rename_i he
      simp [he, zobristPieces, Zobrist.pieces_empty]
    · rfl
  rw [updateHash, boardHash, hskip, foldl_xor, sideTerm, enpassantTerm]
  split <;> split <;> simp

theorem addToBitboards_of_ne {b : Board} {i : Square} (he : b.cells i ≠ emptyCell) :
    addToBitboards b i = { b with
      bbWhite := if cellPieceColor (b.cells i) = .white then b.bbWhite ||| single i else b.bbWhite
      bbBlack := if cellPieceColor (b.cells i) = .white then b.bbBlack else b.bbBlack ||| single i
      bbPieces := Function.update b.bbPieces (b.cells i) (b.bbPieces (b.cells i) ||| single i) } := by
  simp only [addToBitboards, if_neg he, coordToBitboard]
  split_ifs <;> rfl

theorem foldl_addToBitboards (l : List Square) (b : Board) :
    ∃ w k p, l.foldl addToBitboards b = { b with bbWhite := w, bbBlack := k, bbPieces := p } ∧
      (∀ s, hasBit w s = (hasBit b.bbWhite s ||
        decide (s ∈ l ∧ b.cells s ≠ emptyCell ∧ cellPieceColor (b.cells s) = .white))) ∧
      (∀ s, hasBit k s = (hasBit b.bbBlack s ||
        decide (s ∈ l ∧ b.cells s ≠ emptyCell ∧ cellPieceColor (b.cells s) = .black))) ∧
      ∀ x s, hasBit (p x) s = (hasBit (b.bbPieces x) s ||
        decide (s ∈ l ∧ b.cells s ≠ emptyCell ∧ b.cells s = x)) := by
  induction l generalizing b with
  | nil => exact ⟨b.bbWhite, b.bbBlack, b.bbPieces, rfl, by simp⟩
  | cons i l ih =>
    obtain ⟨w, k, p, hb, hw, hk, hp⟩ := ih (addToBitboards b i)
    rw [List.foldl_cons, hb]
    by_cases he : b.cells i = emptyCell
    · have hi : addToBitboards b i = b := by simp [addToBitboards, he]
      rw [hi] at hw hk hp ⊢
      refine ⟨w, k, p, rfl, fun s => ?_, fun s => ?_, fun x s => ?_⟩
      · rw [hw s]
        by_cases hs : s = i <;> simp [hs, he]
      · rw [hk s]
        by_cases hs : s = i <;> simp [hs, he]
      · rw [hp x s]
        by_cases hs : s = i <;> simp [hs, he]
    · rw [addToBitboards_of_ne he] at hw hk hp ⊢
      refine ⟨w, k, p, rfl, fun s => ?_, fun s => ?_, fun x s => ?_⟩
      · rw [hw s]
        cases hc : cellPieceColor (b.cells i) <;> by_cases hs : i = s
        · subst hs; simp [he, hc]
        · simp [hs, Ne.symm hs]
        · subst hs; simp [hc]
        · simp [Ne.symm hs]
      · rw [hk s]
        cases hc : cellPieceColor (b.cells i) <;> by_cases hs : i = s
        · subst hs; simp [hc]
        · simp [Ne.symm hs]
        · subst hs; simp [he, hc]
        · simp [hs, Ne.symm hs]
      · rw [hp x s]
        by_cases hx : x = b.cells i <;> by_cases hs : i = s
        · subst hs hx; simp [he]
        · subst hx; simp [hs, Ne.symm hs]
        · subst hs; simp [hx, Ne.symm hx]
        · simp [hx, Ne.symm hs]

theorem updateBitboards_spec (b : Board) :
    ∃ w k a p, updateBitboards b =
      { b with bbWhite := w, bbBlack := k, bbAll := a, bbPieces := p } ∧
      Synced (updateBitboards b) := by
  obtain ⟨w, k, p, hb, hw, hk, hp⟩ := foldl_addToBitboards (List.finRange 64)
    { b with bbWhite := 0, bbBlack := 0, bbPieces := fun _ => 0 }
  have he : updateBitboards b =
      { b with bbWhite := w, bbBlack := k, bbAll := w ||| k, bbPieces := p } := by
    rw [updateBitboards, hb]
  refine ⟨w, k, w ||| k, p, he, ?_⟩
  rw [he]
  constructor
  · intro c s
    cases c
    · simp [bbColor, hw s]
    · simp [bbColor, hk s]
  · intro x s
    simp [hp x s]
  · rfl

theorem Synced.unique {b b' : Board} (h : Synced b) (h' : Synced b') (hc : b.cells = b'.cells) :
    b.bbWhite = b'.bbWhite ∧ b.bbBlack = b'.bbBlack ∧ b.bbAll = b'.bbAll ∧
      b.bbPieces = b'.bbPieces := by
  have hw : b.bbWhite = b'.bbWhite := hasBit_ext fun s => by
    simpa [bbColor, hc] using (h.color .white s).trans (by rw [hc]; exact (h'.color .white s).symm)
  have hk : b.bbBlack = b'.bbBlack := hasBit_ext fun s => by
    simpa [bbColor, hc] using (h.color .black s).trans (by rw [hc]; exact (h'.color .black s).symm)
  refine ⟨hw, hk, by rw [h.all, h'.all, hw, hk], ?_⟩
  funext x
  exact hasBit_ext fun s => by rw [h.pieces, h'.pieces, hc]

theorem updateEnpassant_eq_self_iff {b : Board} : updateEnpassant b = b ↔ EnpassantOk b := by
  rw [updateEnpassant, EnpassantOk]
  by_cases h : b.enpassantCoord = invalidCoord
  · simp [h]
  · rw [if_pos h]
    dsimp only
    split
    · rename_i h'
      rw [Board.ext_iff]
      simp only [true_and, and_true, h, ne_eq, not_false_eq_true, forall_const]
      constructor
      · intro he
        exact absurd he.symm h
      · rintro ⟨h1, h2⟩
        exact absurd h' (by simp [h1, h2])
    · rename_i h'
      simpa [h] using h'

/-- The flags that survive one turn of the loop over the colours. -/
def keptCastling (cells : Square → Cell) (color : Color) (x : Castling) : Castling :=
  let x := if cells (castlingSquare color 4) ≠ makeCell color .king then
    x &&& (~~~(castlingKingside color) &&& ~~~(castlingQueenside color)) else x
  let x := if cells (castlingSquare color 0) ≠ makeCell color .rook then
    x &&& ~~~(castlingQueenside color) else x
  if cells (castlingSquare color 7) ≠ makeCell color .rook then
    x &&& ~~~(castlingKingside color) else x

theorem updateCastlingFlags_eq (b : Board) (color : Color) :
    updateCastlingFlags b color = { b with castling := keptCastling b.cells color b.castling } := by
  simp only [updateCastlingFlags, keptCastling, clearCastling, clearQueensideCastling,
    clearKingsideCastling]
  split_ifs <;> rfl

def kingsideBit (c : Color) : Fin 8 := if c = .white then 1 else 3

def queensideBit (c : Color) : Fin 8 := if c = .white then 0 else 2

theorem castlingKingside_eq (c : Color) : castlingKingside c = single (kingsideBit c) := by
  cases c <;> decide

theorem castlingQueenside_eq (c : Color) : castlingQueenside c = single (queensideBit c) := by
  cases c <;> decide

theorem has_and_single (x : Castling) (i : Fin 8) : has (x &&& single i) = hasBit x i := by
  rw [Bool.eq_iff_iff, has, bne_iff_ne, ← Bool.not_eq_false (hasBit x i), ← and_single_eq_zero_iff]
  rfl

theorem isKingsideCastling_eq (b : Board) (c : Color) :
    isKingsideCastling b c = hasBit b.castling (kingsideBit c) := by
  rw [isKingsideCastling, castlingKingside_eq, has_and_single]

theorem isQueensideCastling_eq (b : Board) (c : Color) :
    isQueensideCastling b c = hasBit b.castling (queensideBit c) := by
  rw [isQueensideCastling, castlingQueenside_eq, has_and_single]

theorem hasBit_keptCastling (cells : Square → Cell) (c : Color) (x : Castling) (i : Fin 8) :
    hasBit (keptCastling cells c x) i = (hasBit x i &&
      (decide (i = kingsideBit c → cells (castlingSquare c 4) = makeCell c .king ∧
          cells (castlingSquare c 7) = makeCell c .rook) &&
        decide (i = queensideBit c → cells (castlingSquare c 4) = makeCell c .king ∧
          cells (castlingSquare c 0) = makeCell c .rook))) := by
  have hne : kingsideBit c ≠ queensideBit c := by cases c <;> decide
  simp only [keptCastling, castlingKingside_eq, castlingQueenside_eq]
  by_cases hk : i = kingsideBit c
  · subst hk
    split_ifs <;> simp_all [Ne.symm hne]
  · by_cases hq : i = queensideBit c
    · subst hq
      split_ifs <;> simp_all
    · split_ifs <;> simp [hk, hq, Ne.symm hk, Ne.symm hq]

theorem keptCastling_eq_self_iff {b : Board} :
    keptCastling b.cells .black (keptCastling b.cells .white b.castling) = b.castling ↔
      CastlingOk b := by
  simp only [CastlingOk, isKingsideCastling_eq, isQueensideCastling_eq]
  constructor
  · intro h c
    have hbit : ∀ i, hasBit b.castling i = true → _ := fun i hi => by
      have hi' := congrArg (hasBit · i) h
      simp only [hasBit_keptCastling, hi, Bool.true_and, Bool.and_eq_true, decide_eq_true_eq] at hi'
      exact hi'
    cases c
    · exact ⟨fun hi => (hbit _ hi).1.1 rfl, fun hi => (hbit _ hi).1.2 rfl⟩
    · exact ⟨fun hi => (hbit _ hi).2.1 rfl, fun hi => (hbit _ hi).2.2 rfl⟩
  · intro h
    refine hasBit_ext fun i => ?_
    rw [hasBit_keptCastling, hasBit_keptCastling]
    cases hi : hasBit b.castling i with
    | false => simp
    | true =>
      simp only [Bool.true_and, Bool.and_eq_true, decide_eq_true_eq]
      exact ⟨⟨fun hk => (h .white).1 (hk ▸ hi), fun hq => (h .white).2 (hq ▸ hi)⟩,
        fun hk => (h .black).1 (hk ▸ hi), fun hq => (h .black).2 (hq ▸ hi)⟩

theorem updateEnpassant_eq (b : Board) :
    updateEnpassant b = { b with enpassantCoord := (updateEnpassant b).enpassantCoord } := by
  simp only [updateEnpassant]
  split_ifs <;> rfl

theorem enpassantOk_updateEnpassant (b : Board) : EnpassantOk (updateEnpassant b) := by
  by_cases h : EnpassantOk b
  · rwa [updateEnpassant_eq_self_iff.mpr h]
  · intro h'
    refine absurd ?_ h'
    rw [EnpassantOk] at h
    push Not at h
    obtain ⟨h1, h2⟩ := h
    rw [updateEnpassant, if_pos h1]
    dsimp only
    rw [if_pos]
    by_cases hp : b.cells (toSquare b.enpassantCoord) = makeCell (invert b.side) .pawn
    · exact Or.inr (h2 hp)
    · exact Or.inl hp

theorem update_spec [Globals] (b : Board) :
    ∃ h w k a p, update b = { b with
        enpassantCoord := (updateEnpassant b).enpassantCoord
        castling := keptCastling b.cells .black (keptCastling b.cells .white b.castling)
        hash := h, bbWhite := w, bbBlack := k, bbAll := a, bbPieces := p } ∧
      Synced (update b) ∧ (update b).hash = boardHash (update b) := by
  have hflags : [Color.white, Color.black].foldl updateCastlingFlags (updateEnpassant b) =
      { b with
        enpassantCoord := (updateEnpassant b).enpassantCoord
        castling := keptCastling b.cells .black (keptCastling b.cells .white b.castling) } := by
    rw [List.foldl_cons, List.foldl_cons, List.foldl_nil, updateCastlingFlags_eq,
      updateCastlingFlags_eq, updateEnpassant_eq]
  obtain ⟨w, k, a, p, hb, hs⟩ := updateBitboards_spec { b with
    enpassantCoord := (updateEnpassant b).enpassantCoord
    castling := keptCastling b.cells .black (keptCastling b.cells .white b.castling) }
  have hu : update b = { b with
      enpassantCoord := (updateEnpassant b).enpassantCoord
      castling := keptCastling b.cells .black (keptCastling b.cells .white b.castling)
      hash := boardHash (updateBitboards { b with
        enpassantCoord := (updateEnpassant b).enpassantCoord
        castling := keptCastling b.cells .black (keptCastling b.cells .white b.castling) })
      bbWhite := w, bbBlack := k, bbAll := a, bbPieces := p } := by
    rw [update, hflags, updateHash_eq, hb]
  rw [hb] at hs hu
  rw [hu]
  exact ⟨_, w, k, a, p, rfl, ⟨hs.color, hs.pieces, hs.all⟩, rfl⟩

theorem update_eq_self_iff [Globals] {b : Board} :
    update b = b ↔ EnpassantOk b ∧ CastlingOk b ∧ Synced b ∧ b.hash = boardHash b := by
  obtain ⟨h, w, k, a, p, hu, hs, hh⟩ := update_spec b
  constructor
  · intro hb
    rw [hb] at hu hs hh
    have hep : b.enpassantCoord = (updateEnpassant b).enpassantCoord :=
      (Board.ext_iff.mp hu).2.2.2.2.1
    refine ⟨updateEnpassant_eq_self_iff.mp ?_, keptCastling_eq_self_iff.mp ?_, hs, hh⟩
    · rw [updateEnpassant_eq, ← hep]
    · exact (Board.ext_iff.mp hu).2.2.2.1.symm
  · rintro ⟨hep, hc, hsb, hhb⟩
    rw [updateEnpassant_eq_self_iff.mpr hep, keptCastling_eq_self_iff.mpr hc] at hu
    have hcells : (update b).cells = b.cells := by rw [hu]
    obtain ⟨hw, hk, ha, hp⟩ := hs.unique hsb hcells
    have hhash : (update b).hash = b.hash := by
      rw [hh, hhb, hu]
      rfl
    rw [hu] at hw hk ha hp hhash ⊢
    exact Board.ext rfl rfl rfl rfl rfl rfl rfl hhash hw hk ha hp

theorem update_congr [Globals] {b b' : Board} (hcells : b.cells = b'.cells)
    (hunused : b.unused = b'.unused) (hside : b.side = b'.side)
    (hcastling : b.castling = b'.castling) (hep : b.enpassantCoord = b'.enpassantCoord)
    (hcounter : b.moveCounter = b'.moveCounter) (hnumber : b.moveNumber = b'.moveNumber) :
    update b = update b' := by
  have hepu : (updateEnpassant b).enpassantCoord = (updateEnpassant b').enpassantCoord := by
    simp only [updateEnpassant, hep, hcells, hside]
    split_ifs
    · rfl
    · exact hep
    · exact hep
  obtain ⟨h, w, k, a, p, hu, hs, hh⟩ := update_spec b
  obtain ⟨h', w', k', a', p', hu', hs', hh'⟩ := update_spec b'
  have hc : (update b).cells = (update b').cells := by rw [hu, hu', hcells]
  obtain ⟨hw, hk, ha, hp⟩ := hs.unique hs' hc
  have hhash : (update b).hash = (update b').hash := by
    rw [hh, hh', hu, hu']
    simp only [boardHash, hside, hepu, hcells, hcastling]
  rw [hu, hu'] at hw hk ha hp hhash ⊢
  rw [Board.ext_iff]
  exact ⟨hcells, hunused, hside, by rw [hcells, hcastling], hepu, hcounter, hnumber, hhash, hw, hk,
    ha, hp⟩

theorem update_update [Globals] (b : Board) : update (update b) = update b := by
  obtain ⟨h, w, k, a, p, hu, hs, hh⟩ := update_spec b
  rw [update_eq_self_iff]
  refine ⟨?_, ?_, hs, hh⟩
  · have hok := enpassantOk_updateEnpassant b
    rw [updateEnpassant_eq] at hok
    rw [hu]
    exact hok
  · rw [← keptCastling_eq_self_iff, hu]
    refine hasBit_ext fun i => ?_
    have hidem : ∀ x u v : Bool, (((x && u) && v) && u && v) = (x && u && v) := by decide
    simp only [hasBit_keptCastling, hidem]

end Synced

end SoFCheck.Core.BoardState
