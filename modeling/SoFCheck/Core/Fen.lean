import SoFCheck.Core.Strutil
import SoFCheck.Core.Validate

namespace SoFCheck.Core.Fen

open SoFCheck.Util.CString SoFCheck.Util.Strutil
open SoFCheck.Core.Types SoFCheck.Core.Geometry SoFCheck.Core.BoardState SoFCheck.Core.Strutil

def bufszBoardFen : Nat := 120

section Writer

/-- One row of `Board::asFen`, with the number of empty cells not yet written. -/
def rowFen : List Cell → Nat → List Byte
  | [], empty => if empty ≠ 0 then [digitChar empty] else []
  | cur :: cells, empty =>
    if cur = emptyCell then rowFen cells (empty + 1)
    else (if empty ≠ 0 then [digitChar empty] else []) ++ cellToChar cur :: rowFen cells 0

def rowCells (b : Board) (i : Fin 8) : List Cell :=
  (List.finRange 8).map fun j => b.cells (toSquare (makeCoord (Int8.ofNat i) (Int8.ofNat j)))

def cellsFen (b : Board) : List Byte :=
  (List.finRange 8).flatMap fun i => (if i ≠ 0 then [('/' : Byte)] else []) ++ rowFen (rowCells b i) 0

def letterIf (cond : Bool) (c : Byte) : List Byte := if cond then [c] else []

def castlingFen (b : Board) : List Byte :=
  if !has b.castling then ['-']
  else
    letterIf (isKingsideCastling b .white) 'K' ++ letterIf (isQueensideCastling b .white) 'Q' ++
      letterIf (isKingsideCastling b .black) 'k' ++ letterIf (isQueensideCastling b .black) 'q'

def enpassantFen (b : Board) : List Byte :=
  if b.enpassantCoord = invalidCoord then ['-']
  else [ySubToChar (coordY b.enpassantCoord), if b.side = .white then '6' else '3']

/-- `Board::asFen`, with the terminating zero. -/
def asFen (b : Board) : List Byte :=
  cellsFen b ++ (' ' : Byte) :: (if b.side = .white then 'w' else 'b') :: (' ' : Byte) ::
    (castlingFen b ++ (' ' : Byte) :: (enpassantFen b ++ (' ' : Byte) ::
      (toChars b.moveCounter.toNat ++ (' ' : Byte) :: (toChars b.moveNumber.toNat ++ [0]))))

end Writer

section Parser

/-- The results other than `Ok`. -/
inductive FenParseResult where
  | expectedSpace
  | expectedUint16
  | unexpectedCharacter
  | boardRowOverflow
  | boardRowUnderflow
  | boardNotEnoughRows
  | boardTooManyRows
  | castlingDuplicate
  | castlingFieldMissing
  | enpassantInvalidCell
  | redundantData
  deriving DecidableEq, Repr

abbrev FenStop := Stop FenParseResult

/-- The counters of the loop over the cells. -/
structure CellScan where
  x : Nat
  y : Nat
  cur : Nat
  board : Board

def setCell (b : Board) (s : Square) (cell : Cell) : Board :=
  { b with cells := Function.update b.cells s cell }

/-- `cells[cur++] = cell`. -/
def writeCell (st : CellScan) (cell : Cell) : Except FenStop CellScan :=
  if h : st.cur < 64 then
    .ok { st with board := setCell st.board ⟨st.cur, h⟩ cell, cur := st.cur + 1 }
  else .error (.fault .outOfBounds)

def writeEmpty : Nat → CellScan → Except FenStop CellScan
  | 0, st => .ok st
  | add + 1, st =>
    match writeCell st emptyCell with
    | .error e => .error e
    | .ok st => writeEmpty add st

def pieceFromChar (lowC : Byte) : Option Piece :=
  if lowC = 'p' then some .pawn
  else if lowC = 'k' then some .king
  else if lowC = 'n' then some .knight
  else if lowC = 'b' then some .bishop
  else if lowC = 'r' then some .rook
  else if lowC = 'q' then some .queen
  else none

/-- One turn of the loop over the cells. -/
def cellTurn (st : CellScan) (c : Byte) : Except FenStop (CellScan ⊕ Board) :=
  if ('1' : Byte) ≤ c ∧ c ≤ '8' then
    let add := digitValue c
    if ¬st.y + add ≤ 8 then .error (.reject .boardRowOverflow)
    else
      match writeEmpty add st with
      | .error e => .error e
      | .ok st => .ok (.inl { st with y := st.y + add })
  else if c = '/' then
    if ¬st.y = 8 then .error (.reject .boardRowUnderflow)
    else
      let st := { st with x := st.x + 1, y := 0 }
      if ¬st.x < 8 then .error (.reject .boardTooManyRows) else .ok (.inl st)
  else if c = ' ' then
    if ¬st.y = 8 then .error (.reject .boardRowUnderflow)
    else if ¬st.x = 7 then .error (.reject .boardNotEnoughRows)
    else if st.cur = 64 then .ok (.inr st.board)
    else .error (.fault .assertion)
  else if ¬st.y < 8 then .error (.reject .boardRowOverflow)
  else
    let lowC := asciiToLower c
    match pieceFromChar lowC with
    | none => .error (.reject .unexpectedCharacter)
    | some piece =>
      let color := if c = lowC then .black else .white
      match writeCell st (makeCell color piece) with
      | .error e => .error e
      | .ok st => .ok (.inl { st with y := st.y + 1 })

def parseCells (b : Board) : Scanner FenParseResult Board := loop cellTurn ⟨0, 0, 0, b⟩

def consumeSpace : Scanner FenParseResult Unit := do
  let c ← next
  check (c = ' ') .expectedSpace

def sideFromChar (c : Byte) : Scanner FenParseResult Color :=
  if c = 'w' then pure .white
  else if c = 'b' then pure .black
  else reject .unexpectedCharacter

def parseSide (b : Board) : Scanner FenParseResult Board := do
  let c ← next
  let side ← sideFromChar c
  consumeSpace
  return { b with side := side }

/-- The wing that a castling flag belongs to. -/
inductive Wing where
  | kingside
  | queenside
  deriving DecidableEq, Repr

def castlingFlag (color : Color) : Wing → Castling
  | .kingside => castlingKingside color
  | .queenside => castlingQueenside color

/-- The letters in the order in which the parser tests them. -/
def rightFromChar (c : Byte) : Option (Color × Wing) :=
  if c = 'K' then some (.white, .kingside)
  else if c = 'Q' then some (.white, .queenside)
  else if c = 'k' then some (.black, .kingside)
  else if c = 'q' then some (.black, .queenside)
  else none

/-- One turn of the loop over the castling letters, with `hasCastling`. -/
def castlingTurn (st : Board × Bool) (c : Byte) : Except FenStop (Board × Bool ⊕ Board) :=
  match rightFromChar c with
  | some (color, side) =>
    if has (st.1.castling &&& castlingFlag color side) then .error (.reject .castlingDuplicate)
    else .ok (.inl ({ st.1 with castling := st.1.castling ||| castlingFlag color side }, true))
  | none =>
    if c = ' ' then
      if st.2 then .ok (.inr st.1) else .error (.reject .castlingFieldMissing)
    else .error (.reject .unexpectedCharacter)

def parseCastling (b : Board) : Scanner FenParseResult Board := do
  let b := { b with castling := Castling.none }
  let c ← peek
  if c = '-' then
    advance
    consumeSpace
    return b
  else loop castlingTurn (b, false)

def parseEnpassantCell (b : Board) : Scanner FenParseResult Board := do
  let letter ← next
  check (isYCharValid letter = true) .unexpectedCharacter
  let number ← next
  check (isXCharValid number = true) .unexpectedCharacter
  let enpassantX := enpassantSrcRow b.side
  check (charToSubX number = enpassantDstRow b.side) .enpassantInvalidCell
  return { b with enpassantCoord := makeCoord enpassantX (charToSubY letter) }

def parseEnpassantField (b : Board) : Scanner FenParseResult Board := do
  let c ← peek
  if c = '-' then
    advance
    return { b with enpassantCoord := invalidCoord }
  else parseEnpassantCell b

def parseEnpassant (b : Board) : Scanner FenParseResult Board := do
  let b ← parseEnpassantField b
  consumeSpace
  return b

def parseUint16 : Scanner FenParseResult (BitVec 16) := do
  let token ← scanTokenEnd
  match valueFromStr 65535 token with
  | some value => return BitVec.ofNat 16 value
  | none => reject .expectedUint16

def parseEnd : Scanner FenParseResult Unit := do
  let _ ← scanTokenStart
  let c ← peek
  check (c = 0) .redundantData

/-- `Board::setFromFen`. A string that is turned down leaves the board in a
state that no caller looks at. -/
def setFromFen [Globals] (b : Board) : Scanner FenParseResult Board := do
  let b := { b with unused := 0 }
  let b ← parseCells b
  let b ← parseSide b
  let b ← parseCastling b
  let b ← parseEnpassant b
  let moveCounter ← parseUint16
  consumeSpace
  let moveNumber ← parseUint16
  parseEnd
  return update { b with moveCounter := moveCounter, moveNumber := moveNumber }

/-- `Board::fromFen`. Nothing is known of the board before it is set. -/
def fromFen [Globals] (board : Board) (fen : List Byte) : Except FenStop Board :=
  match (setFromFen board).run fen with
  | .ok (b, _) => .ok b
  | .error e => .error e

end Parser

end SoFCheck.Core.Fen
