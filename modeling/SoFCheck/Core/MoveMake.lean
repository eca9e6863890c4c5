import SoFCheck.Core.BoardState
import SoFCheck.Core.Moves

namespace SoFCheck.Core.MoveMake

open SoFCheck.Util.Bits SoFCheck.Util.XorSum
open SoFCheck.Core.Types SoFCheck.Core.Grid SoFCheck.Core.Geometry SoFCheck.Core.BoardState
open SoFCheck.Core.Moves

structure MovePersistence where
  hash : BoardHash
  castling : Castling
  enpassantCoord : Coord
  moveCounter : BitVec 16
  dstCell : Cell

section Statements

@[simps] def setCell (b : Board) (s : Square) (x : Cell) : Board :=
  { b with cells := Function.update b.cells s x }

@[simps] def xorHash (b : Board) (h : BoardHash) : Board := { b with hash := b.hash ^^^ h }

/-- `b.bbColor(c)` is assigned its image under `f`. -/
@[simps] def modifyColor (b : Board) (c : Color) (f : Bitboard → Bitboard) : Board :=
  { b with
    bbWhite := if c = .white then f b.bbWhite else b.bbWhite
    bbBlack := if c = .white then b.bbBlack else f b.bbBlack }

@[simps] def modifyPieces (b : Board) (x : Cell) (f : Bitboard → Bitboard) : Board :=
  { b with bbPieces := Function.update b.bbPieces x (f (b.bbPieces x)) }

@[simps] def setCastling (b : Board) (x : Castling) : Board := { b with castling := x }

@[simps] def setEnpassant (b : Board) (x : Coord) : Board := { b with enpassantCoord := x }

end Statements

/-- The bit shift by `castlingOffset`. -/
def castlingShift (c : Color) : Nat := (castlingOffset c).toBitVec.toNat

/-- The flags that `updateCastling` keeps. -/
def castlingMask (bbChange : Bitboard) : Castling :=
  let castlingMask := Castling.all
  let castlingMask := castlingMask ^^^
    if bbChange &&& bbCastlingBlackKingsideSrcs ≠ 0 then Castling.blackKingside else Castling.none
  let castlingMask := castlingMask ^^^
    if bbChange &&& bbCastlingBlackQueensideSrcs ≠ 0 then Castling.blackQueenside else Castling.none
  let castlingMask := castlingMask ^^^
    if bbChange &&& bbCastlingWhiteKingsideSrcs ≠ 0 then Castling.whiteKingside else Castling.none
  castlingMask ^^^
    if bbChange &&& bbCastlingWhiteQueensideSrcs ≠ 0 then Castling.whiteQueenside else Castling.none

section Make

variable [Globals]

def updateCastling (b : Board) (bbChange : Bitboard) : Board :=
  if bbChange &&& bbCastlingAllSrcs = 0 then b
  else
    let newCastling := b.castling &&& castlingMask bbChange
    if newCastling ≠ b.castling then
      let b := xorHash b (zobristCastling b.castling)
      let b := setCastling b newCastling
      xorHash b (zobristCastling b.castling)
    else b

/-- What both castlings do to the flags. -/
def dropCastling (C : Color) (b : Board) : Board :=
  let b := xorHash b (zobristCastling b.castling)
  let b := clearCastling b C
  xorHash b (zobristCastling b.castling)

def makeKingsideCastling (C : Color) (inverse : Bool) (b : Board) : Board :=
  let offset := castlingOffset C
  let king := makeCell C .king
  let rook := makeCell C .rook
  let b :=
    if inverse then
      let b := setCell b (toSquare (offset + 4)) king
      let b := setCell b (toSquare (offset + 5)) emptyCell
      let b := setCell b (toSquare (offset + 6)) emptyCell
      setCell b (toSquare (offset + 7)) rook
    else
      let b := setCell b (toSquare (offset + 4)) emptyCell
      let b := setCell b (toSquare (offset + 5)) rook
      let b := setCell b (toSquare (offset + 6)) king
      let b := setCell b (toSquare (offset + 7)) emptyCell
      xorHash b (zobristPieceCastlingKingside C)
  let b := modifyColor b C (· ^^^ 0xf0#64 <<< castlingShift C)
  let b := modifyPieces b rook (· ^^^ 0xa0#64 <<< castlingShift C)
  let b := modifyPieces b king (· ^^^ 0x50#64 <<< castlingShift C)
  if inverse then b else dropCastling C b

def makeQueensideCastling (C : Color) (inverse : Bool) (b : Board) : Board :=
  let offset := castlingOffset C
  let king := makeCell C .king
  let rook := makeCell C .rook
  let b :=
    if inverse then
      let b := setCell b (toSquare (offset + 0)) rook
      let b := setCell b (toSquare (offset + 2)) emptyCell
      let b := setCell b (toSquare (offset + 3)) emptyCell
      setCell b (toSquare (offset + 4)) king
    else
      let b := setCell b (toSquare (offset + 0)) emptyCell
      let b := setCell b (toSquare (offset + 2)) king
      let b := setCell b (toSquare (offset + 3)) rook
      let b := setCell b (toSquare (offset + 4)) emptyCell
      xorHash b (zobristPieceCastlingQueenside C)
  let b := modifyColor b C (· ^^^ 0x1d#64 <<< castlingShift C)
  let b := modifyPieces b rook (· ^^^ 0x09#64 <<< castlingShift C)
  let b := modifyPieces b king (· ^^^ 0x14#64 <<< castlingShift C)
  if inverse then b else dropCastling C b

def makeEnpassant (C : Color) (inverse : Bool) (b : Board) (move : Move) (bbChange : Bitboard) :
    Board :=
  let src := toSquare move.src
  let dst := toSquare move.dst
  let taken := toSquare (enpassantPawnPos C move.dst)
  let bbTaken := coordToBitboard taken
  let ourPawn := makeCell C .pawn
  let enemyPawn := makeCell (invert C) .pawn
  let b :=
    if inverse then
      let b := setCell b src ourPawn
      let b := setCell b dst emptyCell
      setCell b taken enemyPawn
    else
      let b := setCell b src emptyCell
      let b := setCell b dst ourPawn
      let b := setCell b taken emptyCell
      xorHash b (zobristPieces ourPawn src ^^^ zobristPieces ourPawn dst ^^^
        zobristPieces enemyPawn taken)
  let b := modifyColor b C (· ^^^ bbChange)
  let b := modifyPieces b ourPawn (· ^^^ bbChange)
  let b := modifyColor b (invert C) (· ^^^ bbTaken)
  modifyPieces b enemyPawn (· ^^^ bbTaken)

def makePawnDoubleMove (C : Color) (inverse : Bool) (b : Board) (move : Move)
    (bbChange : Bitboard) : Board :=
  let src := toSquare move.src
  let dst := toSquare move.dst
  let pawn := makeCell C .pawn
  let b :=
    if inverse then
      let b := setCell b src pawn
      setCell b dst emptyCell
    else
      let b := setCell b src emptyCell
      let b := setCell b dst pawn
      xorHash b (zobristPieces pawn src ^^^ zobristPieces pawn dst)
  let b := modifyColor b C (· ^^^ bbChange)
  let b := modifyPieces b pawn (· ^^^ bbChange)
  if inverse then b
  else
    let b := setEnpassant b move.dst
    xorHash b (zobristEnpassant dst)

/-- The case `MoveKind::Simple` of `moveMakeImpl`. -/
def makeSimple (C : Color) (b : Board) (src dst : Square) (srcCell dstCell : Cell) : Board :=
  let bbDst := coordToBitboard dst
  let bbChange := coordToBitboard src ||| bbDst
  let b := setCell b src emptyCell
  let b := setCell b dst srcCell
  let b := xorHash b (zobristPieces srcCell src ^^^ zobristPieces srcCell dst ^^^
    zobristPieces dstCell dst)
  let b := modifyColor b C (· ^^^ bbChange)
  let b := modifyPieces b srcCell (· ^^^ bbChange)
  let b := modifyColor b (invert C) (· &&& ~~~bbDst)
  let b := modifyPieces b dstCell (· &&& ~~~bbDst)
  updateCastling b bbChange

/-- The cases of the promotions in `moveMakeImpl`. -/
def makePromote (C : Color) (b : Board) (promote : Cell) (src dst : Square)
    (srcCell dstCell : Cell) : Board :=
  let bbSrc := coordToBitboard src
  let bbDst := coordToBitboard dst
  let bbChange := bbSrc ||| bbDst
  let b := setCell b src emptyCell
  let b := setCell b dst promote
  let b := xorHash b (zobristPieces srcCell src ^^^ zobristPieces promote dst ^^^
    zobristPieces dstCell dst)
  let b := modifyColor b C (· ^^^ bbChange)
  let b := modifyPieces b (makeCell C .pawn) (· ^^^ bbSrc)
  let b := modifyPieces b promote (· ^^^ bbDst)
  let b := modifyColor b (invert C) (· &&& ~~~bbDst)
  let b := modifyPieces b dstCell (· &&& ~~~bbDst)
  updateCastling b bbChange

def dropEnpassant (b : Board) : Board :=
  if b.enpassantCoord ≠ invalidCoord then
    let b := xorHash b (zobristEnpassant (toSquare b.enpassantCoord))
    setEnpassant b invalidCoord
  else b

/-- The `switch` of `moveMakeImpl`. -/
def makeKind (C : Color) (b : Board) (move : Move) (srcCell dstCell : Cell) : Board :=
  let src := toSquare move.src
  let dst := toSquare move.dst
  let bbChange := coordToBitboard src ||| coordToBitboard dst
  match move.kind with
  | .simple => makeSimple C b src dst srcCell dstCell
  | .pawnDoubleMove => makePawnDoubleMove C false b move bbChange
  | .promoteKnight | .promoteBishop | .promoteRook | .promoteQueen =>
    makePromote C b (makeCell C (moveKindPromotePiece move.kind)) src dst srcCell dstCell
  | .castlingKingside => makeKingsideCastling C false b
  | .castlingQueenside => makeQueensideCastling C false b
  | .null => b
  | .enpassant => makeEnpassant C false b move bbChange
  | .invalid => b

/-- The part of `moveMakeImpl` after the `switch`. -/
def finishMove (C : Color) (b : Board) (srcCell dstCell : Cell) : Board :=
  let resetMoveCounter := dstCell != emptyCell || srcCell == makeCell C .pawn
  let b := if resetMoveCounter then { b with moveCounter := 0 }
    else { b with moveCounter := b.moveCounter + 1 }
  let b := { b with side := invert C }
  let b := xorHash b zobristMoveSide
  let b := if C = .black then { b with moveNumber := b.moveNumber + 1 } else b
  { b with bbAll := b.bbWhite ||| b.bbBlack }

def moveMakeImpl (C : Color) (b : Board) (move : Move) : Board × MovePersistence :=
  let srcCell := b.cells (toSquare move.src)
  let dstCell := b.cells (toSquare move.dst)
  let p := ⟨b.hash, b.castling, b.enpassantCoord, b.moveCounter, dstCell⟩
  let b := dropEnpassant b
  let b := makeKind C b move srcCell dstCell
  (finishMove C b srcCell dstCell, p)

def moveMake (b : Board) (move : Move) : Board × MovePersistence := moveMakeImpl b.side b move

end Make

section Unmake

variable [Globals]

/-- The common end of the cases of `moveUnmakeImpl` that may have captured. -/
def restoreCaptured (C : Color) (b : Board) (dst : Square) (dstCell : Cell) : Board :=
  if dstCell ≠ emptyCell then
    let b := modifyColor b (invert C) (· ||| coordToBitboard dst)
    modifyPieces b dstCell (· ||| coordToBitboard dst)
  else b

def unmakeSimple (C : Color) (b : Board) (src dst : Square) (srcCell dstCell : Cell) : Board :=
  let bbChange := coordToBitboard src ||| coordToBitboard dst
  let b := setCell b src srcCell
  let b := setCell b dst dstCell
  let b := modifyColor b C (· ^^^ bbChange)
  let b := modifyPieces b srcCell (· ^^^ bbChange)
  restoreCaptured C b dst dstCell

def unmakePromote (C : Color) (b : Board) (promote : Cell) (src dst : Square) (dstCell : Cell) :
    Board :=
  let bbSrc := coordToBitboard src
  let bbDst := coordToBitboard dst
  let bbChange := bbSrc ||| bbDst
  let b := setCell b src (makeCell C .pawn)
  let b := setCell b dst dstCell
  let b := modifyColor b C (· ^^^ bbChange)
  let b := modifyPieces b (makeCell C .pawn) (· ^^^ bbSrc)
  let b := modifyPieces b promote (· ^^^ bbDst)
  restoreCaptured C b dst dstCell

/-- The `switch` of `moveUnmakeImpl`. -/
def unmakeKind (C : Color) (b : Board) (move : Move) (dstCell : Cell) : Board :=
  let src := toSquare move.src
  let dst := toSquare move.dst
  let bbChange := coordToBitboard src ||| coordToBitboard dst
  let srcCell := b.cells dst
  match move.kind with
  | .simple => unmakeSimple C b src dst srcCell dstCell
  | .pawnDoubleMove => makePawnDoubleMove C true b move bbChange
  | .promoteKnight | .promoteBishop | .promoteRook | .promoteQueen =>
    unmakePromote C b (makeCell C (moveKindPromotePiece move.kind)) src dst dstCell
  | .castlingKingside => makeKingsideCastling C true b
  | .castlingQueenside => makeQueensideCastling C true b
  | .null => b
  | .enpassant => makeEnpassant C true b move bbChange
  | .invalid => b

def moveUnmakeImpl (C : Color) (b : Board) (move : Move) (p : MovePersistence) : Board :=
  let b := unmakeKind C b move p.dstCell
  let b := { b with
    hash := p.hash
    castling := p.castling
    enpassantCoord := p.enpassantCoord
    moveCounter := p.moveCounter
    side := C }
  let b := if C = .black then { b with moveNumber := b.moveNumber - 1 } else b
  { b with bbAll := b.bbWhite ||| b.bbBlack }

def moveUnmake (b : Board) (move : Move) (p : MovePersistence) : Board :=
  moveUnmakeImpl (if b.side = .black then .white else .black) b move p

end Unmake

end SoFCheck.Core.MoveMake
