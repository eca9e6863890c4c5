import SoFCheck.Core.Attack
import SoFCheck.Core.Between

namespace SoFCheck.Core.Movegen

open SoFCheck.Util.Bits
open SoFCheck.Core.Types SoFCheck.Core.Grid SoFCheck.Core.Geometry SoFCheck.Core.NearAttacks
open SoFCheck.Core.Between SoFCheck.Core.BoardState SoFCheck.Core.Moves SoFCheck.Core.Attack

inductive PromoteGenPolicy where
  | all
  | promoteOnly
  | noPromote
  deriving DecidableEq

/-- `SimpleGenFilter` and `CheckGenFilter`. -/
inductive GenFilter where
  | simple
  | check (bbDstMask : Bitboard)

def GenFilter.genCastling : GenFilter → Bool
  | .simple => true
  | .check _ => false

def GenFilter.filterDst : GenFilter → Bitboard → Bitboard
  | .simple, bbDst => bbDst
  | .check bbDstMask, bbDst => bbDst &&& bbDstMask

def addPawnWithPromote (isPromote : Bool) (src dst : Coord) : List Move :=
  if isPromote then
    [⟨.promoteKnight, src, dst, 0⟩, ⟨.promoteBishop, src, dst, 0⟩, ⟨.promoteRook, src, dst, 0⟩,
      ⟨.promoteQueen, src, dst, 0⟩]
  else [⟨.simple, src, dst, 0⟩]

def doGenPawnSingle (C : Color) (isPromote : Bool) (b : Board) (bbPawns : Bitboard)
    (filter : GenFilter) : List Move :=
  let bbPawnDsts := filter.filterDst (advancePawnForward C bbPawns &&& ~~~b.bbAll)
  (extractAll bbPawnDsts).flatMap fun dst =>
    addPawnWithPromote isPromote (toCoord dst - pawnForwardDelta C) (toCoord dst)

def doGenPawnDouble (C : Color) (b : Board) (bbPawns : Bitboard) (filter : GenFilter) :
    List Move :=
  let bbPawnTmps := advancePawnForward C bbPawns &&& ~~~b.bbAll
  let bbPawnDsts := filter.filterDst (advancePawnForward C bbPawnTmps &&& ~~~b.bbAll)
  (extractAll bbPawnDsts).map fun dst =>
    ⟨.pawnDoubleMove, toCoord dst - 2 * pawnForwardDelta C, toCoord dst, 0⟩

def doGenPawnCapture (C : Color) (isPromote : Bool) (b : Board) (bbPawns : Bitboard)
    (filter : GenFilter) : List Move :=
  let bbAllowed := bbColor b (invert C)
  let leftDelta := pawnLeftDelta C
  let rightDelta := pawnRightDelta C
  ((extractAll (filter.filterDst (advancePawnLeft C bbPawns &&& bbAllowed))).flatMap fun dst =>
    addPawnWithPromote isPromote (toCoord dst - leftDelta) (toCoord dst)) ++
  ((extractAll (filter.filterDst (advancePawnRight C bbPawns &&& bbAllowed))).flatMap fun dst =>
    addPawnWithPromote isPromote (toCoord dst - rightDelta) (toCoord dst))

def genPawnSimple (C : Color) (policy : PromoteGenPolicy) (b : Board) (filter : GenFilter) :
    List Move :=
  let bbPromote := bbRow (rowIdx (promoteSrcRow C))
  let bbDouble := bbRow (rowIdx (doubleMoveSrcRow C))
  let bbPawns := b.bbPieces (makeCell C .pawn)
  (if policy = .all ∨ policy = .noPromote then
    doGenPawnSingle C false b (bbPawns &&& ~~~bbPromote) filter ++
      doGenPawnDouble C b (bbPawns &&& bbDouble) filter
  else []) ++
  (if policy = .all ∨ policy = .promoteOnly then
    doGenPawnSingle C true b (bbPawns &&& bbPromote) filter
  else [])

def genPawnCapture (C : Color) (b : Board) (filter : GenFilter) : List Move :=
  let bbPromote := bbRow (rowIdx (promoteSrcRow C))
  let bbPawns := b.bbPieces (makeCell C .pawn)
  doGenPawnCapture C false b (bbPawns &&& ~~~bbPromote) filter ++
    doGenPawnCapture C true b (bbPawns &&& bbPromote) filter

def genPawnEnpassant (C : Color) (b : Board) : List Move :=
  let enpassantCoord := b.enpassantCoord
  if enpassantCoord = invalidCoord then []
  else
    let y := coordY enpassantCoord
    let dst := enpassantCoord + pawnForwardDelta C
    let leftPawn := enpassantCoord - 1
    let rightPawn := enpassantCoord + 1
    (if y ≠ 0 ∧ b.cells (toSquare leftPawn) = makeCell C .pawn then
      [⟨.enpassant, leftPawn, dst, 0⟩]
    else []) ++
    (if y ≠ 7 ∧ b.cells (toSquare rightPawn) = makeCell C .pawn then
      [⟨.enpassant, rightPawn, dst, 0⟩]
    else [])

/-- The cells that may be entered, given what must be generated. -/
def getAllowedMask (C : Color) (genSimple genCaptures : Bool) (b : Board) : Bitboard :=
  if genSimple then (if genCaptures then ~~~(bbColor b C) else ~~~b.bbAll)
  else bbColor b (invert C)

/-- The two loops over sources and targets that all the piece generators share. -/
def genPieceMoves (bbSrc : Bitboard) (attacks : Square → Bitboard) (bbAllowed : Bitboard)
    (filter : GenFilter) : List Move :=
  (extractAll bbSrc).flatMap fun src =>
    (extractAll (filter.filterDst (attacks src &&& bbAllowed))).map fun dst =>
      ⟨.simple, toCoord src, toCoord dst, 0⟩

def genKnightOrKing (C : Color) (p : Piece) (genSimple genCaptures : Bool) (b : Board)
    (filter : GenFilter) : List Move :=
  let attacks := if p = .knight then knightAttacks else kingAttacks
  genPieceMoves (b.bbPieces (makeCell C p)) attacks (getAllowedMask C genSimple genCaptures b) filter

def genKnight (C : Color) (genSimple genCaptures : Bool) (b : Board) (filter : GenFilter) :
    List Move :=
  genKnightOrKing C .knight genSimple genCaptures b filter

def genKing (C : Color) (genSimple genCaptures : Bool) (b : Board) : List Move :=
  genKnightOrKing C .king genSimple genCaptures b .simple

variable [Globals]

def genBishopOrRook (C : Color) (p : Piece) (genSimple genCaptures : Bool) (b : Board)
    (bbSrc : Bitboard) (filter : GenFilter) : List Move :=
  let attacks := if p = .bishop then bishopAttackBitboard b.bbAll else rookAttackBitboard b.bbAll
  genPieceMoves bbSrc attacks (getAllowedMask C genSimple genCaptures b) filter

def genBishop (C : Color) (genSimple genCaptures : Bool) (b : Board) (bbSrc : Bitboard)
    (filter : GenFilter) : List Move :=
  genBishopOrRook C .bishop genSimple genCaptures b bbSrc filter

def genRook (C : Color) (genSimple genCaptures : Bool) (b : Board) (bbSrc : Bitboard)
    (filter : GenFilter) : List Move :=
  genBishopOrRook C .rook genSimple genCaptures b bbSrc filter

/-- Only called when there is no check. -/
def genCastling (C : Color) (b : Board) : List Move :=
  let x := castlingRow C
  let castlingOffset := (castlingOffset C).toBitVec.toNat
  (if isKingsideCastling b C then
    let castlingPass := bbCastlingKingsidePass <<< castlingOffset
    let src := makeCoord x 4
    let tmp := makeCoord x 5
    let dst := makeCoord x 6
    if castlingPass &&& b.bbAll = 0 ∧ !isCellAttacked b (toSquare tmp) (invert C) then
      [⟨.castlingKingside, src, dst, 0⟩]
    else []
  else []) ++
  (if isQueensideCastling b C then
    let castlingPass := bbCastlingQueensidePass <<< castlingOffset
    let src := makeCoord x 4
    let tmp := makeCoord x 3
    let dst := makeCoord x 2
    if castlingPass &&& b.bbAll = 0 ∧ !isCellAttacked b (toSquare tmp) (invert C) then
      [⟨.castlingQueenside, src, dst, 0⟩]
    else []
  else [])

def genImplInner (C : Color) (genSimple genCaptures genSimplePromote : Bool) (b : Board)
    (filter : GenFilter) : List Move :=
  (if genSimple then
    genPawnSimple C (if genSimplePromote then .all else .noPromote) b filter else []) ++
  (if genCaptures then genPawnCapture C b filter ++ genPawnEnpassant C b else []) ++
  genKing C genSimple genCaptures b ++
  genKnight C genSimple genCaptures b filter ++
  genBishop C genSimple genCaptures b (bbDiagPieces C b) filter ++
  genRook C genSimple genCaptures b (bbLinePieces C b) filter ++
  (if genSimple && filter.genCastling then genCastling C b else [])

inductive CheckKind where
  | none
  | single
  | double
  deriving DecidableEq

/-- The object `MoveGen`; `checkMask` is zero unless there is a single check. -/
structure MoveGen where
  b : Board
  checkMask : Bitboard
  check : CheckKind
  side : Color

def mkMoveGen (b : Board) : MoveGen :=
  let king := kingPos b b.side
  let kingAttackers := cellAttackers b king (invert b.side)
  if kingAttackers = 0 then ⟨b, 0, .none, b.side⟩
  else if !hasZeroOrOneBit kingAttackers then ⟨b, 0, .double, b.side⟩
  else
    let checker := getLowest kingAttackers
    ⟨b, between checker king ||| kingAttackers, .single, b.side⟩

namespace MoveGen

def genImpl (g : MoveGen) (C : Color) (genSimple genCaptures genSimplePromote : Bool) :
    List Move :=
  match g.check with
  | .none => genImplInner C genSimple genCaptures genSimplePromote g.b .simple
  | .single => genImplInner C genSimple genCaptures genSimplePromote g.b (.check g.checkMask)
  | .double => genKing C genSimple genCaptures g.b

omit [Globals] in
def genSimplePromotesImpl (g : MoveGen) (C : Color) : List Move :=
  match g.check with
  | .none => genPawnSimple C .promoteOnly g.b .simple
  | .single => genPawnSimple C .promoteOnly g.b (.check g.checkMask)
  | .double => []

def genCaptures (g : MoveGen) : List Move := g.genImpl g.side false true false

def genAllMoves (g : MoveGen) : List Move := g.genImpl g.side true true true

def genSimpleMoves (g : MoveGen) : List Move := g.genImpl g.side true false true

def genSimpleMovesNoPromote (g : MoveGen) : List Move := g.genImpl g.side true false false

omit [Globals] in
def genSimplePromotes (g : MoveGen) : List Move := g.genSimplePromotesImpl g.side

end MoveGen

def isMoveValidImpl (C : Color) (b : Board) (move : Move) : Bool :=
  let castlingOffset := (castlingOffset C).toBitVec.toNat
  if move.kind = .null then false
  else if move.kind = .castlingKingside then
    let castlingPass := bbCastlingKingsidePass <<< castlingOffset
    isKingsideCastling b C && castlingPass &&& b.bbAll == 0 &&
      !isCellAttacked b (toSquare move.src) (invert C) &&
      !isCellAttacked b (toSquare (move.src + 1)) (invert C)
  else if move.kind = .castlingQueenside then
    let castlingPass := bbCastlingQueensidePass <<< castlingOffset
    isQueensideCastling b C && castlingPass &&& b.bbAll == 0 &&
      !isCellAttacked b (toSquare move.src) (invert C) &&
      !isCellAttacked b (toSquare (move.src - 1)) (invert C)
  else
    let src := move.src
    let dst := move.dst
    let srcCell := b.cells (toSquare src)
    let dstCell := b.cells (toSquare dst)
    let bbDst := coordToBitboard (toSquare dst)
    if srcCell = makeCell C .pawn then
      if move.kind = .pawnDoubleMove then
        let bbMustEmpty := if C = .white then 0x0101#64 <<< (src.toInt - 16).toNat
          else 0x010100#64 <<< src.toInt.toNat
        b.bbAll &&& bbMustEmpty == 0
      else if move.kind = .enpassant then
        (src.toInt + 1 == b.enpassantCoord.toInt || src.toInt - 1 == b.enpassantCoord.toInt) &&
          dst == b.enpassantCoord + pawnForwardDelta C
      else if !isMoveKindPromote move.kind && coordX src == promoteSrcRow C then false
      else if dstCell = emptyCell then dst == src + pawnForwardDelta C
      else if cellPieceColor dstCell ≠ C then
        let attackArr := if C = .white then whitePawnAttacks else blackPawnAttacks
        attackArr (toSquare src) &&& bbDst != 0
      else false
    else if move.kind ≠ .simple then false
    else if bbDst &&& bbColor b C ≠ 0 then false
    else if srcCell = makeCell C .king then kingAttacks (toSquare src) &&& bbDst != 0
    else if srcCell = makeCell C .knight then knightAttacks (toSquare src) &&& bbDst != 0
    else if srcCell = makeCell C .bishop then bishopAttackMasked b.bbAll (toSquare src) bbDst != 0
    else if srcCell = makeCell C .rook then rookAttackMasked b.bbAll (toSquare src) bbDst != 0
    else if srcCell = makeCell C .queen then
      bishopAttackMasked b.bbAll (toSquare src) bbDst != 0 ||
        rookAttackMasked b.bbAll (toSquare src) bbDst != 0
    else false

def isMoveValid (b : Board) (move : Move) : Bool := isMoveValidImpl b.side b move

omit [Globals] in
def isMoveCapture (b : Board) (move : Move) : Bool :=
  b.cells (toSquare move.dst) != emptyCell || decide (move.kind = .enpassant)

def isMoveLegalImpl (C : Color) (b : Board) (move : Move) : Bool :=
  if move.kind = .null then !isCheck b
  else
    let src := toSquare move.src
    let dst := toSquare move.dst
    let bbSrc := coordToBitboard src
    let bbDst := coordToBitboard dst
    let srcCell := b.cells src
    if srcCell = makeCell C .king then
      !isAttackedMasked (invert C) b dst (b.bbAll ^^^ bbSrc) bbFull
    else
      let king := kingPos b C
      let bbAll := (b.bbAll ^^^ bbSrc) ||| bbDst
      let bbOursMask := ~~~bbDst
      if move.kind = .enpassant then
        let bbTmp := advancePawnForward (invert C) bbDst
        !isAttackedMasked (invert C) b king (bbAll ^^^ bbTmp) (bbOursMask ^^^ bbTmp)
      else !isAttackedMasked (invert C) b king bbAll bbOursMask

def isMoveLegal (b : Board) (move : Move) : Bool := isMoveLegalImpl b.side b move

end SoFCheck.Core.Movegen
