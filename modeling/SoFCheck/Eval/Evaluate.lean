import SoFCheck.Core.Sequence
import SoFCheck.Eval.Weights

namespace SoFCheck.Eval.Evaluate

open SoFCheck.Util.ValArray SoFCheck.Eval.Score SoFCheck.Eval.Weights
open SoFCheck.Core.Types SoFCheck.Core.Geometry SoFCheck.Core.BoardState SoFCheck.Core.Moves

section Consts

def stagePawn : BitVec 32 := 0
def stageKnight : BitVec 32 := 1
def stageBishop : BitVec 32 := 1
def stageRook : BitVec 32 := 2
def stageQueen : BitVec 32 := 4

def stageTotal : BitVec 32 :=
  16 * stagePawn + 4 * stageKnight + 4 * stageBishop + 4 * stageRook + 2 * stageQueen

def stages (cell : Cell) : BitVec 32 :=
  [0, stagePawn, 0, stageKnight, stageBishop, stageRook, stageQueen, 0,
    0, stagePawn, 0, stageKnight, stageBishop, stageRook, stageQueen].getD cell.toNatClampNeg 0

end Consts

/-- What is kept of the cost of a board from one move to the next. -/
structure Tag (P : Type) where
  psqCost : P
  stage : BitVec 32

section Tags

variable {n : Nat} {S P : Type} [PairTraits P] (traits : WeightTraits n S P) (bundle : PsqBundle n)

/-- `Tag::from`. -/
def tagFrom (b : Board) : Tag P :=
  (List.finRange 64).foldl
    (fun tag i => ⟨tag.psqCost + psq traits bundle (b.cells i) i, tag.stage + stages (b.cells i)⟩)
    ⟨PairTraits.empty, 0⟩

/-- `none` stands for an assertion that fails. -/
def Tag.updated (tag : Tag P) (b : Board) (move : Move) : Option (Tag P) :=
  if move.kind = .null then some tag
  else
    let color := b.side
    if move.kind = .castlingKingside then
      some { tag with psqCost := tag.psqCost + psqKingsideUpd traits bundle color }
    else if move.kind = .castlingQueenside then
      some { tag with psqCost := tag.psqCost + psqQueensideUpd traits bundle color }
    else
      let src := toSquare move.src
      let dst := toSquare move.dst
      let srcCell := b.cells src
      let dstCell := b.cells dst
      match PairTraits.addItems (psq traits bundle srcCell src) (psq traits bundle dstCell dst) with
      | none => none
      | some cost =>
        let result : Tag P := ⟨tag.psqCost - cost, tag.stage - stages dstCell⟩
        if isMoveKindPromote move.kind then
          let promoteCell := makeCell color (moveKindPromotePiece move.kind)
          some ⟨result.psqCost + psq traits bundle promoteCell dst,
            result.stage + (stages promoteCell - stagePawn)⟩
        else
          let result := { result with psqCost := result.psqCost + psq traits bundle srcCell dst }
          if move.kind = .enpassant then
            let pawnPos := toSquare (enpassantPawnPos color move.dst)
            let enemyPawn := makeCell (invert color) .pawn
            some ⟨result.psqCost - psq traits bundle enemyPawn pawnPos, result.stage - stagePawn⟩
          else some result

/-- The tag is that of the board. -/
def Tag.isValid (tag : Tag P) (b : Board) : Bool :=
  let other := tagFrom traits bundle b
  tag.psqCost == other.psqCost && tag.stage == other.stage

end Tags

end SoFCheck.Eval.Evaluate
