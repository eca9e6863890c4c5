import SoFCheck.Core.Position
import SoFCheck.Eval.Score
import SoFCheck.Util.ValArray

namespace SoFCheck.Eval.Weights

open SoFCheck.Util.ValArray SoFCheck.Eval.Score
open SoFCheck.Core.Types SoFCheck.Core.Position

/-- The unit that one feature counts for. -/
def coefUnitShift : Nat := 8

def coefUnit : Int := 2 ^ coefUnitShift

/-- `SmallCoefs<2>` has room for two items, `SmallCoefs<8>` for eight. -/
def itemCapacity : Nat := 2

def largeItemCapacity : Nat := 8

/-- A pair of sparse arrays. -/
structure CoefsPair (n : Nat) where
  first : SparseValArray n
  second : SparseValArray n

namespace CoefsPair

variable {n : Nat}

def from2 (first second : SparseValArray n) : CoefsPair n := ⟨first, second⟩

def from1 (first : SparseValArray n) : CoefsPair n := ⟨first, first⟩

instance : Add (CoefsPair n) := ⟨fun p q => ⟨p.first + q.first, p.second + q.second⟩⟩

instance : Sub (CoefsPair n) := ⟨fun p q => ⟨p.first - q.first, p.second - q.second⟩⟩

instance : Neg (CoefsPair n) := ⟨fun p => ⟨-p.first, -p.second⟩⟩

/-- Two pairs are equal if they are so in their dense form. -/
instance : BEq (CoefsPair n) :=
  ⟨fun p q => decide (p.first.take = q.first.take) && decide (p.second.take = q.second.take)⟩

/-- The sum in storage of a limited capacity. -/
def addWithin (capacity : Nat) (p q : CoefsPair n) : Option (CoefsPair n) := do
  let first ← p.first.addWithin capacity q.first
  let second ← p.second.addWithin capacity q.second
  return ⟨first, second⟩

end CoefsPair

/-- The type of `ScoreTraits<S>::Pair`, with its constants and operators. The
tables hold constants of the same type, but with less room; a sum of two of them
is `none` when there is not enough of it. -/
class PairTraits (P : Type) extends Add P, Sub P, Neg P, BEq P where
  /-- `Pair::from(S())` -/
  empty : P
  addItems : P → P → Option P
  addLargeItems : P → P → Option P

instance : PairTraits ScorePair where
  empty := ScorePair.from1 0
  addItems p q := some (p + q)
  addLargeItems p q := some (p + q)

instance {n : Nat} : PairTraits (CoefsPair n) where
  empty := CoefsPair.from1 SparseValArray.empty
  addItems := CoefsPair.addWithin itemCapacity
  addLargeItems := CoefsPair.addWithin largeItemCapacity

/-- `WeightTraits<S>` with the two ways to build a pair of items. -/
structure WeightTraits (n : Nat) (S P : Type) where
  empty : S
  number : Fin n → S
  number2 : Fin n → Fin n → S
  negNumber2 : Fin n → Fin n → S
  from1 : S → P
  from2 : S → S → P

/-- The weights of the engine; `weightValues` is the generated array. -/
def scoreWeights {n : Nat} (weightValues : Fin n → Int16) : WeightTraits n Int ScorePair where
  empty := 0
  number num := (weightValues num).toInt
  number2 n1 n2 := toScore ((weightValues n1).toInt + (weightValues n2).toInt)
  negNumber2 n1 n2 := toScore (-((weightValues n1).toInt + (weightValues n2).toInt))
  from1 := ScorePair.from1
  from2 := ScorePair.from2

def coefsWeights (n : Nat) : WeightTraits n (SparseValArray n) (CoefsPair n) where
  empty := SparseValArray.empty
  number num := SparseValArray.empty.add num coefUnit
  number2 n1 n2 := (SparseValArray.empty.add n1 coefUnit).add n2 coefUnit
  negNumber2 n1 n2 := (SparseValArray.empty.add n1 (-coefUnit)).add n2 (-coefUnit)
  from1 := CoefsPair.from1
  from2 := CoefsPair.from2

/-- Where a bundle of type `psq` lies among the features: the costs of the
pieces, the tables of the six pieces and the table of the king in the endgame. -/
structure PsqBundle (n : Nat) where
  offset : Nat
  fits : offset + 6 + 6 * 64 + 64 ≤ n

def pieceIdx (piece : Piece) : Fin 6 :=
  match piece with
  | .pawn => 0
  | .king => 1
  | .knight => 2
  | .bishop => 3
  | .rook => 4
  | .queen => 5

namespace PsqBundle

variable {n : Nat} (bundle : PsqBundle n)

def pieceCosts (piece : Piece) : Fin n :=
  ⟨bundle.offset + pieceIdx piece, by have := bundle.fits; omega⟩

def table (piece : Piece) (i : Square) : Fin n :=
  ⟨bundle.offset + 6 + pieceIdx piece * 64 + i, by have := bundle.fits; omega⟩

def endKingTable (i : Square) : Fin n :=
  ⟨bundle.offset + 6 + 6 * 64 + i, by have := bundle.fits; omega⟩

end PsqBundle

def coordFlipX (coord : Square) : Square := coord ^^^ 56

section Psq

variable {n : Nat} {S P : Type} (traits : WeightTraits n S P) (bundle : PsqBundle n)

/-- The cost of a piece that stands on `i` as White sees it. -/
def psqCost (color : Color) (piece : Piece) (i : Square) : P :=
  let num2 := if color = .white then traits.number2 else traits.negNumber2
  let pieceFeat := bundle.pieceCosts piece
  let cellFeat := bundle.table piece i
  if piece = .king then
    traits.from2 (num2 pieceFeat cellFeat) (num2 pieceFeat (bundle.endKingTable i))
  else traits.from1 (num2 pieceFeat cellFeat)

/-- The piece-square table. -/
def psq (cell : Cell) (pos : Square) : P :=
  match pieceOf cell with
  | some (color, piece) =>
    psqCost traits bundle color piece (if color = .white then pos else coordFlipX pos)
  | none => traits.from1 traits.empty

variable [PairTraits P]

def whiteKing : Cell := makeCell .white .king

def whiteRook : Cell := makeCell .white .rook

/-- The cost of the white pieces that castle to the king's side. -/
def kingsideCastling : P :=
  psq traits bundle whiteKing (toSquare (makeCoord 7 6)) -
    psq traits bundle whiteKing (toSquare (makeCoord 7 4)) +
    psq traits bundle whiteRook (toSquare (makeCoord 7 5)) -
    psq traits bundle whiteRook (toSquare (makeCoord 7 7))

def queensideCastling : P :=
  psq traits bundle whiteKing (toSquare (makeCoord 7 2)) -
    psq traits bundle whiteKing (toSquare (makeCoord 7 4)) +
    psq traits bundle whiteRook (toSquare (makeCoord 7 3)) -
    psq traits bundle whiteRook (toSquare (makeCoord 7 0))

def psqKingsideUpd (color : Color) : P :=
  if color = .white then kingsideCastling traits bundle else -kingsideCastling traits bundle

def psqQueensideUpd (color : Color) : P :=
  if color = .white then queensideCastling traits bundle else -queensideCastling traits bundle

end Psq

end SoFCheck.Eval.Weights
