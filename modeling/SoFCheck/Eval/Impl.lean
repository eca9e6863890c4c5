import SoFCheck.Eval.Bitboard
import SoFCheck.Eval.Evaluate
import SoFCheck.Util.Words

namespace SoFCheck.Eval.Impl

open SoFCheck.Util.Bits SoFCheck.Util.Words SoFCheck.Util.ValArray
open SoFCheck.Core.Types SoFCheck.Core.Grid SoFCheck.Core.Geometry SoFCheck.Core.BoardState
open SoFCheck.Eval.Score SoFCheck.Eval.Weights SoFCheck.Eval.Evaluate SoFCheck.Eval.Bitboard

def kingZoneCost1 : Int := 5
def kingZoneCost2 : Int := 4
def kingZoneCost3 : Int := 1

/-- The arithmetic of a score type `S` whose pairs have type `P`. -/
class ScoreType (S : Type) (P : outParam Type) where
  zero : S
  /-- `result += x` -/
  add : S → S → S
  /-- `x - y` as a new score -/
  sub : S → S → S
  /-- `result += x - y` -/
  addDiff : S → S → S → S
  /-- `static_cast<S>(weight * coef)` -/
  scale : S → Int → S
  /-- `x + y + ..` as a new score -/
  total : List S → S
  /-- `(first * stage + second * (COEF_UNIT - stage)) >> COEF_UNIT_SHIFT` -/
  mix : P → Int → S

instance instScoreTypeInt : ScoreType Int ScorePair where
  zero := 0
  add result x := toScore (result + x)
  sub x y := toScore (x - y)
  addDiff result x y := toScore (result + (x - y))
  scale weight coef := toScore (weight * coef)
  total l := toScore l.sum
  mix pair stage :=
    toScore ((pair.first * stage + pair.second * (coefUnit - stage)) >>> coefUnitShift)

instance instScoreTypeCoefs {n : Nat} : ScoreType (SparseValArray n) (CoefsPair n) where
  zero := SparseValArray.empty
  add result x := result + x
  sub x y := x - y
  addDiff result x y := result + (x - y)
  scale weight coef := weight.scale coef
  total l := l.foldl (· + ·) SparseValArray.empty
  mix pair stage :=
    (pair.first.scale stage + pair.second.scale (coefUnit - stage)).shiftRight coefUnitShift

/-- Where a bundle of type `king_pawn` lies among the features. -/
structure KingPawnBundle (n : Nat) where
  offset : Nat
  fits : offset + 12 ≤ n

namespace KingPawnBundle

variable {n : Nat} (bundle : KingPawnBundle n)

def shield (idx : Fin 6) : Fin n := ⟨bundle.offset + idx, by have := bundle.fits; omega⟩

def storm (idx : Fin 6) : Fin n := ⟨bundle.offset + 6 + idx, by have := bundle.fits; omega⟩

end KingPawnBundle

/-- The features that the evaluator uses, under their names in the feature file. -/
structure FeatureSet (n : Nat) where
  psq : PsqBundle n
  queenNearToKing : Fin n
  rookNearToKing : Fin n
  twoBishops : Fin n
  pawnIsolated : Fin n
  pawnDouble : Fin n
  pawnPassed : Fin n
  pawnCandidate : Fin n
  pawnOpen : Fin n
  pawnProtected : Fin n
  pawnBackward : Fin n
  kingPawn : KingPawnBundle n
  rookOpenCol : Fin n
  rookSemiOpenCol : Fin n
  queenOpenCol : Fin n
  queenSemiOpenCol : Fin n

section KingPawn

variable {n : Nat} {S P : Type} [ScoreType S P] (traits : WeightTraits n S P)

/-- The three columns next to a king on the other wing are read from right to left. -/
def applyInv (inverted : Bool) (x : Nat) : Nat :=
  if inverted then ((x &&& 4) >>> 2) ||| (x &&& 2) ||| ((x &&& 1) <<< 2) else x

/-- The terms `number(a, b)`, and `number(a)` for the last of an odd number of offsets. -/
def numbers : List (Fin n) → List S
  | [] => []
  | [a] => [traits.number a]
  | a :: b :: offsets => traits.number2 a b :: numbers offsets

/-- A `LargePair`: its six weights at most fit in a `LargeItem`. -/
def maskToWeightSum (mask : Nat) (weights : Fin 6 → Fin n) : P :=
  let offsets := ((List.finRange 6).filter fun idx => mask.testBit idx.val).map weights
  if offsets = [] then traits.from1 traits.empty
  else traits.from2 (ScoreType.total (numbers traits offsets)) traits.empty

def kingPawnMask (inverted : Bool) (mask1 mask2 : Nat) : Nat :=
  applyInv inverted mask1 ||| (applyInv inverted mask2 <<< 3)

variable (bundle : KingPawnBundle n)

/-- `KING_PAWN_SHIELD` and `KING_PAWN_SHIELD_INV` -/
def kingPawnShield (inverted : Bool) (mask1 mask2 : Nat) : P :=
  maskToWeightSum traits (kingPawnMask inverted mask1 mask2) bundle.shield

/-- `KING_PAWN_STORM` and `KING_PAWN_STORM_INV` -/
def kingPawnStorm (inverted : Bool) (mask1 mask2 : Nat) : P :=
  maskToWeightSum traits (kingPawnMask inverted mask1 mask2) bundle.storm

end KingPawn

structure PawnCacheValue (S : Type) where
  bbOpenCols : BitVec 8
  bbWhiteOnlyCols : BitVec 8
  bbBlackOnlyCols : BitVec 8
  flags : BitVec 8
  unused : BitVec 16
  score : S

namespace PawnCacheValue

variable {S P : Type} [ScoreType S P]

def flagIsValid : BitVec 8 := 1

def isValid (value : PawnCacheValue S) : Bool := value.flags &&& flagIsValid != 0

def invalid : PawnCacheValue S := ⟨0, 0, 0, 0, 0, ScoreType.zero⟩

def fromCols (bbOpenCols bbWhiteOnlyCols bbBlackOnlyCols : BitVec 8) (score : S) :
    PawnCacheValue S :=
  ⟨bbOpenCols, bbWhiteOnlyCols, bbBlackOnlyCols, flagIsValid, 0, score⟩

end PawnCacheValue

/-- Calculates the game stage from the tag. -/
def calcStage (stage : BitVec 32) : Int :=
  let rawStage := (((stage <<< coefUnitShift) + (stageTotal >>> 1)) / stageTotal).toInt
  min rawStage coefUnit

section Pawns

/-- What the loop over the pawns counts. -/
structure PawnCounts where
  isolatedPawns : Int
  doublePawns : Int
  passedPawns : Int
  openPawns : Int
  candidatePawns : Int
  bbAttackFrontspans : Bitboard

def bbPawnAttacks (c : Color) (bbPawns : Bitboard) : Bitboard :=
  advancePawnLeft c bbPawns ||| advancePawnRight c bbPawns

/-- One turn of the loop. -/
def countPawn (c : Color) (bbPawns bbEnemyPawns : Bitboard) (counts : PawnCounts) (src : Square) :
    PawnCounts :=
  let bbAllPawns := bbPawns ||| bbEnemyPawns
  let bbAttacks := bbPawnAttacks c bbPawns
  let bbEnemyAttacks := bbPawnAttacks (invert c) bbEnemyPawns
  let isOpen := bbAllPawns &&& bbOpenPawn c src = 0
  let isPassed := bbEnemyPawns &&& bbPassedPawn c src = 0
  let isCandidate := bbEnemyAttacks &&& ~~~bbAttacks &&& bbOpenPawn c src = 0
  { isolatedPawns :=
      counts.isolatedPawns + if bbPawns &&& isolatedPawn src = 0 then 1 else 0
    doublePawns := counts.doublePawns + if bbPawns &&& doublePawn src ≠ 0 then 1 else 0
    openPawns := counts.openPawns + if isOpen then 1 else 0
    passedPawns := counts.passedPawns + if isOpen ∧ isPassed then 1 else 0
    candidatePawns := counts.candidatePawns + if isOpen ∧ ¬isPassed ∧ isCandidate then 1 else 0
    bbAttackFrontspans := counts.bbAttackFrontspans ||| attackFrontspans c src }

def countPawns (c : Color) (bbPawns bbEnemyPawns : Bitboard) : PawnCounts :=
  let counts := (extractAll bbPawns).foldl (countPawn c bbPawns bbEnemyPawns) ⟨0, 0, 0, 0, 0, 0⟩
  { counts with openPawns := counts.openPawns - counts.candidatePawns - counts.passedPawns }

def protectedPawns (c : Color) (bbPawns : Bitboard) : Int :=
  popcount (bbPawns &&& bbPawnAttacks c bbPawns)

def backwardPawns (c : Color) (bbPawns bbEnemyPawns bbAttackFrontspans : Bitboard) : Int :=
  popcount (advancePawnForward c bbPawns &&& bbPawnAttacks (invert c) bbEnemyPawns &&&
    ~~~bbAttackFrontspans)

end Pawns

section Impl

variable {n : Nat} {S P : Type} [PairTraits P] [ScoreType S P]
variable (traits : WeightTraits n S P) (features : FeatureSet n)

/-- Adds `weight * coef` to `result`. -/
def addWithCoef (result : S) (weight : Fin n) (coef : Int) : S :=
  ScoreType.add result (ScoreType.scale (traits.number weight) coef)

def doEvalPawns (c : Color) (bbPawns bbEnemyPawns : Bitboard) : S :=
  let counts := countPawns c bbPawns bbEnemyPawns
  let result := ScoreType.zero
  let result := addWithCoef traits result features.pawnIsolated counts.isolatedPawns
  let result := addWithCoef traits result features.pawnDouble counts.doublePawns
  let result := addWithCoef traits result features.pawnPassed counts.passedPawns
  let result := addWithCoef traits result features.pawnOpen counts.openPawns
  let result := addWithCoef traits result features.pawnCandidate counts.candidatePawns
  let result := addWithCoef traits result features.pawnProtected (protectedPawns c bbPawns)
  addWithCoef traits result features.pawnBackward
    (backwardPawns c bbPawns bbEnemyPawns counts.bbAttackFrontspans)

def evalPawns (b : Board) : PawnCacheValue S :=
  let bbWhitePawns := b.bbPieces (makeCell .white .pawn)
  let bbBlackPawns := b.bbPieces (makeCell .black .pawn)
  let score := ScoreType.sub (doEvalPawns traits features .white bbWhitePawns bbBlackPawns)
    (doEvalPawns traits features .black bbBlackPawns bbWhitePawns)
  let bbWhiteCols := byteGather bbWhitePawns
  let bbBlackCols := byteGather bbBlackPawns
  let bbOpenCols := ~~~bbWhiteCols &&& ~~~bbBlackCols
  let bbWhiteOnlyCols := bbWhiteCols &&& ~~~bbBlackCols
  let bbBlackOnlyCols := ~~~bbWhiteCols &&& bbBlackCols
  .fromCols bbOpenCols bbWhiteOnlyCols bbBlackOnlyCols score

/-- The enemy pieces near the king, each counted by its distance. -/
def nearCount (b : Board) (c : Color) (piece : Piece) : Int :=
  let bb := b.bbPieces (makeCell (invert c) piece)
  let countAtDistance := fun dist => (popcount (kingMetricRing (kingPos b c) dist &&& bb) : Int)
  kingZoneCost1 * countAtDistance 1 + kingZoneCost2 * countAtDistance 2 +
    kingZoneCost3 * countAtDistance 3

def bbShieldedKing (c : Color) : Bitboard :=
  if c = .white then whiteShieldedKing else blackShieldedKing

/-- Three cells of a row: the column of the king and the ones next to it. -/
def rowMask (bbPawns bbRow : Bitboard) (shift : Nat) : Nat := (((bbPawns &&& bbRow) >>> shift) &&& 7).toNat

/-- The pawns before the king; `none` where the sum of two `LargePair`s is too long. -/
def kingPawnResult (b : Board) (c : Color) : Option P :=
  let bbPawns := b.bbPieces (makeCell c .pawn)
  let bbEnemyPawns := b.bbPieces (makeCell (invert c) .pawn)
  let kingY := col (kingPos b c)
  let shift1 := if c = .white then kingY + 47 else kingY + 7
  let shift2 := if c = .white then kingY + 39 else kingY + 15
  let shift3 := if c = .white then kingY + 31 else kingY + 23
  let row1 := bbRow (if c = .white then 6 else 1)
  let row2 := bbRow (if c = .white then 5 else 2)
  let row3 := bbRow (if c = .white then 4 else 3)
  let shieldMask1 := rowMask bbPawns row1 shift1
  let shieldMask2 := rowMask bbPawns row2 shift2
  let stormMask2 := rowMask bbEnemyPawns row2 shift2
  let stormMask3 := rowMask bbEnemyPawns row3 shift3
  let inverted := decide (kingY ≥ 4)
  PairTraits.addLargeItems
    (kingPawnShield traits features.kingPawn inverted shieldMask1 shieldMask2)
    (kingPawnStorm traits features.kingPawn inverted stormMask2 stormMask3)

def evalKingSafety (b : Board) (stage : Int) (c : Color) : Option S :=
  let result := ScoreType.zero
  let result := addWithCoef traits result features.queenNearToKing (nearCount b c .queen)
  let result := addWithCoef traits result features.rookNearToKing (nearCount b c .rook)
  if b.bbPieces (makeCell c .king) &&& bbShieldedKing c ≠ 0 then
    (kingPawnResult traits features b c).map fun pair =>
      ScoreType.add result (ScoreType.mix pair stage)
  else some result

def evalMaterial (b : Board) (c : Color) : S :=
  let result := ScoreType.zero
  if popcount (b.bbPieces (makeCell c .bishop)) ≥ 2 then
    ScoreType.add result (traits.number features.twoBishops)
  else result

def evalOpenLines (b : Board) (pawnValue : PawnCacheValue S) (c : Color) : S :=
  let bbOpenCols := byteScatter pawnValue.bbOpenCols
  let bbSemiOpenCols := byteScatter
    (if c = .white then pawnValue.bbBlackOnlyCols else pawnValue.bbWhiteOnlyCols)
  let bbRooks := b.bbPieces (makeCell c .rook)
  let bbQueens := b.bbPieces (makeCell c .queen)
  let result := ScoreType.zero
  let result := addWithCoef traits result features.rookOpenCol (popcount (bbOpenCols &&& bbRooks))
  let result :=
    addWithCoef traits result features.rookSemiOpenCol (popcount (bbSemiOpenCols &&& bbRooks))
  let result := addWithCoef traits result features.queenOpenCol (popcount (bbOpenCols &&& bbQueens))
  addWithCoef traits result features.queenSemiOpenCol (popcount (bbSemiOpenCols &&& bbQueens))

def calcPawnHash (b : Board) : BitVec 64 :=
  hash16 (b.bbPieces (makeCell .white .pawn)) (b.bbPieces (makeCell .black .pawn))

/-- `Impl::evalForWhite`, where `get` is that of the pawn cache; it leaves a cache of type `C`. -/
def evalForWhite {C : Type} (get : BitVec 64 → (Unit → PawnCacheValue S) → PawnCacheValue S × C)
    (b : Board) (tag : Tag P) : Option (S × C) := do
  let stage := calcStage tag.stage
  let result := ScoreType.mix tag.psqCost stage
  let pawnHash := calcPawnHash b
  let result := ScoreType.addDiff result (← evalKingSafety traits features b stage .white)
    (← evalKingSafety traits features b stage .black)
  let result := ScoreType.addDiff result (evalMaterial traits features b .white)
    (evalMaterial traits features b .black)
  let found := get pawnHash fun _ => evalPawns traits features b
  let pawnValue := found.1
  let result := ScoreType.add result pawnValue.score
  let result := ScoreType.addDiff result (evalOpenLines traits features b pawnValue .white)
    (evalOpenLines traits features b pawnValue .black)
  return (result, found.2)

/-- The same, from the value that the cache has for the pawns. -/
def evalWith (b : Board) (tag : Tag P) (pawnValue : PawnCacheValue S) : Option S := do
  let stage := calcStage tag.stage
  let result := ScoreType.mix tag.psqCost stage
  let result := ScoreType.addDiff result (← evalKingSafety traits features b stage .white)
    (← evalKingSafety traits features b stage .black)
  let result := ScoreType.addDiff result (evalMaterial traits features b .white)
    (evalMaterial traits features b .black)
  let result := ScoreType.add result pawnValue.score
  return ScoreType.addDiff result (evalOpenLines traits features b pawnValue .white)
    (evalOpenLines traits features b pawnValue .black)

variable {C : Type} {get : BitVec 64 → (Unit → PawnCacheValue S) → PawnCacheValue S × C} {b : Board}
  {tag : Tag P}

theorem evalForWhite_eq : evalForWhite traits features get b tag =
    (evalWith traits features b tag
      (get (calcPawnHash b) fun _ => evalPawns traits features b).1).map fun score =>
        (score, (get (calcPawnHash b) fun _ => evalPawns traits features b).2) := by
  unfold evalForWhite evalWith
  dsimp only
  cases evalKingSafety traits features b (calcStage tag.stage) .white with
  | none => rfl
  | some white =>
    cases evalKingSafety traits features b (calcStage tag.stage) .black with
    | none => rfl
    | some black => rfl

end Impl

end SoFCheck.Eval.Impl
