import SoFCheck.Core.Geometry

namespace SoFCheck.Eval.Bitboard

open SoFCheck.Util.Bits SoFCheck.Core.Types SoFCheck.Core.Grid SoFCheck.Core.Geometry

/-- The loop over `j` that adds the cells which are not skipped. -/
def collect (keep : Square → Bool) : Bitboard :=
  (List.finRange 64).foldl (fun bb j => if keep j then bb ||| coordToBitboard j else bb) 0

def absDiff (a b : Nat) : Nat := if a < b then b - a else a - b

/-- `BB_KING_METRIC_RING[i][distance]` -/
def kingMetricRing (i : Square) (distance : Nat) : Bitboard :=
  collect fun j => max (absDiff (row i) (row j)) (absDiff (col i) (col j)) == distance

def doublePawn (i : Square) : Bitboard := bbCol (Fin.ofNat 8 (col i)) ^^^ coordToBitboard i

def isolatedPawn (i : Square) : Bitboard :=
  let y := col i
  let result : Bitboard := if y ≠ 0 then bbCol (Fin.ofNat 8 (y - 1)) else 0
  if y ≠ 7 then result ||| bbCol (Fin.ofNat 8 (y + 1)) else result

inductive PassedPawnKind where
  | passed
  | openFile
  deriving DecidableEq

/-- The cells in front of a pawn. -/
def inFront (c : Color) (i j : Square) : Bool :=
  (c = .white && row i > row j) || (c = .black && row i < row j)

def passedOrOpenPawns (c : Color) (kind : PassedPawnKind) (i : Square) : Bitboard :=
  collect fun j =>
    let yi := col i
    let yj := col j
    !((kind = .passed && yi ≠ yj && yi + 1 ≠ yj && yi ≠ yj + 1) || (kind = .openFile && yi ≠ yj)) &&
      inFront c i j

def attackFrontspans (c : Color) (i : Square) : Bitboard :=
  collect fun j =>
    let yi := col i
    let yj := col j
    !(yi + 1 ≠ yj && yi ≠ yj + 1) && inFront c i j

def bbPassedPawn (c : Color) : Square → Bitboard := passedOrOpenPawns c .passed

def bbOpenPawn (c : Color) : Square → Bitboard := passedOrOpenPawns c .openFile

def whiteShieldedKing : Bitboard := 0xc300000000000000

def blackShieldedKing : Bitboard := 0x00000000000000c3

theorem hasBit_foldl_collect (keep : Square → Bool) (l : List Square) (bb : Bitboard) (s : Square) :
    hasBit (l.foldl (fun bb j => if keep j then bb ||| coordToBitboard j else bb) bb) s =
      (hasBit bb s || (decide (s ∈ l) && keep s)) := by
  induction l generalizing bb with
  | nil => simp
  | cons j l ih =>
    rw [List.foldl_cons, ih]
    by_cases hj : s = j
    · subst hj
      cases keep s <;> simp [coordToBitboard]
    · have hj' : j ≠ s := fun h => hj h.symm
      cases hk : keep j <;> simp [coordToBitboard, hj, hj']

@[simp] theorem hasBit_collect (keep : Square → Bool) (s : Square) :
    hasBit (collect keep) s = keep s := by
  rw [collect, hasBit_foldl_collect]
  simp

end SoFCheck.Eval.Bitboard
