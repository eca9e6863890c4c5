import SoFCheck.Core.Geometry

namespace SoFCheck.Core.NearAttacks

open SoFCheck.Util.Bits SoFCheck.Core.Types SoFCheck.Core.Grid SoFCheck.Core.Geometry

/-- One entry of a generated table: the cells one step away from `c`. -/
def generateDirected (offs : List Dir) (c : Square) : Bitboard :=
  offs.foldl (fun bb d =>
    match offset d c with
    | some s => bb ||| coordToBitboard s
    | none => bb) 0

def knightOffsets : List Dir :=
  [(-2, -1), (-2, 1), (-1, -2), (-1, 2), (2, -1), (2, 1), (1, -2), (1, 2)]

def kingOffsets : List Dir :=
  [(-1, -1), (-1, 0), (-1, 1), (0, -1), (0, 1), (1, -1), (1, 0), (1, 1)]

def pawnOffsets (c : Color) : List Dir := [(forward c, -1), (forward c, 1)]

def knightAttacks : Square → Bitboard := generateDirected knightOffsets
def kingAttacks : Square → Bitboard := generateDirected kingOffsets
def whitePawnAttacks : Square → Bitboard := generateDirected (pawnOffsets .white)
def blackPawnAttacks : Square → Bitboard := generateDirected (pawnOffsets .black)

theorem hasBit_foldl_offset (offs : List Dir) (c t : Square) (bb : Bitboard) :
    hasBit (offs.foldl (fun bb d =>
      match offset d c with
      | some s => bb ||| coordToBitboard s
      | none => bb) bb) t = true ↔ hasBit bb t = true ∨ ∃ d ∈ offs, offset d c = some t := by
  induction offs generalizing bb with
  | nil => simp
  | cons d offs ih =>
    rw [List.foldl_cons, ih]
    cases ho : offset d c with
    | none => simp [ho]
    | some s => simp [ho, coordToBitboard, or_assoc]

theorem hasBit_generateDirected {offs : List Dir} {c t : Square} :
    hasBit (generateDirected offs c) t = true ↔ ∃ d ∈ offs, offset d c = some t := by
  rw [generateDirected, hasBit_foldl_offset]
  simp

end SoFCheck.Core.NearAttacks
