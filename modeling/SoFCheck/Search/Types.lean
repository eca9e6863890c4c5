import SoFCheck.Core.MoveMake

namespace SoFCheck.Search.Types

open SoFCheck.Core.Moves SoFCheck.Core.BoardState SoFCheck.Core.MoveMake

/-- A position with the moves that led to it. -/
structure Position where
  first : Board
  moves : List Move
  last : Board

/-- `Position::from`. -/
def Position.fromMoves [Globals] (first : Board) (moves : List Move) : Position :=
  ⟨first, moves, moves.foldl (fun b move => (moveMake b move).1) first⟩

def commonMoves : List Move → List Move → Nat
  | m :: ms, m' :: ms' => if m ≠ m' then 0 else commonMoves ms ms' + 1
  | _, _ => 0

/-- The number of common first moves; there is none if the first boards differ. -/
def commonPrefix (p1 p2 : Position) : Option Nat :=
  if sameBoard p1.first p2.first then some (commonMoves p1.moves p2.moves) else none

end SoFCheck.Search.Types
