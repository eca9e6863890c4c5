import SoFCheck.Core.LegalMoves
import SoFCheck.Search.Tables

namespace SoFCheck.Search.Pickers

open SoFCheck.Core.Types SoFCheck.Core.BoardState SoFCheck.Core.Moves SoFCheck.Core.Movegen
open SoFCheck.Search.Tables

/-- `std::sort` by falling keys. The order of moves with equal keys is not
specified. -/
structure Sorter where
  sort : (Move → Nat) → List Move → List Move
  perm : ∀ key moves, (sort key moves).Perm moves
  sorted : ∀ key moves, (sort key moves).Pairwise fun m m' => key m' ≤ key m

/-- `std::shuffle`. -/
structure Shuffler where
  shuffle : List Move → List Move
  perm : ∀ moves, (shuffle moves).Perm moves

/-- Sorting by inserting, which keeps the order of equal keys. -/
def Sorter.inserting : Sorter where
  sort key moves := moves.insertionSort fun m m' => key m' ≤ key m
  perm key moves := List.perm_insertionSort _ _
  sorted key moves := by
    have : Std.Total (fun m m' : Move => key m' ≤ key m) := ⟨fun m m' => Nat.le_total (key m') (key m)⟩
    have : IsTrans Move (fun m m' => key m' ≤ key m) := ⟨fun _ _ _ h h' => h'.trans h⟩
    exact List.pairwise_insertionSort _ moves

inductive MovePickerStage where
  | start
  | hashMove
  | capture
  | simplePromote
  | killer
  | history
  | finished
  deriving DecidableEq

def MovePickerStage.toNat : MovePickerStage → Nat
  | .start => 0
  | .hashMove => 1
  | .capture => 2
  | .simplePromote => 3
  | .killer => 4
  | .history => 5
  | .finished => 6

def MovePickerStage.next : MovePickerStage → MovePickerStage
  | .start => .hashMove
  | .hashMove => .capture
  | .capture => .simplePromote
  | .simplePromote => .killer
  | .killer => .history
  | .history | .finished => .finished

def victimOrd (cell : Cell) : BitVec 8 :=
  [8, 8, 0, 16, 24, 32, 40, 0, 8, 8, 0, 16, 24, 32, 40, 0].getD cell.toBitVec.toNat 0

def attackerOrd (cell : Cell) : BitVec 8 :=
  [0, 6, 1, 5, 4, 3, 2, 0, 0, 6, 1, 5, 4, 3, 2, 0].getD cell.toBitVec.toNat 0

/-- Captures of strong pieces by weak ones come first. -/
def sortMvvLva (S : Sorter) (board : Board) (moves : List Move) : List Move :=
  let tagged := moves.map fun move =>
    { move with
      tag := victimOrd (board.cells (toSquare move.dst)) +
        attackerOrd (board.cells (toSquare move.src)) }
  (S.sort (fun move => move.tag.toNat) tagged).map fun move => { move with tag := 0 }

def sortSimplePromotes (S : Sorter) (moves : List Move) : List Move :=
  S.sort (fun move => move.kind.toNat) moves

/-- Iterates over the moves of a position; `moves` are those of the current stage
that are not returned yet. -/
structure MovePicker where
  stage : MovePickerStage
  hashMove : Move
  gen : MoveGen
  moves : List Move
  savedKillers : Move × Move

/-- The moves of the root, all of them collected in advance; `moves` are those not
returned yet. -/
structure RootNodeMovePicker where
  moves : List Move

/-- Iterates over the moves of the quiescence search. -/
structure QuiescenseMovePicker where
  gen : MoveGen
  moves : List Move
  /-- The stage of the captures. -/
  captures : Bool

section Model

variable [Globals] (S : Sorter)

def isValidKiller (board : Board) (move : Move) : Bool :=
  !isMoveCapture board move && !isMoveKindPromote move.kind && isMoveValid board move

namespace MovePicker

def create (board : Board) (hashMove : Move) : MovePicker where
  stage := .start
  hashMove := hashMove
  gen := mkMoveGen board
  moves := []
  savedKillers := (Move.null, Move.null)

variable (killers : KillerLine) (history : HistoryTable)

/-- The moves of a stage that has just been entered. -/
def fill (p : MovePicker) : MovePicker :=
  match p.stage with
  | .start => p
  | .hashMove => { p with moves := if p.hashMove ≠ Move.null then [p.hashMove] else [] }
  | .capture => { p with moves := sortMvvLva S p.gen.b p.gen.genCaptures }
  | .simplePromote => { p with moves := sortSimplePromotes S p.gen.genSimplePromotes }
  | .killer =>
    { p with
      moves := [killers.first, killers.second].filter (isValidKiller p.gen.b)
      savedKillers := (killers.first, killers.second) }
  | .history =>
    { p with
      moves := (S.sort (fun move => (history.get move).toNat) p.gen.genSimpleMovesNoPromote).map
        fun move =>
          if move = p.savedKillers.1 ∨ move = p.savedKillers.2 then Move.null else move }
  | .finished => { p with moves := [Move.invalid] }

/-- The loop of `nextStage`, which ends at the last of the six stages. -/
def nextStage : (turns : Nat) → MovePicker → MovePicker
  | 0, p => p
  | turns + 1, p =>
    let p := fill S killers history { p with stage := p.stage.next, moves := [] }
    if p.moves = [] then nextStage turns p else p

def next (p : MovePicker) : Move × MovePicker :=
  let p := if p.moves = [] then nextStage S killers history 6 p else p
  match p.moves with
  | [] => (Move.invalid, p)
  | move :: moves =>
    (if p.stage ≠ .hashMove ∧ move = p.hashMove then Move.null else move, { p with moves := moves })

omit [Globals] in
/-- The stages to come, and the moves left in the current one. -/
def size (p : MovePicker) : Nat ×ₗ Nat := toLex (6 - p.stage.toNat, p.moves.length)

/-- The moves that a loop over the picker does not skip. A loop that goes round in
a circle has no result. -/
def drain (p : MovePicker) : Option (List Move) :=
  let out := next S killers history p
  if out.1 = Move.invalid then some []
  else if size out.2 < size p then
    (drain out.2).map fun moves => if out.1 = Move.null then moves else out.1 :: moves
  else none
termination_by size p
decreasing_by
  rename_i h
  exact h

end MovePicker

namespace RootNodeMovePicker

omit [Globals] in
/-- Each job looks at the moves in an order of its own. -/
def arrange (D : Shuffler) (jobId : Nat) (moves : List Move) : List Move :=
  if jobId = 0 then moves
  else if jobId < moves.length then (moves.take (jobId + 1)).reverse ++ moves.drop (jobId + 1)
  else D.shuffle moves

def create (D : Shuffler) (killers : KillerLine) (history : HistoryTable) (picker : MovePicker)
    (jobId : Nat) : Option RootNodeMovePicker :=
  (picker.drain S killers history).map fun moves => ⟨arrange D jobId moves⟩

omit [Globals] in
def next (p : RootNodeMovePicker) : Move × RootNodeMovePicker :=
  match p.moves with
  | [] => (Move.invalid, p)
  | move :: moves => (move, ⟨moves⟩)

end RootNodeMovePicker

namespace QuiescenseMovePicker

def create (board : Board) : QuiescenseMovePicker where
  gen := mkMoveGen board
  moves := sortMvvLva S board (mkMoveGen board).genCaptures
  captures := true

omit [Globals] in
def addSimplePromotes (p : QuiescenseMovePicker) : QuiescenseMovePicker :=
  { p with moves := sortSimplePromotes S p.gen.genSimplePromotes }

omit [Globals] in
def next (p : QuiescenseMovePicker) : Move × QuiescenseMovePicker :=
  let p := if p.moves = [] ∧ p.captures then addSimplePromotes S { p with captures := false } else p
  match p.moves with
  | [] => (Move.invalid, p)
  | move :: moves => (move, { p with moves := moves })

end QuiescenseMovePicker

end Model

end SoFCheck.Search.Pickers
