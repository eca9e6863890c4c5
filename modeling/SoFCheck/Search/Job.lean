import SoFCheck.Search.Pickers
import SoFCheck.Search.TableData
import SoFCheck.Util.Imperative

namespace SoFCheck.Search.Job

open SoFCheck.Util.Imperative SoFCheck.Util.Imperative.Program
open SoFCheck.Core.Types SoFCheck.Core.BoardState SoFCheck.Core.Moves SoFCheck.Core.Attack
open SoFCheck.Core.Validate SoFCheck.Core.MoveMake SoFCheck.Core.Movegen SoFCheck.Eval.Score
open SoFCheck.Search.Tables SoFCheck.Search.Pickers SoFCheck.Search.TableData

def maxDepth : Nat := 255

def maxStackDepth : Nat := maxDepth + 10

namespace NullMove

def minDepth : Int := 5

def depthDec : Int := 3

def reductionDec : Int := 4

end NullMove

namespace Futility

def maxDepth : Int := 4

def margins (depth : Int) : Int := [0, 50, 150, 250, 350].getD depth.toNat 0

end Futility

namespace Razoring

def maxDepth : Int := 4

def margins (depth : Int) : Int := [0, 100, 200, 300, 400].getD depth.toNat 0

end Razoring

namespace LateMove

def minDepth : Int := 3

def reduceDepth : Int := 1

def movesNoReduce : Nat := 2

end LateMove

/-- The evaluator. What a tag says about the board is kept up to date with each
move. -/
class Evaluator where
  Tag : Type
  ofBoard : Board → Tag
  updated : Tag → Board → Move → Tag

inductive NodeKind where
  | root
  | pv
  | simple
  deriving DecidableEq

def NodeKind.isPv : NodeKind → Bool
  | .root | .pv => true
  | .simple => false

abbrev Flags := BitVec 64

namespace Flags

def none : Flags := 0

def capture : Flags := 1

def nullMove : Flags := 2

def nullMoveReduction : Flags := 4

def lateMoveReduction : Flags := 8

def default : Flags := 0

def inherit : Flags := nullMove ||| nullMoveReduction ||| lateMoveReduction

def nullMoveDisable : Flags := nullMove ||| nullMoveReduction ||| capture

end Flags

variable [Evaluator]

/-- What a search asks of the things that other threads use as well: of the job
communicator, of the transposition table (under the hash of a board) and of the
evaluator. -/
inductive Question where
  | isStopped
  | checkTimeout
  | depth
  | load (board : Board)
  | isCurrentEpoch (data : Data)
  | store (board : Board) (data : Data)
  | evalForCur (board : Board) (tag : Evaluator.Tag)
  /-- A note of the model: the score of a subtree is used from here on. -/
  | useScore

abbrev Answer : Question → Type
  | .isStopped | .checkTimeout => Bool
  | .depth => Nat
  | .load _ => Data
  | .isCurrentEpoch _ => Bool
  | .store _ _ | .useScore => Unit
  | .evalForCur _ _ => Int

structure Frame where
  killers : KillerLine
  bestMove : Move

structure Searcher where
  board : Board
  repetitions : RepetitionTable
  stack : Nat → Frame
  history : HistoryTable
  depth : Nat
  counter : BitVec 64

omit [Evaluator] in
def Searcher.setFrame (s : Searcher) (idepth : Nat) (frame : Frame) : Searcher :=
  { s with stack := Function.update s.stack idepth frame }

omit [Evaluator] in
def Searcher.setBestMove (s : Searcher) (idepth : Nat) (move : Move) : Searcher :=
  s.setFrame idepth { s.stack idepth with bestMove := move }

/-- A job is new to the search: nothing is in the tables yet. -/
def Searcher.create (board : Board) (repetitions : RepetitionTable) : Searcher where
  board := board
  repetitions := repetitions
  stack := fun _ => ⟨KillerLine.empty, Move.null⟩
  history := HistoryTable.empty
  depth := 0
  counter := 0

/-- A part of the function that returns a `ρ`. -/
abbrev Part (ρ α : Type) : Type := Program Answer Searcher ρ α

abbrev query {ρ : Type} (q : Question) : Part ρ (Answer q) := ask q

section Stopping

variable {ρ : Type}

def mustStop : Part ρ Bool := do
  let stopped ← query .isStopped
  if stopped then pure true
  else
    modify fun s => { s with counter := s.counter + 1 }
    let counter ← gets Searcher.counter
    if counter &&& 1023 = 0 then query .checkTimeout
    else
      let depth ← query .depth
      let own ← gets Searcher.depth
      pure (decide (depth ≠ own))

/-- `if (mustStop()) return value;` -/
def returnIfStopped (value : ρ) : Part ρ Unit := do
  let stop ← mustStop
  if stop then earlyReturn value else pure ()

end Stopping

variable [Globals]

/-- The scope of a `MoveMakeGuard`. -/
def withMove {ρ α : Type} (move : Move) (tag : Evaluator.Tag) (body : Evaluator.Tag → Part ρ α) :
    Part ρ α := do
  let board ← gets Searcher.board
  guarded
    (fun s => ((moveMake s.board move).2, { s with board := (moveMake s.board move).1 }))
    (fun p s => { s with board := moveUnmake s.board move p })
    (body (Evaluator.updated tag board move))

/-- More turns than a picker has moves. -/
def pickerTurns : Nat := 1024

section Quiescence

variable (S : Sorter)

omit [Evaluator] in
def nextOfQuiescence (_ : Searcher) (p : QuiescenseMovePicker) : Option (Move × QuiescenseMovePicker) :=
  let out := QuiescenseMovePicker.next S p
  if out.1 = Move.invalid then none else some out

/-- The scope of the guard of a move. -/
def quiescenseMove (recurse : Int → Int → Evaluator.Tag → Part Int Int) (alpha beta : Int)
    (tag : Evaluator.Tag) : Part Int (Option Int) := do
  let board ← gets Searcher.board
  if wasMoveLegal board then
    let score ← call (recurse (toScore (-beta)) (toScore (-alpha)) tag)
    returnIfStopped 0
    pure (some (toScore (-score)))
  else pure none

/-- One turn of the loop of `quiescenseSearch`. -/
def quiescenseTurn (recurse : Int → Int → Evaluator.Tag → Part Int Int) (beta : Int)
    (tag : Evaluator.Tag) (move : Move) (_ : QuiescenseMovePicker) (alpha : Int) : Part Int Int := do
  if move = Move.null then pure alpha
  else
    let found ← withMove move tag (quiescenseMove recurse alpha beta)
    match found with
    | none => pure alpha
    | some score =>
      query .useScore
      let alpha := max alpha score
      if alpha ≥ beta then earlyReturn beta else pure alpha

/-- Each capture or promotion takes something off the board, so that `levels` is
not exceeded. -/
def quiescenseSearch : (levels : Nat) → (alpha beta : Int) → Evaluator.Tag → Part Int Int
  | 0, _, _, _ => stuck
  | levels + 1, alpha, beta, tag => do
    let board ← gets Searcher.board
    if isBoardDrawInsufficientMaterial board then pure 0
    else
      let evalScore ← query (.evalForCur board tag)
      let alpha := max alpha evalScore
      if alpha ≥ beta then pure beta
      else
        forLoop (nextOfQuiescence S) (quiescenseTurn (quiescenseSearch levels) beta tag) pickerTurns
          (QuiescenseMovePicker.create S board) alpha

def quiescenseLevels : Nat := 128

end Quiescence

section Node

/-- The kinds of move pickers that `MovePickerFactory` makes. -/
inductive NodePicker where
  | root (picker : RootNodeMovePicker)
  | inner (picker : MovePicker)

omit [Evaluator] [Globals] in
/-- There is no stage to ask for at the root. -/
def NodePicker.stage : NodePicker → MovePickerStage
  | .root _ => .start
  | .inner picker => picker.stage

variable (S : Sorter) (D : Shuffler) (jobId : Nat)

omit [Evaluator] in
def createPicker (node : NodeKind) (idepth : Nat) (hashMove : Move) (s : Searcher) :
    Option (NodePicker × Searcher) :=
  let picker := MovePicker.create s.board hashMove
  if node = .root then
    (RootNodeMovePicker.create S D (s.stack idepth).killers s.history picker jobId).map fun picker =>
      (.root picker, s)
  else some (.inner picker, s)

omit [Evaluator] in
def nextOfPicker (idepth : Nat) (s : Searcher) : NodePicker → Option (Move × NodePicker)
  | .root picker =>
    let out := picker.next
    if out.1 = Move.invalid then none else some (out.1, .root out.2)
  | .inner picker =>
    let out := MovePicker.next S (s.stack idepth).killers s.history picker
    if out.1 = Move.invalid then none else some (out.1, .inner out.2)

/-- The recursive call of a node. -/
abbrev Recurse := NodeKind → (depth : Int) → (idepth : Nat) → (alpha beta : Int) → Evaluator.Tag →
  Flags → Part Int Int

/-- The bound and the score that the transposition table is to keep. -/
def boundedScore (origAlpha origBeta score : Int) : PositionCostBound × Int :=
  let out := if score ≤ origAlpha then (PositionCostBound.upperbound, origAlpha)
    else (PositionCostBound.exact, score)
  if out.2 ≥ origBeta then (.lowerbound, origBeta) else out

omit [Globals] in
def ttStore (origAlpha origBeta depth : Int) (idepth : Nat) (score : Int) : Part Int Unit := do
  let out := boundedScore origAlpha origBeta score
  let bestMove ← gets fun s => (s.stack idepth).bestMove
  if bestMove ≠ Move.null then
    let board ← gets Searcher.board
    query (.store board (Data.of bestMove (adjustCheckmate out.2 (-idepth)) depth out.1))
  else pure ()

omit [Globals] in
def allowCutoff (node : NodeKind) (depth : Int) (board : Board) (data : Data) : Part Int Bool :=
  if node ≠ .root ∧ data.depth ≥ depth ∧ board.moveCounter < 90 then
    if node.isPv then query (.isCurrentEpoch data) else pure true
  else pure false

/-- Whether the score of an entry is enough to leave a node. -/
def isCutoff (data : Data) (alpha beta score : Int) : Bool :=
  decide (data.bound = PositionCostBound.exact.toBits ∨
    (data.bound = PositionCostBound.lowerbound.toBits ∧ score ≥ beta) ∨
    (data.bound = PositionCostBound.upperbound.toBits ∧ alpha ≥ score))

omit [Globals] in
/-- Probe the transposition table. -/
def probe (node : NodeKind) (depth : Int) (idepth : Nat) (alpha beta : Int) : Part Int Move := do
  let board ← gets Searcher.board
  let data ← query (.load board)
  if data.isValid then
    let allow ← allowCutoff node depth board data
    let score := adjustCheckmate data.score idepth
    if allow && isCutoff data alpha beta score then
      modify fun s => s.setBestMove idepth data.move
      earlyReturn score
    else pure data.move
  else pure Move.null

omit [Globals] in
/-- The evaluation of a node is only computed when it is needed. -/
def getEvalScore (tag : Evaluator.Tag) : Option Int → Part Int Int
  | some score => pure score
  | none => do
    let board ← gets Searcher.board
    query (.evalForCur board tag)

omit [Globals] in
def futility (depth beta : Int) (tag : Evaluator.Tag) : Part Int (Option Int) := do
  if depth ≤ Futility.maxDepth then
    let evalScore ← getEvalScore tag none
    if evalScore ≥ toScore (beta + Futility.margins depth) then earlyReturn beta
    else pure (some evalScore)
  else pure none

def razoring (depth alpha : Int) (tag : Evaluator.Tag) (evalScore : Option Int) : Part Int Unit := do
  if depth ≤ Razoring.maxDepth then
    let threshold := toScore (alpha - Razoring.margins depth)
    let evalScore ← getEvalScore tag evalScore
    if evalScore ≤ threshold then
      let score ← call (quiescenseSearch S quiescenseLevels threshold (toScore (threshold + 1)) tag)
      if score ≤ threshold then earlyReturn alpha else pure ()
    else pure ()
  else pure ()

/-- The scope of the guard of the null move. -/
def searchNullMove (search : Recurse) (depth : Int) (idepth : Nat) (beta : Int) (flags : Flags)
    (tag : Evaluator.Tag) : Part Int Int := do
  let score ← call (search .simple (depth - NullMove.depthDec) (idepth + 1) (toScore (-beta))
    (toScore (-beta + 1)) tag ((flags &&& Flags.inherit) ||| Flags.nullMove))
  returnIfStopped 0
  pure (toScore (-score))

/-- Null move heuristics, which may reduce the depth. -/
def nullMoveReduction (search : Recurse) (depth : Int) (idepth : Nat) (beta : Int)
    (tag : Evaluator.Tag) (flags : Flags) : Part Int (Int × Flags) := do
  let score ← withMove Move.null tag (searchNullMove search depth idepth beta flags)
  if score ≥ beta then pure (depth - NullMove.reductionDec, flags ||| Flags.nullMoveReduction)
  else pure (depth, flags)

/-- The local variables of the loop over the moves of a node. -/
structure Locals where
  alpha : Int
  hasMove : Bool
  numHistoryMoves : Nat

/-- Late move reduction tells whether the move is not worth a full search. -/
def lateMoveReduction (lmrEnabled : Bool) (search : Recurse) (depth : Int) (idepth : Nat) (alpha : Int)
    (tag : Evaluator.Tag) (newFlags : Flags) : Part Int Bool :=
  if lmrEnabled then do
    let score ← call (search .simple (depth - 1 - LateMove.reduceDepth) (idepth + 1)
      (toScore (-alpha - 1)) (toScore (-alpha)) tag (newFlags ||| Flags.lateMoveReduction))
    returnIfStopped 0
    pure (decide (toScore (-score) ≤ alpha))
  else pure false

/-- Search with zero window, in a PV node after its first move. -/
def zeroWindowSearch (search : Recurse) (depth : Int) (idepth : Nat) (alpha : Int)
    (tag : Evaluator.Tag) (newFlags : Flags) : Part Int Int := do
  let score ← call (search .simple (depth - 1) (idepth + 1) (toScore (-alpha - 1)) (toScore (-alpha))
    tag newFlags)
  returnIfStopped 0
  pure (if toScore (-score) ≤ alpha then alpha else toScore (alpha + 1))

/-- Search with full window. -/
def fullWindowSearch (search : Recurse) (node : NodeKind) (depth : Int) (idepth : Nat)
    (alpha beta : Int) (tag : Evaluator.Tag) (newFlags : Flags) : Part Int Int := do
  let newNode := if node.isPv then NodeKind.pv else NodeKind.simple
  let score ← call (search newNode (depth - 1) (idepth + 1) (toScore (-beta)) (toScore (-alpha))
    tag newFlags)
  returnIfStopped 0
  pure (toScore (-score))

/-- PV search. If alpha has improved with zero window, then we search again. -/
def pvSearch (search : Recurse) (node : NodeKind) (depth : Int) (idepth : Nat) (alpha beta : Int)
    (tag : Evaluator.Tag) (newFlags : Flags) (isFirstMove : Bool) : Part Int Int :=
  if node.isPv && !isFirstMove then do
    let score ← zeroWindowSearch search depth idepth alpha tag newFlags
    if alpha < score ∧ (node = .root ∨ score < beta) then
      fullWindowSearch search node depth idepth alpha beta tag newFlags
    else pure score
  else fullWindowSearch search node depth idepth alpha beta tag newFlags

/-- What the scope of a move leads to. -/
inductive MoveResult where
  | illegal
  | reduced (numHistoryMoves : Nat)
  | searched (score : Int) (numHistoryMoves : Nat)

/-- The scope of the guard of a move. -/
def searchMove (search : Recurse) (node : NodeKind) (depth : Int) (idepth : Nat) (beta : Int)
    (flags : Flags) (move : Move) (stage : MovePickerStage) (l : Locals) (tag : Evaluator.Tag) :
    Part Int MoveResult := do
  let board ← gets Searcher.board
  if wasMoveLegal board then
    let numHistoryMoves :=
      if node ≠ .root ∧ stage = .history then l.numHistoryMoves + 1 else l.numHistoryMoves
    let newFlags := (flags &&& Flags.inherit) |||
      (if isMoveCapture board move then Flags.capture else Flags.none)
    let lmrEnabled := decide (node ≠ .root ∧ l.hasMove = true ∧ node.isPv = false ∧
      depth ≥ LateMove.minDepth ∧ stage = .history ∧ numHistoryMoves > LateMove.movesNoReduce ∧
      isCheck board = false)
    let isReduced ← lateMoveReduction lmrEnabled search depth idepth l.alpha tag newFlags
    if isReduced then pure (.reduced numHistoryMoves)
    else
      let score ← pvSearch search node depth idepth l.alpha beta tag newFlags (!l.hasMove)
      pure (.searched score numHistoryMoves)
  else pure .illegal

omit [Evaluator] [Globals] in
/-- A move that refutes the node is remembered. -/
def Searcher.addKiller (s : Searcher) (idepth : Nat) (move : Move) (depth : Int) : Searcher :=
  { s.setFrame idepth { s.stack idepth with killers := (s.stack idepth).killers.add move } with
    history := s.history.add move (BitVec.ofInt 64 (depth * depth)) }

omit [Globals] in
/-- A move was searched: it may be the best one, and it may refute the node. -/
def takeScore (node : NodeKind) (depth : Int) (idepth : Nat) (origAlpha beta : Int) (move : Move)
    (stage : MovePickerStage) (l : Locals) (score : Int) (numHistoryMoves : Nat) :
    Part Int Locals := do
  query .useScore
  modify fun s => if score > l.alpha then s.setBestMove idepth move else s
  let alpha := if score > l.alpha then score else l.alpha
  if alpha ≥ beta then
    modify fun s =>
      if node ≠ .root ∧ stage.toNat ≥ MovePickerStage.killer.toNat then s.addKiller idepth move depth
      else s
    ttStore origAlpha beta depth idepth beta
    earlyReturn beta
  else pure ⟨alpha, true, numHistoryMoves⟩

/-- One turn of the loop over the moves of a node. -/
def nodeTurn (search : Recurse) (node : NodeKind) (depth : Int) (idepth : Nat)
    (origAlpha beta : Int) (tag : Evaluator.Tag) (flags : Flags) (move : Move) (picker : NodePicker)
    (l : Locals) : Part Int Locals := do
  if move = Move.null then pure l
  else
    let result ← withMove move tag
      (searchMove search node depth idepth beta flags move picker.stage l)
    match result with
    | .illegal => pure l
    | .reduced numHistoryMoves => pure { l with hasMove := true, numHistoryMoves := numHistoryMoves }
    | .searched score numHistoryMoves =>
      takeScore node depth idepth origAlpha beta move picker.stage l score numHistoryMoves

/-- The search at the leaves. -/
def leafSearch (alpha beta : Int) (tag : Evaluator.Tag) : Part Int Int :=
  if alpha ≥ scoreCheckmateThreshold then pure alpha
  else if beta ≤ -scoreCheckmateThreshold then pure beta
  else call (quiescenseSearch S quiescenseLevels alpha beta tag)

/-- Futility pruning, razoring and the null move heuristics. -/
def prune (search : Recurse) (node : NodeKind) (depth : Int) (idepth : Nat) (alpha beta : Int)
    (tag : Evaluator.Tag) (flags : Flags) (isInCheck : Bool) : Part Int (Int × Flags) := do
  let isMateBounds :=
    decide (alpha ≤ -scoreCheckmateThreshold) || decide (beta ≥ scoreCheckmateThreshold)
  if !node.isPv && !isInCheck && !isMateBounds then
    let evalScore ← futility depth beta tag
    razoring S depth alpha tag evalScore
    if depth ≥ NullMove.minDepth ∧ flags &&& Flags.nullMoveDisable = Flags.none then
      nullMoveReduction search depth idepth beta tag flags
    else pure (depth, flags)
  else pure (depth, flags)

/-- The loop over the moves of a node, and the end of its search. -/
def searchMoves (search : Recurse) (node : NodeKind) (depth : Int) (idepth : Nat) (alpha beta : Int)
    (tag : Evaluator.Tag) (flags : Flags) (hashMove : Move) (isInCheck : Bool) : Part Int Int := do
  let picker ← tryModify (createPicker S D jobId node idepth hashMove)
  let l ← forLoop (nextOfPicker S idepth)
    (nodeTurn search node depth idepth alpha beta tag flags) pickerTurns picker ⟨alpha, false, 0⟩
  if l.hasMove then
    ttStore alpha beta depth idepth l.alpha
    pure l.alpha
  else pure (if isInCheck then scoreCheckmateLose idepth else 0)

def doSearch (search : Recurse) (node : NodeKind) (depth : Int) (idepth : Nat) (alpha beta : Int)
    (tag : Evaluator.Tag) (flags : Flags) : Part Int Int := do
  modify fun s => s.setBestMove idepth Move.null
  let board ← gets Searcher.board
  if node ≠ .root ∧ (board.moveCounter ≥ 100 ∨ isBoardDrawInsufficientMaterial board = true) then
    pure 0
  else if depth ≤ 0 ∨ idepth + 1 = maxStackDepth then leafSearch S alpha beta tag
  else
    let hashMove ← probe node depth idepth alpha beta
    let isInCheck := isCheck board
    let (depth, flags) ← prune S search node depth idepth alpha beta tag flags isInCheck
    searchMoves S D jobId search node depth idepth alpha beta tag flags hashMove isInCheck

omit [Evaluator] [Globals] in
/-- `repetitions_.insert(board_.hash)`. -/
def insertHash (s : Searcher) : Option (Bool × Searcher) :=
  (s.repetitions.insert s.board.hash).map fun out => (out.1, { s with repetitions := out.2 })

/-- `search`, whose recursive calls are given. -/
def searchNode (search : Recurse) : Recurse := fun node depth idepth alpha beta tag flags => do
  let isNew ← tryModify insertHash
  if isNew then
    let score ← call (doSearch S D jobId search node depth idepth alpha beta tag flags)
    modify fun s => { s with repetitions := s.repetitions.erase s.board.hash }
    pure score
  else pure 0

/-- `left` is the room that is left on the stack. -/
def search : (left : Nat) → Recurse
  | 0 => searchNode S D jobId fun _ _ _ _ _ _ _ => stuck
  | left + 1 => searchNode S D jobId (search left)

/-- `Searcher::run` returns the score and the best move. -/
def run (depth : Nat) : Part (Int × Move) (Int × Move) := do
  modify fun s => { s with depth := depth }
  let board ← gets Searcher.board
  let score ← call (search S D jobId (maxStackDepth - 1) .root depth 0 (-scoreInf) scoreInf
    (Evaluator.ofBoard board) Flags.default)
  let bestMove ← gets fun s => (s.stack 0).bestMove
  pure (score, bestMove)

end Node

end SoFCheck.Search.Job
