import SoFCheck.Core.MoveParser
import SoFCheck.Gameset.Types

namespace SoFCheck.Gameset.Reader

open SoFCheck.Util.CString SoFCheck.Util.Strutil
open SoFCheck.Core.Types SoFCheck.Core.BoardState SoFCheck.Core.Moves SoFCheck.Core.InitialPosition
open SoFCheck.Core.MoveMake SoFCheck.Core.Movegen SoFCheck.Core.Fen SoFCheck.Core.MoveParser
open SoFCheck.Gameset.Types

/-- Why a game is not returned. -/
inductive Error where
  | endOfStream
  | error (line : Nat) (message : String)
  deriving DecidableEq, Repr

/-- A fault stands for a reader that has left the string it reads. -/
abbrev CommandResult := Except (Stop Error) AnyCommand

structure GameReader where
  /-- what is left of the stream -/
  stream : List Byte
  captureBoards : Bool
  line : Nat
  lastCommand : CommandResult
  lastBoard : Option Board
  capturedBoards : List Board

def fenParseResultToStr : FenParseResult → String
  | .expectedSpace => "Expected space"
  | .expectedUint16 => "Expected uint16"
  | .unexpectedCharacter => "Unexpected character"
  | .boardRowOverflow => "Too many cells in a row"
  | .boardRowUnderflow => "Too little cells in a row"
  | .boardNotEnoughRows => "Too little rows on a board"
  | .boardTooManyRows => "Too many rows on a board"
  | .castlingDuplicate => "The same castling type is encountered twice"
  | .castlingFieldMissing => "Expected castling type, space found"
  | .enpassantInvalidCell => "Invalid enpassant cell"
  | .redundantData => "Redundant data in the string"

/-- `std::getline`: the line and what follows it. -/
def getline : List Byte → Option (List Byte × List Byte)
  | [] => none
  | text => some (text.takeWhile (· != eol), (text.dropWhile (· != eol)).tail)

theorem length_getline {text result rest : List Byte} (h : getline text = some (result, rest)) :
    rest.length < text.length := by
  cases text with
  | nil => cases h
  | cons c text =>
    cases h
    have hdrop := ((c :: text).dropWhile_sublist (· != eol)).length_le
    rw [List.length_tail]
    rw [List.length_cons] at hdrop ⊢
    omega

namespace GameReader

def error (r : GameReader) (message : String) : CommandResult :=
  .error (.reject (.error r.line message))

def readLine (r : GameReader) : Option (List Byte) × GameReader :=
  match getline r.stream with
  | some (result, stream) => (some result, { r with stream := stream, line := r.line + 1 })
  | none => (none, r)

/-- `lastBoard_ = board`, and the board is saved if the options say so. -/
def setLastBoard (r : GameReader) (board : Board) : GameReader :=
  { r with
    lastBoard := some board
    capturedBoards := if r.captureBoards then r.capturedBoards ++ [board] else r.capturedBoards }

section Model

def readGame (r : GameReader) (body : List Byte) : CommandResult × GameReader :=
  let (winner, rest) := scanToken body
  let label := (scanToken rest).1
  match winner with
  | [ch] =>
    if label = [] then (r.error "Label must be non-empty", r)
    else
      match winnerFromChar ch with
      | none => (r.error "Invalid winner character", r)
      | some winner =>
        (.ok (.game ⟨winner, if label = bytes "-" then none else some label⟩),
          { r with lastBoard := none })
  | _ => (r.error "Winner must be a single character", r)

theorem stream_readGame (r : GameReader) (body : List Byte) :
    (r.readGame body).2.stream = r.stream := by
  simp only [readGame]
  split
  · split
    · rfl
    · split <;> rfl
  · rfl

variable [Globals]

-- `memory` is what a new board holds before it is set, line by line.
variable (memory : Nat → Board)

def readBoard (r : GameReader) (body : List Byte) : CommandResult × GameReader :=
  match fromFen (memory r.line) (cString body ++ [0]) with
  | .error (.reject e) => (r.error ("Error parsing FEN: " ++ fenParseResultToStr e), r)
  | .error (.fault f) => (.error (.fault f), r)
  | .ok board => (.ok (.board ⟨board⟩), r.setLastBoard board)

/-- The loop over the moves. -/
def readMoves : List (List Byte) → List Move → Board → GameReader → CommandResult × GameReader
  | [], moves, _, r => (.ok (.moves ⟨moves⟩), r)
  | srcMove :: srcMoves, moves, lastBoard, r =>
    let move := moveParse srcMove lastBoard
    if !move.isWellFormed lastBoard.side || !isMoveValid lastBoard move ||
        !isMoveLegal lastBoard move then
      (r.error ("Move #" ++ toString (moves.length + 1) ++ " is illegal"), r)
    else
      let lastBoard := (moveMake lastBoard move).1
      readMoves srcMoves (moves ++ [move]) lastBoard (r.setLastBoard lastBoard)

/-- The part of `tryReadCommand` after the name and the body are known. Names
that are not known are ignored. -/
def readBody (r : GameReader) (name body : List Byte) : Option CommandResult × GameReader :=
  if name = bytes "game" then (r.readGame body).map some id
  else if name = bytes "title" then (some (.ok (.title ⟨body⟩)), r)
  else if name = bytes "start" then
    (some (.ok (.board ⟨initialPosition⟩)), r.setLastBoard initialPosition)
  else if name = bytes "board" then (r.readBoard memory body).map some id
  else if name = bytes "moves" then
    match r.lastBoard with
    | none => (some (r.error "No preceding boards found"), r)
    | some lastBoard =>
      if body = [] then (some (r.error "No moves specified"), r)
      else (readMoves (tokensOf isSpace (cString body)) [] lastBoard r).map some id
  else (none, r)

def tryReadCommand (r : GameReader) : Option CommandResult × GameReader :=
  match r.readLine with
  | (none, r) => (some (.error (.reject .endOfStream)), r)
  | (some maybeLine, r) =>
    let line := trim maybeLine
    if line = [] ∨ line.head? = some ('#' : Byte) then (none, r)
    else r.readBody memory (scanToken line).1 (scanToken line).2

theorem stream_readBoard (r : GameReader) (body : List Byte) :
    (r.readBoard memory body).2.stream = r.stream := by
  rw [readBoard]
  split <;> rfl

omit memory in
theorem stream_readMoves (srcMoves : List (List Byte)) (moves : List Move) (b : Board)
    (r : GameReader) : (readMoves srcMoves moves b r).2.stream = r.stream := by
  induction srcMoves generalizing moves b r with
  | nil => rfl
  | cons srcMove srcMoves ih =>
    simp only [readMoves]
    split
    · rfl
    · exact ih ..

theorem stream_readBody (r : GameReader) (name body : List Byte) :
    (r.readBody memory name body).2.stream = r.stream := by
  rw [readBody]
  split_ifs
  · exact stream_readGame r body
  · rfl
  · rfl
  · exact stream_readBoard memory r body
  · split <;> rfl
  · split
    · rfl
    · exact stream_readMoves ..
  · rfl

theorem length_tryReadCommand (r : GameReader) : r.tryReadCommand memory =
      (some (.error (.reject .endOfStream)), r) ∨
    (r.tryReadCommand memory).2.stream.length < r.stream.length := by
  rw [tryReadCommand, readLine]
  cases h : getline r.stream with
  | none => exact Or.inl rfl
  | some next =>
    obtain ⟨result, rest⟩ := next
    apply Or.inr
    dsimp only
    split
    · exact length_getline h
    · rw [stream_readBody]
      exact length_getline h

def readCommand (r : GameReader) : CommandResult × GameReader :=
  match _ : r.tryReadCommand memory with
  | (some result, r') => (result, r')
  | (none, r') => readCommand r'
  termination_by r.stream.length
  decreasing_by
    have hr := length_tryReadCommand memory r
    rw [‹r.tryReadCommand memory = (none, r')›] at hr
    exact hr.resolve_left (fun he => by cases he)

theorem readCommand_rec {P : GameReader → Prop}
    (read : ∀ r result r', r.tryReadCommand memory = (some result, r') → P r)
    (skip : ∀ r r', r.tryReadCommand memory = (none, r') → P r' → P r) (r : GameReader) : P r := by
  induction r using readCommand.induct memory with
  | case1 r result r' ht => exact read r result r' ht
  | case2 r r' ht ih => exact skip r r' ht ih

theorem length_readCommand {r r' : GameReader} {command : AnyCommand}
    (h : r.readCommand memory = (.ok command, r')) : r'.stream.length < r.stream.length := by
  induction r using readCommand_rec memory with
  | read r result r₁ ht =>
    rw [readCommand, ht] at h
    cases h
    have hr := length_tryReadCommand memory r
    rw [ht] at hr
    exact hr.resolve_left (fun he => by cases he)
  | skip r r₁ ht ih =>
    rw [readCommand, ht] at h
    have hr := length_tryReadCommand memory r
    rw [ht] at hr
    exact (ih h).trans (hr.resolve_left (fun he => by cases he))

/-- The constructor. -/
def new (stream : List Byte) (captureBoards : Bool) : GameReader :=
  let r : GameReader := ⟨stream, captureBoards, 0, .error (.reject .endOfStream), none, []⟩
  let (lastCommand, r) := r.readCommand memory
  { r with lastCommand := lastCommand }

/-- The loop over the commands of a game. -/
def gameLoop (game : Game) (r : GameReader) : Except (Stop Error) Game × GameReader :=
  match _ : r.readCommand memory with
  | (.error e, r') =>
    (if e = .reject .endOfStream then .ok game else .error e, { r' with lastCommand := .error e })
  | (.ok command, r') =>
    match commandSplit command with
    | .game command => (.ok game, { r' with lastCommand := .ok (.game command) })
    | .metadata command => gameLoop (game.apply command) r'
    | .inner command => gameLoop { game with commands := game.commands ++ [command] } r'
  termination_by r.stream.length
  decreasing_by all_goals exact length_readCommand memory ‹_›

section Turns

variable {memory} {game : Game} {r r' : GameReader}

theorem gameLoop_ok {command : AnyCommand} (hr : r.readCommand memory = (.ok command, r')) :
    r.gameLoop memory game =
      match commandSplit command with
      | .game c => (.ok game, { r' with lastCommand := .ok (.game c) })
      | .metadata c => r'.gameLoop memory (game.apply c)
      | .inner c => r'.gameLoop memory { game with commands := game.commands ++ [c] } := by
  rw [gameLoop]
  split
  · rename_i he
    rw [hr] at he
    cases he
  · rename_i he
    rw [hr] at he
    cases he
    rfl

theorem gameLoop_error {e : Stop Error} (hr : r.readCommand memory = (.error e, r')) :
    r.gameLoop memory game =
      (if e = .reject .endOfStream then .ok game else .error e,
        { r' with lastCommand := .error e }) := by
  rw [gameLoop]
  split
  · rename_i he
    rw [hr] at he
    cases he
    rfl
  · rename_i he
    rw [hr] at he
    cases he

end Turns

theorem gameLoop_rec {P : Game → GameReader → Prop}
    (error : ∀ game r e r', r.readCommand memory = (.error e, r') → P game r)
    (next : ∀ game r command r' c, r.readCommand memory = (.ok command, r') →
      commandSplit command = .game c → P game r)
    (metadata : ∀ game r command r' c, r.readCommand memory = (.ok command, r') →
      commandSplit command = .metadata c → P (game.apply c) r' → P game r)
    (inner : ∀ game r command r' c, r.readCommand memory = (.ok command, r') →
      commandSplit command = .inner c → P { game with commands := game.commands ++ [c] } r' →
      P game r)
    (game : Game) (r : GameReader) : P game r := by
  induction game, r using gameLoop.induct memory with
  | case1 game r e r' hr => exact error game r e r' hr
  | case2 game r command r' hr c hc => exact next game r command r' c hr hc
  | case3 game r command r' hr c hc ih => exact metadata game r command r' c hr hc ih
  | case4 game r command r' hr c hc ih => exact inner game r command r' c hr hc ih

def nextGame (r : GameReader) : Except (Stop Error) Game × GameReader :=
  match r.lastCommand with
  | .error e => (.error e, r)
  | .ok (.game command) => gameLoop memory (Game.new command) { r with capturedBoards := [] }
  | .ok _ => (.error (.reject (.error r.line "First command must be \"game\"")), r)

/-- The results of some calls of `nextGame`. -/
def games : Nat → GameReader → List (Except (Stop Error) Game)
  | 0, _ => []
  | n + 1, r => (r.nextGame memory).1 :: games n (r.nextGame memory).2

end Model

end GameReader

end SoFCheck.Gameset.Reader
