import SoFCheck.Core.FenText
import SoFCheck.Core.MoveParser
import SoFCheck.Search.Types

namespace SoFCheck.BotApi.UciPosition

open SoFCheck.Util.CString SoFCheck.Util.Strutil
open SoFCheck.Core.Types SoFCheck.Core.BoardState SoFCheck.Core.Moves SoFCheck.Core.Validate
open SoFCheck.Core.InitialPosition SoFCheck.Core.MoveMake SoFCheck.Core.Movegen
open SoFCheck.Core.Sequence SoFCheck.Core.Fen SoFCheck.Core.MoveParser SoFCheck.Search.Types

/-- What `std::istream` skips between two tokens. -/
def isStreamSpace (c : Byte) : Bool := c == ' ' || (9 ≤ c && c ≤ 13)

inductive Command where
  | uci
  | debug
  | isready
  | setoption
  | register
  | ucinewgame
  | position
  | go
  | stop
  | ponderhit
  | quit
  deriving DecidableEq, Repr

def commandOf (token : List Byte) : Option Command :=
  if token = bytes "uci" then some .uci
  else if token = bytes "debug" then some .debug
  else if token = bytes "isready" then some .isready
  else if token = bytes "setoption" then some .setoption
  else if token = bytes "register" then some .register
  else if token = bytes "ucinewgame" then some .ucinewgame
  else if token = bytes "position" then some .position
  else if token = bytes "go" then some .go
  else if token = bytes "stop" then some .stop
  else if token = bytes "ponderhit" then some .ponderhit
  else if token = bytes "quit" then some .quit
  else none

/-- Words that are not known are skipped. -/
def scanCommand : List (List Byte) → Option (Command × List (List Byte))
  | [] => none
  | token :: tokens =>
    match commandOf token with
    | some command => some (command, tokens)
    | none => scanCommand tokens

/-- Why a position is turned down. -/
inductive Rejection where
  | noType
  | badType (positionType : List Byte)
  | badFen (e : FenStop)
  | badBoard (e : ValidateResult)
  | illegalMove (token : List Byte)

/-- The position description and the tokens after `moves`. -/
def scanDescription : List (List Byte) → List Byte → List Byte × List (List Byte)
  | [], fenString => (fenString, [])
  | token :: tokens, fenString =>
    if token = bytes "moves" then (fenString, tokens)
    else
      let fenString := if fenString ≠ [] then fenString ++ [(' ' : Byte)] else fenString
      scanDescription tokens (fenString ++ token)

section Model

variable [Globals]

/-- The board that the description stands for. Nothing is known of `board`
before it is set. -/
def describedBoard (board : Board) (positionType fenString : List Byte) : Except Rejection Board :=
  if positionType = bytes "startpos" then .ok initialPosition
  else
    match fromFen board (cString fenString ++ [0]) with
    | .error e => .error (.badFen e)
    | .ok board =>
      let (validateRes, board) := validate board
      if validateRes ≠ .ok then .error (.badBoard validateRes) else .ok board

/-- The loop over the moves. -/
def parseMoves : List (List Byte) → Board → Except Rejection (List Move)
  | [], _ => .ok []
  | token :: tokens, dstBoard =>
    let move := moveParse (cString token) dstBoard
    if !move.isWellFormed dstBoard.side || !isMoveValid dstBoard move || !isMoveLegal dstBoard move
    then .error (.illegalMove token)
    else
      match parseMoves tokens (moveMake dstBoard move).1 with
      | .error e => .error e
      | .ok moves => .ok (move :: moves)

/-- `processUciPosition` up to its call of the client. -/
def processUciPosition (board : Board) (tokens : List (List Byte)) :
    Except Rejection (Board × List Move) :=
  match tokens with
  | [] => .error .noType
  | positionType :: tokens =>
    if positionType ≠ bytes "startpos" ∧ positionType ≠ bytes "fen" then
      .error (.badType positionType)
    else
      let (fenString, tokens) := scanDescription tokens []
      match describedBoard board positionType fenString with
      | .error e => .error e
      | .ok board =>
        match parseMoves tokens board with
        | .error e => .error e
        | .ok moves => .ok (board, moves)

/-- What a command line does to the position of the engine. -/
inductive Effect where
  | none
  | rejected (e : Rejection)
  | setPosition (board : Board) (moves : List Move)

def effectOf (board : Board) (line : List Byte) : Effect :=
  match scanCommand (tokensOf isStreamSpace line) with
  | some (.position, tokens) =>
    match processUciPosition board tokens with
    | .error e => .rejected e
    | .ok (board, moves) => .setPosition board moves
  | _ => .none

/-- `Engine::position_` after one more line. Only `setPosition` assigns to it. -/
def poll (position : Position) (board : Board) (line : List Byte) : Position :=
  match effectOf board line with
  | .setPosition board moves => Position.fromMoves board moves
  | _ => position

/-- `Engine::position_` after some lines; with each of them comes what the memory
of its board held before. -/
def positionAfter (lines : List (Board × List Byte)) : Position :=
  lines.foldl (fun position line => poll position line.1 line.2)
    (Position.fromMoves initialPosition [])

end Model

section Installed

variable [Globals] {b : Board} {ms : List Move} {p : Position}

/-- A legal game: it starts from a valid board, its moves are legal and it has
arrived where they lead. -/
structure Installed (p : Position) : Prop where
  first : Valid p.first
  moves : Along LegalMove p.first p.moves
  last_eq : p.last = (makeAll p.first p.moves).1
  last : Valid p.last

theorem installed_fromMoves (hb : Valid b) (h : Along LegalMove b ms) :
    Installed (Position.fromMoves b ms) := by
  have hlast : (Position.fromMoves b ms).last = (makeAll b ms).1 := foldl_moveMake b ms
  exact ⟨hb, h, hlast, hlast ▸ valid_along hb h⟩

theorem along_parseMoves {tokens : List (List Byte)} (h : parseMoves tokens b = .ok ms) :
    Along LegalMove b ms := by
  induction tokens generalizing b ms with
  | nil =>
    cases h
    trivial
  | cons token tokens ih =>
    rw [parseMoves] at h
    split at h
    · cases h
    · rename_i htests
      split at h
      · cases h
      · rename_i moves hmoves
        cases h
        exact ⟨legalMove_of_tests htests, ih hmoves⟩

theorem valid_of_validate (h : (validate b).1 = .ok) : Valid (validate b).2 := by
  have hv := valid_update h
  rw [validate] at h ⊢
  split_ifs at h ⊢
  exact hv

theorem valid_describedBoard {board : Board} {positionType fenString : List Byte}
    (h : describedBoard board positionType fenString = .ok b) : Valid b := by
  rw [describedBoard] at h
  split at h
  · rw [← Except.ok.inj h]
    exact valid_initialPosition
  · split at h
    · cases h
    · rename_i board' _
      dsimp only at h
      split at h
      · cases h
      · rename_i hok
        cases h
        exact valid_of_validate (not_not.mp hok)

theorem processUciPosition_ok {board : Board} {tokens : List (List Byte)}
    (h : processUciPosition board tokens = .ok (b, ms)) : Valid b ∧ Along LegalMove b ms := by
  rw [processUciPosition.eq_def] at h
  split at h
  · cases h
  · split at h
    · cases h
    · dsimp only at h
      split at h
      · cases h
      · rename_i board' hboard
        split at h
        · cases h
        · rename_i moves hmoves
          cases h
          exact ⟨valid_describedBoard hboard, along_parseMoves hmoves⟩

theorem effectOf_setPosition {board : Board} {line : List Byte}
    (h : effectOf board line = .setPosition b ms) : Valid b ∧ Along LegalMove b ms := by
  rw [effectOf] at h
  split at h
  · split at h
    · cases h
    · rename_i hok
      cases h
      exact processUciPosition_ok hok
  · cases h

theorem installed_poll (hp : Installed p) (board : Board) (line : List Byte) :
    Installed (poll p board line) := by
  rw [poll]
  split
  · rename_i b ms h
    obtain ⟨hb, hms⟩ := effectOf_setPosition h
    exact installed_fromMoves hb hms
  · exact hp

theorem installed_foldl (hp : Installed p) (lines : List (Board × List Byte)) :
    Installed (lines.foldl (fun position line => poll position line.1 line.2) p) := by
  induction lines generalizing p with
  | nil => exact hp
  | cons line lines ih => exact ih (installed_poll hp line.1 line.2)

end Installed

end SoFCheck.BotApi.UciPosition
