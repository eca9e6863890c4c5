import SoFCheck.Core.Fen

namespace SoFCheck.Gameset.Types

open SoFCheck.Util.CString SoFCheck.Util.Strutil
open SoFCheck.Core.Types SoFCheck.Core.BoardState SoFCheck.Core.Moves SoFCheck.Core.Strutil
open SoFCheck.Core.Fen

/-- Who won the game. -/
inductive Winner where
  | unknown
  | white
  | black
  | draw
  deriving DecidableEq, Repr

def winnerFromChar (ch : Byte) : Option Winner :=
  if ch = '?' then some .unknown
  else if ch = 'W' then some .white
  else if ch = 'B' then some .black
  else if ch = 'D' then some .draw
  else none

def winnerToChar : Winner → Byte
  | .unknown => '?'
  | .white => 'W'
  | .black => 'B'
  | .draw => 'D'

structure GameCommand where
  winner : Winner
  label : Option (List Byte)

structure TitleCommand where
  title : List Byte

structure BoardCommand where
  board : Board

structure MovesCommand where
  moves : List Move

inductive AnyCommand where
  | game (command : GameCommand)
  | title (command : TitleCommand)
  | board (command : BoardCommand)
  | moves (command : MovesCommand)

/-- The commands that can appear inside a game and are not metadata. -/
inductive InnerCommand where
  | board (command : BoardCommand)
  | moves (command : MovesCommand)

/-- The three types that `commandSplit` tells apart. -/
inductive SplitCommand where
  | game (command : GameCommand)
  | metadata (command : TitleCommand)
  | inner (command : InnerCommand)

def commandSplit : AnyCommand → SplitCommand
  | .game command => .game command
  | .title command => .metadata command
  | .board command => .inner (.board command)
  | .moves command => .inner (.moves command)

structure Game where
  header : GameCommand
  title : Option (List Byte)
  commands : List InnerCommand

/-- `Game(header)`. -/
def Game.new (header : GameCommand) : Game := ⟨header, none, []⟩

/-- `Game::apply`. -/
def Game.apply (game : Game) (command : TitleCommand) : Game :=
  { game with title := some command.title }

section Write

def eol : Byte := '\n'

def initialPositionFen : List Byte :=
  bytes "rnbqkbnr/pppppppp/8/8/8/8/PPPPPPPP/RNBQKBNR w KQkq - 0 1"

def GameCommand.write (command : GameCommand) : List Byte :=
  bytes "game " ++ winnerToChar command.winner :: (bytes " " ++ command.label.getD (bytes "-") ++ [eol])

def TitleCommand.write (command : TitleCommand) : List Byte :=
  bytes "title " ++ command.title ++ [eol]

def BoardCommand.write (command : BoardCommand) : List Byte :=
  let fen := cString (asFen command.board)
  if fen = initialPositionFen then bytes "start" ++ [eol] else bytes "board " ++ fen ++ [eol]

def MovesCommand.write (command : MovesCommand) : List Byte :=
  bytes "moves" ++ command.moves.flatMap (fun move => bytes " " ++ moveToStr move) ++ [eol]

def InnerCommand.write : InnerCommand → List Byte
  | .board command => command.write
  | .moves command => command.write

def writeTitle : Option (List Byte) → List Byte
  | some title => TitleCommand.write ⟨title⟩
  | none => []

def Game.write (game : Game) : List Byte :=
  game.header.write ++ writeTitle game.title ++ game.commands.flatMap InnerCommand.write ++ [eol]

end Write

end SoFCheck.Gameset.Types
