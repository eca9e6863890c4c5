import SoFCheck.Core.LegalMoves
import SoFCheck.Gameset.RoundTrip

namespace SoFCheck.Gameset.Replay

open SoFCheck.Util.CString SoFCheck.Util.Strutil
open SoFCheck.Core.Types SoFCheck.Core.BoardState SoFCheck.Core.Moves SoFCheck.Core.Mailbox
open SoFCheck.Core.Validate SoFCheck.Core.Position SoFCheck.Core.InitialPosition
open SoFCheck.Core.MoveMake SoFCheck.Core.MakeCells SoFCheck.Core.WellFormed
open SoFCheck.Core.Movegen SoFCheck.Core.PseudoLegal SoFCheck.Core.Legality SoFCheck.Core.Sequence
open SoFCheck.Core.LegalMoves SoFCheck.Core.Fen SoFCheck.Core.FenGrammar SoFCheck.Core.MoveParser
open SoFCheck.Gameset.Types SoFCheck.Gameset.Reader SoFCheck.Gameset.RoundTrip

section Lines

/-- The lines of a text. -/
def lines (text : List Byte) : List (List Byte) :=
  match _h : getline text with
  | none => []
  | some (line, rest) => line :: lines rest
  termination_by text.length
  decreasing_by exact length_getline _h

theorem lines_getline {text line rest : List Byte} (h : getline text = some (line, rest)) :
    lines text = line :: lines rest := by
  rw [lines]
  split
  · rename_i h'
    rw [h] at h'
    cases h'
  · rename_i h'
    rw [h] at h'
    cases h'
    rfl

theorem lines_append {line : List Byte} (h : eol ∉ line) (rest : List Byte) :
    lines (line ++ eol :: rest) = line :: lines rest :=
  lines_getline (getline_append h rest)

/-- The name and the body of the command on a line. -/
def commandOf (line : List Byte) : List Byte × List Byte := scanToken (trim line)

/-- The positions of a text pass the validation. -/
def BoardLinesValid [Globals] (text : List Byte) : Prop :=
  ∀ line ∈ lines text, (commandOf line).1 = bytes "board" → ∀ memory b,
    fromFen memory (cString (commandOf line).2 ++ [0]) = .ok b → (validate b).1 = .ok

theorem zero_not_mem_cString (str : List Byte) : (0 : Byte) ∉ cString str := by
  intro h
  exact absurd (List.mem_takeWhile_imp h) (by decide)

theorem update_of_fromFen [Globals] {memory b : Board} {body : List Byte}
    (h : fromFen memory (cString body ++ [0]) = .ok b) : update b = b := by
  obtain ⟨-, hok, -⟩ := fromFen_language memory (zero_not_mem_cString body)
  obtain ⟨f, -, rfl⟩ := (hok b).mp h
  exact update_update f.board

end Lines

section Boards

variable [Globals]

/-- The boards after each of the moves. -/
def boardsAfter (b : Board) : List Move → List Board
  | [] => []
  | m :: ms => (moveMake b m).1 :: boardsAfter (moveMake b m).1 ms

/-- The boards of some commands; `lastBoard` is the board that the moves go on from. -/
def replay : Option Board → List InnerCommand → List Board
  | _, [] => []
  | _, .board command :: commands => command.board :: replay (some command.board) commands
  | none, .moves _ :: commands => replay none commands
  | some b, .moves command :: commands =>
    boardsAfter b command.moves ++ replay (some (makeAll b command.moves).1) commands

/-- The board that the moves after some commands go on from. -/
def lastOf : Option Board → List InnerCommand → Option Board
  | lastBoard, [] => lastBoard
  | _, .board command :: commands => lastOf (some command.board) commands
  | none, .moves _ :: commands => lastOf none commands
  | some b, .moves command :: commands => lastOf (some (makeAll b command.moves).1) commands

/-- A legal move of chess, on a board that passes the validation. -/
structure ChessMove (b : Board) (m : Move) : Prop where
  board : Valid b
  legal : ∃ k s t, m = mkMove k s t ∧ (position b).Legal k s t

/-- There is a board before the moves, and each of them is legal where it is made. -/
def LegalCommands : Option Board → List InnerCommand → Prop
  | _, [] => True
  | _, .board command :: commands =>
    Valid command.board ∧ LegalCommands (some command.board) commands
  | none, .moves _ :: _ => False
  | some b, .moves command :: commands => Along ChessMove b command.moves ∧
      LegalCommands (some (makeAll b command.moves).1) commands

variable {b : Board} {m : Move} {ms : List Move} {lastBoard : Option Board}

theorem lastOf_append (commands : List InnerCommand) (command : InnerCommand) :
    lastOf lastBoard (commands ++ [command]) = lastOf (lastOf lastBoard commands) [command] := by
  induction commands generalizing lastBoard with
  | nil => rfl
  | cons c commands ih =>
    match lastBoard, c with
    | none, .board c => exact ih
    | some b, .board c => exact ih
    | none, .moves c => exact ih
    | some b, .moves c => exact ih

theorem replay_append (commands : List InnerCommand) (command : InnerCommand) :
    replay lastBoard (commands ++ [command]) =
      replay lastBoard commands ++ replay (lastOf lastBoard commands) [command] := by
  induction commands generalizing lastBoard with
  | nil => rfl
  | cons c commands ih =>
    match lastBoard, c with
    | none, .board c => exact congrArg _ ih
    | some b, .board c => exact congrArg _ ih
    | none, .moves c => exact ih
    | some b, .moves c =>
      rw [List.cons_append, replay, ih, ← List.append_assoc]
      rfl

theorem legalCommands_append {commands : List InnerCommand} {command : InnerCommand}
    (h : LegalCommands lastBoard commands)
    (hc : LegalCommands (lastOf lastBoard commands) [command]) :
    LegalCommands lastBoard (commands ++ [command]) := by
  induction commands generalizing lastBoard with
  | nil => exact hc
  | cons c commands ih =>
    match lastBoard, c with
    | none, .board c => exact ⟨h.1, ih h.2 hc⟩
    | some b, .board c => exact ⟨h.1, ih h.2 hc⟩
    | none, .moves c => exact h.elim
    | some b, .moves c => exact ⟨h.1, ih h.2 hc⟩

theorem boardsAfter_append (ms' : List Move) :
    boardsAfter b (ms ++ ms') = boardsAfter b ms ++ boardsAfter (makeAll b ms).1 ms' := by
  induction ms generalizing b with
  | nil => rfl
  | cons m ms ih => exact congrArg _ ih

theorem fst_makeAll_append (ms' : List Move) :
    (makeAll b (ms ++ ms')).1 = (makeAll (makeAll b ms).1 ms').1 := by
  induction ms generalizing b with
  | nil => rfl
  | cons m ms ih => exact ih

theorem replay_moves (commands : List MovesCommand) :
    replay (some b) (commands.map .moves) = boardsAfter b (commands.flatMap MovesCommand.moves) := by
  induction commands generalizing b with
  | nil => rfl
  | cons c commands ih =>
    rw [List.map_cons, replay, ih, List.flatMap_cons, boardsAfter_append]

theorem getElem_boardsAfter {i : Nat} (h : ms[i]? = some m) : ∃ b',
    (b :: boardsAfter b ms)[i]? = some b' ∧
      (b :: boardsAfter b ms)[i + 1]? = some (moveMake b' m).1 := by
  induction ms generalizing b i with
  | nil => cases h
  | cons m' ms ih =>
    cases i with
    | zero =>
      cases h
      exact ⟨b, rfl, rfl⟩
    | succ i => exact ih (b := (moveMake b m').1) h

end Boards

section Commands

variable [Globals] (memory : Nat → Board) {r r' : GameReader} {b : Board} {m : Move}

omit [Globals] in
theorem tag_moveParse (str : List Byte) (b : Board) : (moveParse str b).tag = 0 := by
  have htag : ∀ C p, (moveFromParsedImpl C p b).tag = 0 := by
    intro C p
    rw [moveFromParsedImpl]
    split_ifs <;> rfl
  rw [moveParse, moveFromParsed]
  split_ifs
  · exact htag _ _
  · exact htag _ _

theorem chessMove_of_legal (hb : Valid b) (htag : m.tag = 0) (h : LegalMove b m) :
    ChessMove b m ∧ Valid (moveMake b m).1 := by
  obtain ⟨hr, hl⟩ := valid_iff.mp hb
  obtain ⟨k, s, t, rfl, hp⟩ := (pseudo_iff_isMoveValid hr).mpr ⟨htag, h.wellFormed, h.valid⟩
  refine ⟨⟨hb, k, s, t, rfl, legal_iff.mpr ⟨hp, (isMoveLegal_iff hr hl hp).mp h.legal⟩⟩, ?_⟩
  exact valid_moveMake hb h.legalStep

/-- What the reader relies on. -/
structure Sound (r : GameReader) : Prop where
  captures : r.captureBoards = true
  lines : BoardLinesValid r.stream
  lastBoard : ∀ b ∈ r.lastBoard, Valid b

/-- What a command has done to the last board and to the captured boards. -/
def Done (r r' : GameReader) : AnyCommand → Prop
  | .game _ => r'.lastBoard = none ∧ r'.capturedBoards = r.capturedBoards
  | .title _ => r'.lastBoard = r.lastBoard ∧ r'.capturedBoards = r.capturedBoards
  | .board command => Valid command.board ∧ r'.lastBoard = some command.board ∧
      r'.capturedBoards = r.capturedBoards ++ [command.board]
  | .moves command => ∃ b, r.lastBoard = some b ∧ Along ChessMove b command.moves ∧
      r'.lastBoard = some (makeAll b command.moves).1 ∧
      r'.capturedBoards = r.capturedBoards ++ boardsAfter b command.moves

/-- What reading a line does. -/
structure Reads (r : GameReader) (result : Option CommandResult) (r' : GameReader) : Prop where
  sound : Sound r'
  skipped : result = none → r'.lastBoard = r.lastBoard ∧ r'.capturedBoards = r.capturedBoards
  command : ∀ command, result = some (.ok command) → Done r r' command
  ended : result = some (.error (.reject .endOfStream)) →
    r'.lastBoard = r.lastBoard ∧ r'.capturedBoards = r.capturedBoards

theorem Reads.of_error (h : Sound r) {e : Stop Error} (he : e ≠ .reject .endOfStream) :
    Reads r (some (.error e)) r where
  sound := h
  skipped := nofun
  command := nofun
  ended := by
    intro h'
    cases h'
    exact absurd rfl he

theorem Reads.of_ok (h : Sound r') {command : AnyCommand} (hd : Done r r' command) :
    Reads r (some (.ok command)) r' where
  sound := h
  skipped := nofun
  command := by
    rintro _ ⟨⟩
    exact hd
  ended := nofun

omit [Globals] in
theorem error_ne (r : GameReader) (message : String) :
    (.reject (.error r.line message) : Stop Error) ≠ .reject .endOfStream := nofun

theorem sound_setLastBoard (h : Sound r) (hb : Valid b) : Sound (r.setLastBoard b) where
  captures := h.captures
  lines := h.lines
  lastBoard := by
    intro b' hb'
    rw [← Option.some.inj hb']
    exact hb

omit [Globals] in
theorem capturedBoards_setLastBoard (h : r.captureBoards = true) (b : Board) :
    (r.setLastBoard b).capturedBoards = r.capturedBoards ++ [b] := by
  rw [GameReader.setLastBoard, if_pos h]

theorem reads_setLastBoard (h : Sound r) (hb : Valid b) :
    Reads r (some (.ok (.board ⟨b⟩))) (r.setLastBoard b) :=
  have hd : Done r (r.setLastBoard b) (.board ⟨b⟩) :=
    ⟨hb, rfl, capturedBoards_setLastBoard h.captures b⟩
  .of_ok (sound_setLastBoard h hb) hd

theorem reads_readGame (h : Sound r) (body : List Byte) :
    Reads r (some (r.readGame body).1) (r.readGame body).2 := by
  rw [GameReader.readGame]
  dsimp only
  split
  · split
    · exact .of_error h (error_ne r _)
    · split
      · exact .of_error h (error_ne r _)
      · have hs : Sound { r with lastBoard := none } := ⟨h.captures, h.lines, fun _ hb => by cases hb⟩
        exact .of_ok hs (And.intro rfl rfl)
  · exact .of_error h (error_ne r _)

theorem reads_readBoard (h : Sound r) {body : List Byte}
    (hvalid : ∀ memory b, fromFen memory (cString body ++ [0]) = .ok b → (validate b).1 = .ok) :
    Reads r (some (r.readBoard memory body).1) (r.readBoard memory body).2 := by
  rw [GameReader.readBoard]
  split
  · exact .of_error h (error_ne r _)
  · exact .of_error h fun he => by cases he
  · rename_i b hread
    exact reads_setLastBoard h ⟨hvalid _ b hread, update_of_fromFen hread⟩

/-- The loop over the moves: `r` has made `moves` from the board `b₀` of `r₀`. -/
theorem reads_readMoves {r₀ : GameReader} {b₀ : Board} (srcMoves : List (List Byte))
    (moves : List Move) (h₀ : r₀.lastBoard = some b₀) (h : Sound r)
    (hlast : r.lastBoard = some b) (hmade : (makeAll b₀ moves).1 = b)
    (hlegal : ∀ ms, Along ChessMove b ms → Along ChessMove b₀ (moves ++ ms))
    (hcap : r.capturedBoards = r₀.capturedBoards ++ boardsAfter b₀ moves) :
    Reads r₀ (some (GameReader.readMoves srcMoves moves b r).1)
      (GameReader.readMoves srcMoves moves b r).2 := by
  induction srcMoves generalizing moves b r with
  | nil =>
    refine .of_ok h ⟨b₀, h₀, ?_, ?_, hcap⟩
    · have hnil := hlegal [] trivial
      rwa [List.append_nil] at hnil
    · rw [hlast, ← hmade]
  | cons srcMove srcMoves ih =>
    rw [GameReader.readMoves]
    dsimp only
    split
    · refine ⟨h, (fun he => by cases he), (fun _ he => by cases he), fun he => ?_⟩
      exact absurd (Except.error.inj (Option.some.inj he)) (error_ne r _)
    · rename_i htests
      obtain ⟨hm, hv⟩ := chessMove_of_legal (h.lastBoard b hlast) (tag_moveParse _ _)
        (legalMove_of_tests htests)
      refine ih (moves ++ [moveParse srcMove b]) (sound_setLastBoard h hv) rfl ?_ ?_ ?_
      · rw [fst_makeAll_append, hmade]
        rfl
      · intro ms hms
        rw [List.append_assoc]
        exact hlegal _ ⟨hm, hms⟩
      · rw [capturedBoards_setLastBoard h.captures, hcap, boardsAfter_append, hmade,
          List.append_assoc]
        rfl

theorem reads_readBody (h : Sound r) {name body : List Byte}
    (hvalid : name = bytes "board" → ∀ memory b,
      fromFen memory (cString body ++ [0]) = .ok b → (validate b).1 = .ok) :
    Reads r (r.readBody memory name body).1 (r.readBody memory name body).2 := by
  rw [GameReader.readBody]
  split_ifs with hgame htitle hstart hboard hmoves
  · exact reads_readGame h body
  · exact .of_ok h ⟨rfl, rfl⟩
  · exact reads_setLastBoard h valid_initialPosition
  · exact reads_readBoard memory h (hvalid hboard)
  · split
    · exact .of_error h (error_ne r _)
    · exact .of_error h (error_ne r _)
  · split
    · exact .of_error h (error_ne r _)
    · rename_i b hlast
      exact reads_readMoves _ [] hlast h hlast rfl (fun ms hms => hms) (List.append_nil _).symm
  · exact ⟨h, fun _ => ⟨rfl, rfl⟩, (fun _ he => by cases he), fun he => by cases he⟩

theorem reads_tryReadCommand (h : Sound r) :
    Reads r (r.tryReadCommand memory).1 (r.tryReadCommand memory).2 := by
  rw [GameReader.tryReadCommand, GameReader.readLine]
  cases hline : getline r.stream with
  | none => exact ⟨h, (fun he => by cases he), (fun _ he => by cases he), fun _ => ⟨rfl, rfl⟩⟩
  | some next =>
    obtain ⟨maybeLine, rest⟩ := next
    have hlines := h.lines
    rw [BoardLinesValid, lines_getline hline, List.forall_mem_cons] at hlines
    have hsound : Sound { r with stream := rest, line := r.line + 1 } :=
      ⟨h.captures, hlines.2, h.lastBoard⟩
    dsimp only
    split_ifs
    · exact ⟨hsound, fun _ => ⟨rfl, rfl⟩, (fun _ he => by cases he), fun he => by cases he⟩
    · have hbody := reads_readBody memory hsound hlines.1
      exact ⟨hbody.sound, hbody.skipped, hbody.command, hbody.ended⟩

theorem reads_readCommand (h : Sound r) :
    Reads r (some (r.readCommand memory).1) (r.readCommand memory).2 := by
  induction r using GameReader.readCommand_rec memory with
  | read r result r' ht =>
    have hline := reads_tryReadCommand memory h
    rw [ht] at hline
    rw [readCommand_some ht]
    exact hline
  | skip r r' ht ih =>
    have hline := reads_tryReadCommand memory h
    rw [ht] at hline
    obtain ⟨hlast, hcap⟩ := hline.skipped rfl
    have hread := ih hline.sound
    rw [readCommand_none ht]
    refine ⟨hread.sound, (fun he => by cases he), fun command hc => ?_, fun he => ?_⟩
    · have hd := hread.command command hc
      cases command with
      | game c => exact ⟨hd.1, hd.2.trans hcap⟩
      | title c => exact ⟨hd.1.trans hlast, hd.2.trans hcap⟩
      | board c => exact ⟨hd.1, hd.2.1, by rw [hd.2.2, hcap]⟩
      | moves c =>
        obtain ⟨b, hb, hl, hl', hc'⟩ := hd
        exact ⟨b, hlast ▸ hb, hl, hl', by rw [hc', hcap]⟩
    · obtain ⟨hl, hc⟩ := hread.ended he
      exact ⟨hl.trans hlast, hc.trans hcap⟩

end Commands

section Games

variable [Globals] (memory : Nat → Board) {r r' : GameReader} {game : Game}

/-- The reader has read a part of the game. -/
structure Follows (r : GameReader) (game : Game) : Prop where
  lastBoard : r.lastBoard = lastOf none game.commands
  captured : r.capturedBoards = replay none game.commands
  legal : LegalCommands none game.commands

theorem Follows.inner (h : Follows r game) {command : AnyCommand} (hd : Done r r' command)
    {c : InnerCommand} (hc : commandSplit command = .inner c) :
    Follows r' { game with commands := game.commands ++ [c] } := by
  have hcap := h.captured
  have hlast := h.lastBoard
  cases command with
  | game c => cases hc
  | title c => cases hc
  | board c =>
    cases hc
    obtain ⟨hv, hl, hb⟩ := hd
    refine ⟨?_, ?_, legalCommands_append h.legal ?_⟩
    · rw [lastOf_append, hl]
      cases lastOf none game.commands <;> rfl
    · rw [hb, hcap, replay_append]
      cases lastOf none game.commands <;> rfl
    · cases lastOf none game.commands <;> exact ⟨hv, trivial⟩
  | moves c =>
    cases hc
    obtain ⟨b, hb, hlegal, hl, hcap'⟩ := hd
    rw [hlast] at hb
    refine ⟨?_, ?_, legalCommands_append h.legal ?_⟩
    · rw [lastOf_append, hl, hb]
      rfl
    · rw [hcap', hcap, replay_append, hb, replay, replay, List.append_nil]
    · rw [hb]
      exact ⟨hlegal, trivial⟩

theorem Follows.metadata (h : Follows r game) {command : AnyCommand} (hd : Done r r' command)
    {c : TitleCommand} (hc : commandSplit command = .metadata c) : Follows r' (game.apply c) := by
  cases command with
  | title c' => exact ⟨hd.1.trans h.lastBoard, hd.2.trans h.captured, h.legal⟩
  | game c' => cases hc
  | board c' => cases hc
  | moves c' => cases hc

omit [Globals] in
theorem commandSplit_eq_game {command : AnyCommand} {c : GameCommand}
    (h : commandSplit command = .game c) : command = .game c := by
  cases command with
  | game c' =>
    cases h
    rfl
  | title c' => cases h
  | board c' => cases h
  | moves c' => cases h

/-- What the reader holds between two games: the header of the next game, or an error
that it returns from now on. -/
def Between (r : GameReader) : Prop :=
  (∃ command, r.lastCommand = .ok (.game command) ∧ r.lastBoard = none ∧ Sound r) ∨
    ∃ e, r.nextGame memory = (.error e, r)

theorem nextGame_of_error {e : Stop Error} (h : r.lastCommand = .error e) :
    r.nextGame memory = (.error e, r) := by
  rw [GameReader.nextGame, h]

theorem nextGame_of_game {command : GameCommand} (h : r.lastCommand = .ok (.game command)) :
    r.nextGame memory =
      GameReader.gameLoop memory (Game.new command) { r with capturedBoards := [] } := by
  rw [GameReader.nextGame]
  split
  · rename_i h'
    rw [h] at h'
    cases h'
  · rename_i h'
    rw [h] at h'
    cases h'
    rfl
  · rename_i hne h'
    exact (hne command (Except.ok.inj (h'.symm.trans h))).elim

theorem snd_nextGame (h : ∀ command, r.lastCommand = .ok (.game command) → False) :
    (r.nextGame memory).2 = r := by
  rw [GameReader.nextGame]
  split
  · rfl
  · rename_i command hc
    exact (h command hc).elim
  · rfl

/-- What a call of `nextGame` returns and leaves. -/
structure Returned (result : Except (Stop Error) Game) (r : GameReader) :
    Prop where
  between : Between memory r
  ok : ∀ game, result = .ok game → r.capturedBoards = replay none game.commands ∧
    LegalCommands none game.commands
  error : ∀ e, result = .error e → r.nextGame memory = (.error e, r)

theorem Returned.of_error {e : Stop Error} (h : r.lastCommand = .error e) :
    Returned memory (.error e) r where
  between := Or.inr ⟨e, nextGame_of_error memory h⟩
  ok := nofun
  error := by
    intro e' he
    rw [← Except.error.inj he]
    exact nextGame_of_error memory h

/-- The loop over the commands of a game. -/
theorem returned_gameLoop (h : Sound r) (hf : Follows r game) :
    Returned memory (r.gameLoop memory game).1 (r.gameLoop memory game).2 := by
  induction game, r using GameReader.gameLoop_rec memory with
  | error game r e r' hr =>
    have hread := reads_readCommand memory h
    rw [hr] at hread
    rw [GameReader.gameLoop_error hr]
    dsimp only
    split_ifs with hend
    · refine ⟨Or.inr ⟨e, nextGame_of_error memory rfl⟩, fun game' hg => ?_, fun _ he => by cases he⟩
      obtain ⟨-, hcap⟩ := hread.ended (by rw [hend])
      cases hg
      exact ⟨hcap.trans hf.captured, hf.legal⟩
    · exact .of_error memory rfl
  | next game r command r' c hr hc =>
    have hread := reads_readCommand memory h
    rw [hr] at hread
    have hd := hread.command command rfl
    obtain rfl := commandSplit_eq_game hc
    rw [GameReader.gameLoop_ok hr]
    refine ⟨Or.inl ⟨c, rfl, hd.1, hread.sound.captures, hread.sound.lines, hread.sound.lastBoard⟩,
      fun game' hg => ?_, fun _ he => by cases he⟩
    cases hg
    exact ⟨hd.2.trans hf.captured, hf.legal⟩
  | metadata game r command r' c hr hc ih =>
    have hread := reads_readCommand memory h
    rw [hr] at hread
    rw [GameReader.gameLoop_ok hr, hc]
    dsimp only
    exact ih hread.sound (hf.metadata (hread.command command rfl) hc)
  | inner game r command r' c hr hc ih =>
    have hread := reads_readCommand memory h
    rw [hr] at hread
    rw [GameReader.gameLoop_ok hr, hc]
    dsimp only
    exact ih hread.sound (hf.inner (hread.command command rfl) hc)

theorem returned_nextGame (h : Between memory r) :
    Returned memory (r.nextGame memory).1 (r.nextGame memory).2 := by
  obtain ⟨command, hc, hlast, hsound⟩ | ⟨e, he⟩ := h
  · have hstart : Sound { r with capturedBoards := [] } :=
      ⟨hsound.captures, hsound.lines, hsound.lastBoard⟩
    rw [nextGame_of_game memory hc]
    exact returned_gameLoop memory hstart ⟨hlast, rfl, trivial⟩
  · rw [he]
    refine ⟨Or.inr ⟨e, he⟩, nofun, fun e' he' => ?_⟩
    rw [← Except.error.inj he']
    exact he

theorem between_new {text : List Byte} (h : BoardLinesValid text) :
    Between memory (GameReader.new memory text true) := by
  have hsound : Sound ⟨text, true, 0, .error (.reject .endOfStream), none, []⟩ :=
    ⟨rfl, h, fun _ hb => by cases hb⟩
  have hread := reads_readCommand memory hsound
  rw [GameReader.new]
  match hc : GameReader.readCommand memory ⟨text, true, 0, .error (.reject .endOfStream), none, []⟩ with
  | (.error e, r) => exact Or.inr ⟨e, nextGame_of_error memory rfl⟩
  | (.ok command, r) =>
    rw [hc] at hread
    have hd := hread.command command rfl
    cases command with
    | game c =>
      exact Or.inl ⟨c, rfl, hd.1, hread.sound.captures, hread.sound.lines, hread.sound.lastBoard⟩
    | title c => exact Or.inr ⟨_, rfl⟩
    | board c => exact Or.inr ⟨_, rfl⟩
    | moves c => exact Or.inr ⟨_, rfl⟩

/-- The reader after some calls of `nextGame`. -/
def after : Nat → GameReader → GameReader
  | 0, r => r
  | n + 1, r => after n (r.nextGame memory).2

theorem between_after (h : Between memory r) (n : Nat) : Between memory (after memory n r) := by
  induction n generalizing r with
  | zero => exact h
  | succ n ih => exact ih (returned_nextGame memory h).between

theorem after_of_error {e : Stop Error} (h : r.nextGame memory = (.error e, r)) (n : Nat) :
    after memory n r = r := by
  induction n with
  | zero => rfl
  | succ n ih => rw [after, h, ih]

/-- The captured boards are the replay of the game that was returned, in which all moves are
legal. After an error there are only errors. -/
theorem captured_replay (text : List Byte) (h : BoardLinesValid text) (n : Nat) :
    let r := after memory n (GameReader.new memory text true)
    (∀ game, (r.nextGame memory).1 = .ok game →
      (r.nextGame memory).2.capturedBoards = replay none game.commands ∧
      LegalCommands none game.commands ∧
      ∀ first (moves : List MovesCommand), game.commands = .board first :: moves.map .moves →
        ∀ i m, (moves.flatMap MovesCommand.moves)[i]? = some m → ∃ b,
          (r.nextGame memory).2.capturedBoards[i]? = some b ∧
          (r.nextGame memory).2.capturedBoards[i + 1]? = some (moveMake b m).1) ∧
    ∀ e, (r.nextGame memory).1 = .error e →
      ∀ k, ((after memory k (r.nextGame memory).2).nextGame memory).1 = .error e := by
  intro r
  have hr := returned_nextGame memory (between_after memory (between_new memory h) n)
  refine ⟨fun game hgame => ?_, fun e he k => ?_⟩
  · obtain ⟨hcap, hlegal⟩ := hr.ok game hgame
    refine ⟨hcap, hlegal, fun first moves hcommands i m hm => ?_⟩
    rw [hcap, hcommands, replay, replay_moves]
    exact getElem_boardsAfter hm
  · have hsame := hr.error e he
    rw [after_of_error memory hsame, hsame]

end Games

section Example

/-- The file of one game. -/
def variedText : List Byte :=
  bytes "game W varied" ++ eol :: (bytes "title Castling on both sides" ++ eol ::
    (bytes "board r3k2r/1P1p4/p7/4P3/8/8/7P/R3K3 b Qk - 0 1" ++ eol ::
      (bytes "moves d7d5 e5d6" ++ eol :: (bytes "moves e8g8 b7a8n a6a5 e1c1" ++ eol :: [eol]))))

theorem write_variedGame : letI := spreadGlobals
    variedGame.write = variedText := by
  decide +kernel

theorem lines_variedText : lines variedText = [bytes "game W varied",
    bytes "title Castling on both sides",
    bytes "board r3k2r/1P1p4/p7/4P3/8/8/7P/R3K3 b Qk - 0 1", bytes "moves d7d5 e5d6",
    bytes "moves e8g8 b7a8n a6a5 e1c1", []] := by
  have hend : lines [] = [] := by
    rw [lines]
    rfl
  have hempty : lines [eol] = [[]] := by
    rw [← List.nil_append [eol], lines_append (by decide), hend]
  rw [variedText, lines_append (by decide +kernel), lines_append (by decide +kernel),
    lines_append (by decide +kernel), lines_append (by decide +kernel),
    lines_append (by decide +kernel), hempty]

theorem asFen_variedBoard : letI := spreadGlobals
    cString (asFen variedBoard) = bytes "r3k2r/1P1p4/p7/4P3/8/8/7P/R3K3 b Qk - 0 1" := by
  decide +kernel

theorem boardLinesValid_variedText : letI := spreadGlobals
    BoardLinesValid variedText := by
  let _ := spreadGlobals
  obtain ⟨text, htext, -, -, hread⟩ := exists_text plainBoard_variedBoard
  have hbody : ∀ line ∈ lines variedText, (commandOf line).1 = bytes "board" →
      (commandOf line).2 = bytes "r3k2r/1P1p4/p7/4P3/8/8/7P/R3K3 b Qk - 0 1" := by
    rw [lines_variedText]
    decide +kernel
  intro line hline hname memory b hb
  rw [hbody line hline hname, ← asFen_variedBoard, htext, hread memory] at hb
  rw [← Except.ok.inj hb]
  exact valid_variedBoard.1

/-- The game is read, and its boards are those after each of its moves. -/
theorem captured_replay_varied : letI := spreadGlobals
    let memory : Nat → Board := fun _ => initialFields
    let r := GameReader.new memory variedText true
    (r.nextGame memory).1 = .ok variedGame ∧
      (r.nextGame memory).2.capturedBoards = variedBoard :: boardsAfter variedBoard variedMoves ∧
      LegalCommands none variedGame.commands ∧
      ∀ e, ((r.nextGame memory).2.nextGame memory).1 = .error e →
        ∀ k, ((after memory k ((r.nextGame memory).2.nextGame memory).2).nextGame memory).1 =
          .error e := by
  let _ := spreadGlobals
  have hgood : ∀ game ∈ [variedGame], GoodGame game := by simpa using goodGame_variedGame
  intro memory r
  have hok : (r.nextGame memory).1 = .ok variedGame :=
    (nextGame_ready memory hgood (readCommand_games memory hgood
      (by rw [List.flatMap_cons, List.flatMap_nil, List.append_nil, write_variedGame]))).1
  obtain ⟨hfirst, -⟩ := captured_replay memory variedText boardLinesValid_variedText 0
  obtain ⟨-, hsecond⟩ := captured_replay memory variedText boardLinesValid_variedText 1
  obtain ⟨hcaptured, hlegal, -⟩ := hfirst variedGame hok
  have hreplay : replay none variedGame.commands =
      variedBoard :: boardsAfter variedBoard variedMoves :=
    congrArg (variedBoard :: ·)
      (replay_moves [⟨variedMoves.take 2⟩, ⟨variedMoves.drop 2⟩] (b := variedBoard))
  exact ⟨hok, hcaptured.trans hreplay, hlegal, hsecond⟩

end Example

end SoFCheck.Gameset.Replay
