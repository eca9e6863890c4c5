import SoFCheck.Core.FenText
import SoFCheck.Gameset.Reader

namespace SoFCheck.Gameset.RoundTrip

open SoFCheck.Util.CString SoFCheck.Util.Strutil
open SoFCheck.Core.Types SoFCheck.Core.Geometry SoFCheck.Core.BoardState SoFCheck.Core.Moves
open SoFCheck.Core.Validate SoFCheck.Core.InitialPosition SoFCheck.Core.MoveMake
open SoFCheck.Core.Movegen SoFCheck.Core.Sequence SoFCheck.Core.Strutil SoFCheck.Core.MoveParser
open SoFCheck.Core.Fen SoFCheck.Core.FenGrammar SoFCheck.Core.FenText
open SoFCheck.Gameset.Types SoFCheck.Gameset.Reader

section Texts

variable {m : Move} {b : Board}

theorem isVisible_of_not {c : Byte} (h0 : c ≠ 0) (h : isSpace c = false) : isVisible c = true := by
  rw [isVisible, h, bne_iff_ne.mpr h0]
  rfl

theorem word_moveToStr {c : Color} (hwf : m.isWellFormed c = true) (htag : m.tag = 0) :
    Word (moveToStr m) := by
  obtain ⟨s, t, hm⟩ := exists_mkMove hwf htag
  have hcell : ∀ s : Square, isVisible (ySubToChar (coordY (toCoord s))) = true ∧
      isVisible (xSubToChar (coordX (toCoord s))) = true := by decide
  have hpiece : ∀ k : MoveKind, isVisible (transpos (moveKindPromotePiece k)) = true := by
    intro k
    cases k <;> decide
  rw [hm, moveToStr]
  split
  · exact ⟨by decide, by decide +kernel⟩
  · refine ⟨by simp, ?_⟩
    intro c hc
    simp only [List.mem_append, List.mem_cons, List.not_mem_nil, or_false] at hc
    obtain (rfl | rfl | rfl | rfl) | hc := hc
    · exact (hcell s).1
    · exact (hcell s).2
    · exact (hcell t).1
    · exact (hcell t).2
    · split at hc
      · rw [List.mem_singleton.mp hc]
        exact hpiece _
      · cases hc

theorem eol_not_mem_of_word {w : List Byte} (h : Word w) : eol ∉ w :=
  fun hc => absurd (h.visible eol hc) (by decide)

theorem eol_not_mem_append {u v : List Byte} (hu : eol ∉ u) (hv : eol ∉ v) :
    eol ∉ u ++ (' ' : Byte) :: v := by
  simp only [List.mem_append, List.mem_cons, not_or]
  exact ⟨hu, by decide, hv⟩

/-- A position is written on one line, without a space on either side. -/
theorem trimmed_text {f : Fen} (h : f.trailing = []) : Trimmed f.text ∧ eol ∉ f.text := by
  have hmem : ∀ c ∈ f.text, isVisible c = true ∨ c = ' ' := by
    intro c hc
    obtain hv | hs | ht := mem_text hc
    · exact Or.inl (isVisible_of_not hv.1 hv.2)
    · exact Or.inr hs
    · rw [h] at ht
      cases ht
  refine ⟨⟨?_, ?_⟩, fun hc => absurd (hmem eol hc) (by decide)⟩
  · obtain ⟨r, rows, hrows⟩ := List.exists_cons_of_length_pos (l := f.rows) (by rw [f.eight]; decide)
    obtain ⟨run, runs, hruns⟩ : ∃ run runs, r.runs = run :: runs := by
      cases hr : r.runs with
      | nil =>
        have := r.full
        rw [hr] at this
        cases this
      | cons run runs => exact ⟨run, runs, rfl⟩
    have hhead : f.text.head? = some run.text := by
      rw [Fen.text, hrows, rowsText_cons, Row.text, hruns]
      rfl
    have hvisible : ∀ run : Run, isSpace run.text = false := by
      intro run
      cases run with
      | empty n =>
        revert n
        decide
      | piece c p => cases c <;> cases p <;> decide
    intro c hc
    rw [hhead] at hc
    cases hc
    exact hvisible run
  · intro c hc
    have hlast : f.text.getLast? = f.moveNumber.text.getLast? := by
      rw [Fen.text, h, List.append_nil, List.getLast?_eq_some_getLast f.moveNumber.nonempty]
      simp [List.getLast?_cons, List.getLast?_eq_some_getLast f.moveNumber.nonempty]
    rw [hlast] at hc
    exact not_isSpace_of_isVisible
      (token_of_isDigit (f.moveNumber.digits c (List.mem_of_mem_getLast? hc)))

/-- A position as a line of a game has it. -/
structure PlainBoard [Globals] (b : Board) : Prop where
  valid : Valid b
  unused : b.unused = 0

variable [Globals]

theorem exists_text (h : PlainBoard b) : ∃ text, cString (asFen b) = text ∧ Trimmed text ∧
    eol ∉ text ∧ ∀ memory, fromFen memory (cString text ++ [0]) = .ok b := by
  obtain ⟨hr, -⟩ := valid_iff.mp h.valid
  have hcastling : b.castling &&& ~~~Castling.all = 0 := by
    have hc := hr.castlingAll
    rw [← hc, BitVec.and_assoc, BitVec.and_not_self]
    exact BitVec.and_zero
  obtain ⟨f, ht, htr, -, -, -, hboard⟩ := exists_denoting hr.cells hcastling
    (or_iff_not_imp_left.mpr fun he => (hr.enpassantRow he).2.2) h.unused h.valid.2
  have h0 := zero_not_mem_text f
  obtain ⟨htrim, heol⟩ := trimmed_text htr
  refine ⟨f.text, by rw [ht, cString_append_zero h0], htrim, heol, ?_⟩
  intro memory
  rw [cString_eq_self h0, fromFen_text, hboard]

theorem text_injective {b' : Board} (h : PlainBoard b) (h' : PlainBoard b')
    (he : cString (asFen b) = cString (asFen b')) : b = b' := by
  obtain ⟨text, ht, -, -, hread⟩ := exists_text h
  obtain ⟨text', ht', -, -, hread'⟩ := exists_text h'
  have htext : text = text' := ht.symm.trans (he.trans ht')
  have hok := hread initialFields
  rw [htext, hread' initialFields] at hok
  exact (Except.ok.inj hok).symm

theorem plainBoard_initialPosition : PlainBoard initialPosition :=
  ⟨valid_initialPosition, unused_initialPosition⟩

theorem asFen_initialPosition : cString (asFen initialPosition) = initialPositionFen := by
  have hfields : asFen initialPosition = asFen initialFields := by
    obtain ⟨hcells, hside, hcast, hep, -⟩ := initialPosition_fields
    obtain ⟨h, w, k, a, p, hu, -⟩ := update_spec initialFields
    have hcounter : initialPosition.moveCounter = initialFields.moveCounter := by
      rw [initialPosition, hu]
    have hnumber : initialPosition.moveNumber = initialFields.moveNumber := by
      rw [initialPosition, hu]
    have hrows : rowCells initialPosition = rowCells initialFields := by
      funext i
      rw [rowCells, hcells]
      rfl
    simp only [asFen, cellsFen, castlingFen, enpassantFen, isKingsideCastling, isQueensideCastling,
      hrows, hside, hcast, hep, hcounter, hnumber]
    rfl
  rw [hfields]
  decide +kernel

theorem eq_initialPosition (h : PlainBoard b) (he : cString (asFen b) = initialPositionFen) :
    b = initialPosition :=
  text_injective h plainBoard_initialPosition (he.trans asFen_initialPosition.symm)

end Texts

section Lines

variable [Globals] {memory : Nat → Board} {r : GameReader} {rest : List Byte}

omit [Globals] in
theorem getline_append {line : List Byte} (h : eol ∉ line) (rest : List Byte) :
    getline (line ++ eol :: rest) = some (line, rest) := by
  have hline : ∀ c ∈ line, (c != eol) = true := fun c hc => bne_iff_ne.mpr (ne_of_mem_of_not_mem hc h)
  have hne : line ++ eol :: rest ≠ [] := by simp
  rw [getline.eq_2 _ hne, List.takeWhile_append_of_pos hline, List.dropWhile_append_of_pos hline,
    List.takeWhile_cons_of_neg (by simp), List.dropWhile_cons_of_neg (by simp), List.append_nil]
  rfl

/-- The reader past a line. -/
def nextLine (r : GameReader) (rest : List Byte) : GameReader :=
  { r with stream := rest, line := r.line + 1 }

omit [Globals] in
theorem readLine_append {line : List Byte} (h : eol ∉ line)
    (hs : r.stream = line ++ eol :: rest) : r.readLine = (some line, nextLine r rest) := by
  rw [GameReader.readLine, hs, getline_append h]
  rfl

omit [Globals] in
theorem trim_line {name body : List Byte} (hn : Word name)
    (hcomment : name.head? ≠ some ('#' : Byte)) (hb : Trimmed body) :
    ¬(trim (name ++ (' ' : Byte) :: body) = [] ∨
      (trim (name ++ (' ' : Byte) :: body)).head? = some ('#' : Byte)) := by
  have hname : (scanToken (trim (name ++ (' ' : Byte) :: body))).1 = name := by
    rw [hn.scanToken_trim hb]
  intro h
  cases htr : trim (name ++ (' ' : Byte) :: body) with
  | nil =>
    rw [htr] at hname
    exact hn.nonempty hname.symm
  | cons c line =>
    rw [htr] at h hname
    have hc : c = '#' := Option.some.inj (h.resolve_left (by simp))
    apply hcomment
    rw [← hname, hc, scanToken, List.takeWhile_cons_of_pos (by decide)]
    rfl

theorem tryReadCommand_line (memory : Nat → Board) (rest : List Byte) {name body : List Byte} (hn : Word name)
    (hcomment : name.head? ≠ some ('#' : Byte)) (hb : Trimmed body) (heol : eol ∉ body)
    (hs : r.stream = name ++ (' ' : Byte) :: body ++ eol :: rest) :
    r.tryReadCommand memory = (nextLine r rest).readBody memory name body := by
  have hline := eol_not_mem_append (eol_not_mem_of_word hn) heol
  rw [GameReader.tryReadCommand, readLine_append hline hs]
  dsimp only
  rw [if_neg (trim_line hn hcomment hb), hn.scanToken_trim hb]

theorem tryReadCommand_name (memory : Nat → Board) (rest : List Byte) {name : List Byte} (hn : Word name)
    (hcomment : name.head? ≠ some ('#' : Byte)) (hs : r.stream = name ++ eol :: rest) :
    r.tryReadCommand memory = (nextLine r rest).readBody memory name [] := by
  rw [GameReader.tryReadCommand, readLine_append (eol_not_mem_of_word hn) hs]
  dsimp only
  rw [hn.trimmed.trim_eq, if_neg (by simp [hn.nonempty, hcomment]), hn.scanToken_eq]

theorem tryReadCommand_empty (hs : r.stream = eol :: rest) :
    r.tryReadCommand memory = (none, nextLine r rest) := by
  rw [GameReader.tryReadCommand, readLine_append (show eol ∉ [] by simp) hs]
  rfl

theorem tryReadCommand_end (hs : r.stream = []) :
    r.tryReadCommand memory = (some (.error (.reject .endOfStream)), r) := by
  rw [GameReader.tryReadCommand, GameReader.readLine, hs]
  rfl

theorem readCommand_some {result : CommandResult} {r' : GameReader}
    (h : r.tryReadCommand memory = (some result, r')) : r.readCommand memory = (result, r') := by
  rw [GameReader.readCommand, h]

theorem readCommand_none {r' : GameReader} (h : r.tryReadCommand memory = (none, r')) :
    r.readCommand memory = r'.readCommand memory := by
  rw [GameReader.readCommand, h]

end Lines

section Commands

variable [Globals] {memory : Nat → Board} {r : GameReader} {rest : List Byte} {b : Board}
  {ms : List Move}

/-- The next command of the stream, and what is left after it. -/
structure Reads (memory : Nat → Board) (r : GameReader) (command : AnyCommand) (rest : List Byte)
    (lastBoard : Option Board) : Prop where
  result : (r.readCommand memory).1 = .ok command
  stream : (r.readCommand memory).2.stream = rest
  lastBoard : (r.readCommand memory).2.lastBoard = lastBoard

theorem reads_of_body {name body : List Byte} {command : AnyCommand} (r' : GameReader)
    {lastBoard : Option Board}
    (h : r.tryReadCommand memory = (nextLine r rest).readBody memory name body)
    (hbody : (nextLine r rest).readBody memory name body = (some (.ok command), r'))
    (hlast : r'.lastBoard = lastBoard) : Reads memory r command rest lastBoard := by
  have hstream := GameReader.stream_readBody memory (nextLine r rest) name body
  rw [hbody] at hstream
  have hr := readCommand_some (h.trans hbody)
  exact ⟨by rw [hr], by rw [hr]; exact hstream, by rw [hr]; exact hlast⟩

/-- A label that can be told from a missing one. -/
def GoodLabel (label : Option (List Byte)) : Prop := ∀ l ∈ label, Word l ∧ l ≠ bytes "-"

omit [Globals] in
theorem word_names : Word (bytes "game") ∧ Word (bytes "title") ∧ Word (bytes "start") ∧
    Word (bytes "board") ∧ Word (bytes "moves") ∧ Word (bytes "-") := by
  simp only [bytes, String.reduceToList]
  decide +kernel

omit [Globals] in
theorem winnerFromChar_winnerToChar (w : Winner) :
    winnerFromChar (winnerToChar w) = some w ∧ isVisible (winnerToChar w) = true := by
  cases w <;> decide

theorem reads_game (memory : Nat → Board) (rest : List Byte) {command : GameCommand} (hl : GoodLabel command.label)
    (hs : r.stream = command.write ++ rest) : Reads memory r (.game command) rest none := by
  obtain ⟨winner, label⟩ := command
  obtain ⟨hw, hv⟩ := winnerFromChar_winnerToChar winner
  have hword : Word (label.getD (bytes "-")) := by
    cases label with
    | none => exact word_names.2.2.2.2.2
    | some l => exact (hl l rfl).1
  have hlabel : (if label.getD (bytes "-") = bytes "-" then none
      else some (label.getD (bytes "-"))) = label := by
    cases label with
    | none => rfl
    | some l => exact if_neg (hl l rfl).2
  have hwinner : Word [winnerToChar winner] := ⟨by simp, by simpa using hv⟩
  have hbody := hword.trimmed.append_left hwinner hword.nonempty
  have hscan := hwinner.scanToken_append (label.getD (bytes "-"))
  rw [dropWhile_isSpace hword.trimmed.head] at hscan
  have heol := eol_not_mem_append (eol_not_mem_of_word hwinner) (eol_not_mem_of_word hword)
  have hline := tryReadCommand_line memory rest word_names.1 (by decide) hbody heol
    (by rw [hs, GameCommand.write]; simp [bytes])
  refine reads_of_body { nextLine r rest with lastBoard := none } hline ?_ rfl
  rw [GameReader.readBody, if_pos rfl, GameReader.readGame, hscan]
  dsimp only
  rw [hword.scanToken_eq]
  simp only [if_neg hword.nonempty, hw, hlabel]
  rfl

theorem reads_title (memory : Nat → Board) (rest : List Byte) (command : TitleCommand)
    (htrim : Trimmed command.title)
    (heol : eol ∉ command.title) (hs : r.stream = command.write ++ rest) :
    Reads memory r (.title command) rest r.lastBoard := by
  have hline := tryReadCommand_line memory rest word_names.2.1 (by decide) htrim heol
    (by rw [hs, TitleCommand.write]; simp [bytes])
  refine reads_of_body (nextLine r rest) hline ?_ rfl
  rw [GameReader.readBody, if_neg (by decide), if_pos rfl]

theorem reads_board (memory : Nat → Board) {command : BoardCommand} (hb : PlainBoard command.board)
    (hs : r.stream = command.write ++ rest) :
    Reads memory r (.board command) rest (some command.board) := by
  obtain ⟨b⟩ := command
  obtain ⟨text, htext, htrim, heol, hread⟩ := exists_text hb
  rw [BoardCommand.write] at hs
  dsimp only at hs
  split_ifs at hs with hstart
  · have hline := tryReadCommand_name memory rest word_names.2.2.1 (by decide)
      (by rw [hs]; simp [bytes])
    refine reads_of_body ((nextLine r rest).setLastBoard initialPosition) hline ?_
      (congrArg some (eq_initialPosition hb hstart).symm)
    rw [GameReader.readBody, if_neg (by decide), if_neg (by decide), if_pos rfl]
    rw [← eq_initialPosition hb hstart]
  · rw [htext] at hs
    have hline := tryReadCommand_line memory rest word_names.2.2.2.1 (by decide) htrim heol
      (by rw [hs]; simp [bytes])
    refine reads_of_body ((nextLine r rest).setLastBoard b) hline ?_ rfl
    rw [GameReader.readBody, if_neg (by decide), if_neg (by decide),
      if_neg (by decide), if_pos rfl, GameReader.readBoard, hread]
    rfl

/-- A move without a tag that may be made on the board. -/
structure PlayedMove (b : Board) (m : Move) : Prop where
  tag : m.tag = 0
  wellFormed : m.isWellFormed b.side = true
  valid : isMoveValid b m = true
  legal : isMoveLegal b m = true

theorem PlayedMove.valid_moveMake {m : Move} (hb : Valid b) (h : PlayedMove b m) :
    Valid (moveMake b m).1 :=
  SoFCheck.Core.Sequence.valid_moveMake hb ⟨⟨h.wellFormed, Or.inr h.valid⟩, h.legal⟩

theorem valid_of_played (hb : Valid b) (h : Along PlayedMove b ms) : Valid (makeAll b ms).1 := by
  induction ms generalizing b with
  | nil => exact hb
  | cons m ms ih => exact ih (h.1.valid_moveMake hb) h.2

theorem word_of_played (h : Along PlayedMove b ms) : ∀ w ∈ ms.map moveToStr, Word w := by
  induction ms generalizing b with
  | nil => simp
  | cons m ms ih =>
    rw [List.map_cons, List.forall_mem_cons]
    exact ⟨word_moveToStr h.1.wellFormed h.1.tag, ih h.2⟩

theorem readMoves_played (acc : List Move) (hb : Valid b) (h : Along PlayedMove b ms)
    (hlast : r.lastBoard = some b) : ∃ r',
      GameReader.readMoves (ms.map moveToStr) acc b r = (.ok (.moves ⟨acc ++ ms⟩), r') ∧
        r'.lastBoard = some (makeAll b ms).1 := by
  induction ms generalizing acc b r with
  | nil => exact ⟨r, by rw [List.append_nil]; rfl, hlast⟩
  | cons m ms ih =>
    have hparse := moveParse_of_valid (valid_iff.mp hb).1 h.1.tag h.1.wellFormed h.1.valid
    obtain ⟨r', hr, hb'⟩ := ih (acc ++ [m]) (h.1.valid_moveMake hb) h.2
      (r := r.setLastBoard (moveMake b m).1) rfl
    refine ⟨r', ?_, hb'⟩
    rw [List.append_assoc, List.singleton_append] at hr
    rw [List.map_cons, GameReader.readMoves, hparse, h.1.wellFormed, h.1.valid, h.1.legal]
    exact hr

theorem reads_moves (memory : Nat → Board) {command : MovesCommand} (hne : command.moves ≠ [])
    (hb : Valid b) (h : Along PlayedMove b command.moves) (hlast : r.lastBoard = some b)
    (hs : r.stream = command.write ++ rest) :
    Reads memory r (.moves command) rest (some (makeAll b command.moves).1) := by
  obtain ⟨_ | ⟨m, ms⟩⟩ := command
  · exact absurd rfl hne
  have hwords := word_of_played h
  rw [List.map_cons, List.forall_mem_cons] at hwords
  obtain ⟨hw, hws⟩ := hwords
  have htrim := trimmed_words hw hws
  have heol : eol ∉ moveToStr m ++ (ms.map moveToStr).flatMap fun w => (' ' : Byte) :: w :=
    fun he => absurd (mem_words hw hws he) (by decide)
  have h0 : (0 : Byte) ∉ moveToStr m ++ (ms.map moveToStr).flatMap fun w => (' ' : Byte) :: w :=
    fun he => absurd (mem_words hw hws he) (by decide)
  have hline := tryReadCommand_line memory rest word_names.2.2.2.2.1 (by decide) htrim heol
    (by rw [hs, MovesCommand.write]; simp [bytes, List.flatMap_map])
  have hlast' : (nextLine r rest).lastBoard = some b := hlast
  obtain ⟨r', hr, hb'⟩ := readMoves_played [] hb h hlast'
  refine reads_of_body r' hline ?_ hb'
  rw [GameReader.readBody, if_neg (by decide), if_neg (by decide),
    if_neg (by decide), if_neg (by decide), if_pos rfl, hlast']
  dsimp only
  rw [if_neg (by simp [hw.nonempty]), cString_eq_self h0, tokensOf_words hw hws]
  rw [List.map_cons, List.nil_append] at hr
  rw [hr]
  rfl

end Commands

section Games

variable [Globals] {memory : Nat → Board} {r : GameReader} {tail : List Byte} {game : Game}
  {commands : List InnerCommand} {games : List Game}

/-- The commands of a game; `lastBoard` is the board that the moves go on from. -/
def GoodCommands : Option Board → List InnerCommand → Prop
  | _, [] => True
  | _, .board command :: commands =>
    PlainBoard command.board ∧ GoodCommands (some command.board) commands
  | none, .moves _ :: _ => False
  | some b, .moves command :: commands => command.moves ≠ [] ∧ Along PlayedMove b command.moves ∧
      GoodCommands (some (makeAll b command.moves).1) commands

/-- The games that the format can tell apart. -/
structure GoodGame (game : Game) : Prop where
  label : GoodLabel game.header.label
  title : ∀ title ∈ game.title, Trimmed title ∧ eol ∉ title
  commands : GoodCommands none game.commands

theorem gameLoop_reads {command : AnyCommand} {rest : List Byte} {lastBoard : Option Board}
    (h : Reads memory r command rest lastBoard) : r.gameLoop memory game =
      match commandSplit command with
      | .game command =>
        (.ok game, { (r.readCommand memory).2 with lastCommand := .ok (.game command) })
      | .metadata command => (r.readCommand memory).2.gameLoop memory (game.apply command)
      | .inner command => (r.readCommand memory).2.gameLoop memory
          { game with commands := game.commands ++ [command] } :=
  GameReader.gameLoop_ok (Prod.ext h.result rfl)

/-- The reader at the empty line after the commands of a game. -/
theorem gameLoop_commands (memory : Nat → Board) (game : Game)
    (hgood : GoodCommands r.lastBoard commands)
    (hvalid : ∀ b ∈ r.lastBoard, Valid b)
    (hs : r.stream = commands.flatMap InnerCommand.write ++ tail) :
    ∃ r' : GameReader, r'.stream = tail ∧ r.gameLoop memory game =
      r'.gameLoop memory { game with commands := game.commands ++ commands } := by
  induction commands generalizing r game with
  | nil => exact ⟨r, hs, by rw [List.append_nil]⟩
  | cons command commands ih =>
    rw [List.flatMap_cons, List.append_assoc] at hs
    obtain command | command := command
    · have hread := reads_board memory hgood.1 hs
      obtain ⟨r', hr', hloop⟩ := ih (r := (r.readCommand memory).2)
        { game with commands := game.commands ++ [.board command] }
        (by rw [hread.lastBoard]; exact hgood.2)
        (by rw [hread.lastBoard]; intro b hb; cases hb; exact hgood.1.valid) hread.stream
      refine ⟨r', hr', ?_⟩
      rw [gameLoop_reads hread, commandSplit]
      dsimp only
      rw [hloop, List.append_assoc]
      rfl
    · cases hlast : r.lastBoard with
      | none =>
        rw [hlast] at hgood
        exact hgood.elim
      | some b =>
        rw [hlast] at hgood
        have hb := hvalid b hlast
        have hread := reads_moves memory hgood.1 hb hgood.2.1 hlast hs
        obtain ⟨r', hr', hloop⟩ := ih (r := (r.readCommand memory).2)
          { game with commands := game.commands ++ [.moves command] }
          (by rw [hread.lastBoard]; exact hgood.2.2)
          (by rw [hread.lastBoard]; intro b hb'; cases hb'; exact valid_of_played hb hgood.2.1)
          hread.stream
        refine ⟨r', hr', ?_⟩
        rw [gameLoop_reads hread, commandSplit]
        dsimp only
        rw [hloop, List.append_assoc]
        rfl

/-- The part of a game after its header. -/
def bodyText (game : Game) : List Byte :=
  writeTitle game.title ++ game.commands.flatMap InnerCommand.write ++ [eol]

/-- What the reader holds before some games are read: the header of the first
one has been taken from the stream. -/
def Ready (r : GameReader) : List Game → Prop
  | [] => r.stream = [] ∧ r.lastCommand = .error (.reject .endOfStream)
  | game :: games => r.stream = bodyText game ++ games.flatMap Game.write ∧
      r.lastBoard = none ∧ r.lastCommand = .ok (.game game.header)

theorem readCommand_games (memory : Nat → Board) (hgood : ∀ game ∈ games, GoodGame game)
    (hs : r.stream = games.flatMap Game.write) :
    Ready { (r.readCommand memory).2 with lastCommand := (r.readCommand memory).1 } games := by
  cases games with
  | nil =>
    rw [readCommand_some (tryReadCommand_end hs)]
    exact ⟨hs, rfl⟩
  | cons game games =>
    have hread := reads_game memory (bodyText game ++ games.flatMap Game.write)
      (hgood game (List.mem_cons_self ..)).label
      (by rw [hs, List.flatMap_cons, Game.write, bodyText]; simp)
    exact ⟨hread.stream, hread.lastBoard, hread.result⟩

theorem gameLoop_end (h : Ready { (r.readCommand memory).2 with
      lastCommand := (r.readCommand memory).1 } games) : r.gameLoop memory game =
    (.ok game, { (r.readCommand memory).2 with lastCommand := (r.readCommand memory).1 }) := by
  cases games with
  | nil =>
    have hend : (r.readCommand memory).1 = .error (.reject .endOfStream) := h.2
    rw [GameReader.gameLoop_error (Prod.ext hend rfl), if_pos rfl, hend]
  | cons game' games =>
    have hnext : (r.readCommand memory).1 = .ok (.game game'.header) := h.2.2
    rw [GameReader.gameLoop_ok (Prod.ext hnext rfl), hnext]
    rfl

theorem gameLoop_title (memory : Nat → Board)
    (htitle : ∀ title ∈ game.title, Trimmed title ∧ eol ∉ title)
    (hs : r.stream = bodyText game ++ tail) :
    ∃ r' : GameReader, r'.stream = game.commands.flatMap InnerCommand.write ++ (eol :: tail) ∧
      r'.lastBoard = r.lastBoard ∧ r.gameLoop memory (Game.new game.header) =
        r'.gameLoop memory { game with commands := [] } := by
  obtain ⟨header, title, commands⟩ := game
  rw [bodyText] at hs
  cases title with
  | none => exact ⟨r, by rw [hs]; simp; rfl, rfl, rfl⟩
  | some title =>
    obtain ⟨htrim, heol⟩ := htitle title rfl
    have hread := reads_title memory
      (commands.flatMap InnerCommand.write ++ (eol :: tail)) ⟨title⟩ htrim heol (by rw [hs]; simp; rfl)
    refine ⟨(r.readCommand memory).2, hread.stream, hread.lastBoard, ?_⟩
    rw [gameLoop_reads hread]
    rfl

theorem nextGame_ready (memory : Nat → Board)
    (hgood : ∀ g ∈ game :: games, GoodGame g) (h : Ready r (game :: games)) :
    (r.nextGame memory).1 = .ok game ∧ Ready (r.nextGame memory).2 games := by
  obtain ⟨hgame, hgames⟩ := List.forall_mem_cons.mp hgood
  obtain ⟨hs, hlast, hcommand⟩ := h
  obtain ⟨r₁, hs₁, hlast₁, htitle⟩ := gameLoop_title memory
    (r := { r with capturedBoards := [] }) hgame.title hs
  have hnone : r₁.lastBoard = none := hlast₁.trans hlast
  obtain ⟨r₂, hs₂, hloop⟩ := gameLoop_commands memory
    { game with commands := [] } (by rw [hnone]; exact hgame.commands)
    (by simp [hnone]) hs₁
  have hready := readCommand_games memory (r := nextLine r₂ (games.flatMap Game.write))
    hgames rfl
  rw [← readCommand_none (tryReadCommand_empty hs₂)] at hready
  have hnext : r.nextGame memory = (.ok game,
      { (r₂.readCommand memory).2 with lastCommand := (r₂.readCommand memory).1 }) := by
    rw [GameReader.nextGame]
    split
    · rename_i e he
      rw [hcommand] at he
      cases he
    · rename_i command hc
      rw [hcommand] at hc
      cases hc
      rw [htitle, hloop, gameLoop_end hready]
      rfl
    · rename_i command hother hc
      exact absurd (hc.symm.trans hcommand) fun he => hother _ (Except.ok.inj he)
  rw [hnext]
  exact ⟨rfl, hready⟩

theorem nextGame_end (h : Ready r []) : r.nextGame memory = (.error (.reject .endOfStream), r) := by
  rw [GameReader.nextGame, h.2]

theorem games_ready (hgood : ∀ game ∈ games, GoodGame game) (h : Ready r games) (k : Nat) :
    GameReader.games memory (games.length + k) r =
      games.map .ok ++ List.replicate k (.error (.reject .endOfStream)) := by
  induction games generalizing r with
  | nil =>
    induction k with
    | zero => rfl
    | succ k ih =>
      rw [List.length_nil, Nat.zero_add] at ih ⊢
      rw [GameReader.games, nextGame_end h, ih]
      rfl
  | cons game games ih =>
    obtain ⟨hok, hready⟩ := nextGame_ready memory hgood h
    have hlen : (game :: games).length + k = games.length + k + 1 := by
      rw [List.length_cons]
      omega
    rw [hlen, GameReader.games, hok, ih (List.forall_mem_cons.mp hgood).2 hready]
    rfl

/-- The reader returns the games that were written, and then there are no more. -/
theorem games_write (memory : Nat → Board) (captureBoards : Bool)
    (hgood : ∀ game ∈ games, GoodGame game) (k : Nat) :
    GameReader.games memory (games.length + k)
        (GameReader.new memory (games.flatMap Game.write) captureBoards) =
      games.map .ok ++ List.replicate k (.error (.reject .endOfStream)) :=
  games_ready hgood (readCommand_games memory hgood rfl) k

/-- A game with a title, whose moves are in two lines. -/
def variedGame : Game where
  header := ⟨.white, some (bytes "varied")⟩
  title := some (bytes "Castling on both sides")
  commands := [.board ⟨variedBoard⟩, .moves ⟨variedMoves.take 2⟩, .moves ⟨variedMoves.drop 2⟩]

instance decidablePlayedMove (b : Board) (m : Move) : Decidable (PlayedMove b m) :=
  decidable_of_iff (m.tag = 0 ∧ m.isWellFormed b.side = true ∧ isMoveValid b m = true ∧
      isMoveLegal b m = true)
    ⟨fun h => ⟨h.1, h.2.1, h.2.2.1, h.2.2.2⟩, fun h => ⟨h.tag, h.wellFormed, h.valid, h.legal⟩⟩

omit [Globals] in
theorem played_variedMoves : letI := spreadGlobals
    Along PlayedMove variedBoard (variedMoves.take 2) ∧
      Along PlayedMove (makeAll variedBoard (variedMoves.take 2)).1 (variedMoves.drop 2) := by
  decide +kernel

omit [Globals] in
theorem plainBoard_variedBoard : letI := spreadGlobals
    PlainBoard variedBoard := by
  let _ := spreadGlobals
  obtain ⟨h, w, k, a, p, hu, -⟩ := update_spec variedFields
  exact ⟨valid_variedBoard, by rw [variedBoard, hu]; rfl⟩

omit [Globals] in
theorem goodGame_variedGame : letI := spreadGlobals
    GoodGame variedGame := by
  let _ := spreadGlobals
  have htexts : Word (bytes "varied") ∧
      (∀ c ∈ (bytes "Castling on both sides").head?, isSpace c = false) ∧
      (∀ c ∈ (bytes "Castling on both sides").getLast?, isSpace c = false) ∧
      eol ∉ bytes "Castling on both sides" := by decide +kernel
  obtain ⟨hlabel, hhead, hlast, heol⟩ := htexts
  obtain ⟨hfirst, hsecond⟩ := played_variedMoves
  refine ⟨?_, ?_, plainBoard_variedBoard, by decide, hfirst, by decide, hsecond, trivial⟩
  · intro l hl
    cases hl
    exact ⟨hlabel, by decide⟩
  · intro title ht
    cases ht
    exact ⟨⟨hhead, hlast⟩, heol⟩

omit [Globals] in
theorem games_write_variedGame : letI := spreadGlobals
    GameReader.games (fun _ => initialFields) 2
        (GameReader.new (fun _ => initialFields) ([variedGame].flatMap Game.write) false) =
      [.ok variedGame, .error (.reject .endOfStream)] :=
  letI := spreadGlobals
  @games_write _ [variedGame] (fun _ => initialFields) false
    (by simpa using goodGame_variedGame) 1

end Games

end SoFCheck.Gameset.RoundTrip
