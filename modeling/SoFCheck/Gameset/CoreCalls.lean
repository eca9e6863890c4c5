import SoFCheck.Gameset.Replay

namespace SoFCheck.Gameset.CoreCalls

open SoFCheck.Util.CString SoFCheck.Util.Strutil
open SoFCheck.Core.Types SoFCheck.Core.BoardState SoFCheck.Core.Moves SoFCheck.Core.Validate
open SoFCheck.Core.InitialPosition SoFCheck.Core.MoveMake SoFCheck.Core.Movegen
open SoFCheck.Core.Fen SoFCheck.Core.FenGrammar SoFCheck.Core.MoveParser
open SoFCheck.Gameset.Types SoFCheck.Gameset.Reader SoFCheck.Gameset.RoundTrip
open SoFCheck.Gameset.Replay

/-- What the reader does with the last board: it is set by a `start` or a `board`
command, or one of the functions of the chess core is executed on it. -/
inductive Call where
  | sets (board : Board)
  | isMoveValid (board : Board) (move : Move)
  | isMoveLegal (board : Board) (move : Move)
  | moveMake (board : Board) (move : Move)

section Model

variable [Globals]

/-- The precondition of the functions of the chess core. -/
def Call.Safe : Call → Prop
  | .sets _ => True
  | .isMoveValid b _ | .isMoveLegal b _ | .moveMake b _ => (validate b).1 = .ok

/-- The calls of the loop over the moves; the tests are made until one fails. -/
def movesCalls : List (List Byte) → Board → List Call
  | [], _ => []
  | srcMove :: srcMoves, lastBoard =>
    let move := moveParse srcMove lastBoard
    if !move.isWellFormed lastBoard.side then []
    else .isMoveValid lastBoard move ::
      if !isMoveValid lastBoard move then []
      else .isMoveLegal lastBoard move ::
        if !isMoveLegal lastBoard move then []
        else .moveMake lastBoard move :: movesCalls srcMoves (moveMake lastBoard move).1

variable (memory : Nat → Board)

def bodyCalls (r : GameReader) (name body : List Byte) : List Call :=
  if name = bytes "start" then [.sets initialPosition]
  else if name = bytes "board" then
    match fromFen (memory r.line) (cString body ++ [0]) with
    | .ok board => [.sets board]
    | .error _ => []
  else if name = bytes "moves" then
    match r.lastBoard with
    | none => []
    | some lastBoard =>
      if body = [] then [] else movesCalls (tokensOf isSpace (cString body)) lastBoard
  else []

/-- The calls of `tryReadCommand`. -/
def lineCalls (r : GameReader) : List Call :=
  match r.readLine with
  | (none, _) => []
  | (some maybeLine, r) =>
    let line := trim maybeLine
    if line = [] ∨ line.head? = some ('#' : Byte) then []
    else bodyCalls memory r (scanToken line).1 (scanToken line).2

/-- The calls of `readCommand`. -/
def commandCalls (r : GameReader) : List Call :=
  match _h : r.tryReadCommand memory with
  | (some _, _) => lineCalls memory r
  | (none, r') => lineCalls memory r ++ commandCalls r'
  termination_by r.stream.length
  decreasing_by
    have hr := GameReader.length_tryReadCommand memory r
    rw [_h] at hr
    exact hr.resolve_left (fun he => by cases he)

variable {memory} in
theorem commandCalls_some {r r' : GameReader} {result : CommandResult}
    (h : r.tryReadCommand memory = (some result, r')) :
    commandCalls memory r = lineCalls memory r := by
  rw [commandCalls, h]

variable {memory} in
theorem commandCalls_none {r r' : GameReader} (h : r.tryReadCommand memory = (none, r')) :
    commandCalls memory r = lineCalls memory r ++ commandCalls memory r' := by
  rw [commandCalls, h]

/-- The calls of the loop over the commands of a game. -/
def gameCalls (r : GameReader) : List Call :=
  match _h : r.readCommand memory with
  | (.error _, _) => commandCalls memory r
  | (.ok command, r') =>
    match commandSplit command with
    | .game _ => commandCalls memory r
    | _ => commandCalls memory r ++ gameCalls r'
  termination_by r.stream.length
  decreasing_by exact GameReader.length_readCommand memory _h

variable {memory} in
theorem gameCalls_error {r r' : GameReader} {e : Stop Error}
    (h : r.readCommand memory = (.error e, r')) : gameCalls memory r = commandCalls memory r := by
  rw [gameCalls]
  split
  · rfl
  · rename_i h'
    rw [h] at h'
    cases h'

variable {memory} in
theorem gameCalls_ok {r r' : GameReader} {command : AnyCommand}
    (h : r.readCommand memory = (.ok command, r')) : gameCalls memory r =
      match commandSplit command with
      | .game _ => commandCalls memory r
      | _ => commandCalls memory r ++ gameCalls memory r' := by
  rw [gameCalls]
  split
  · rename_i h'
    rw [h] at h'
    cases h'
  · rename_i h'
    rw [h] at h'
    cases h'
    rfl

/-- The calls of `nextGame`. -/
def nextCalls (r : GameReader) : List Call :=
  match r.lastCommand with
  | .ok (.game _) => gameCalls memory { r with capturedBoards := [] }
  | _ => []

/-- The calls while some games are read. -/
def laterCalls : Nat → GameReader → List Call
  | 0, _ => []
  | n + 1, r => nextCalls memory r ++ laterCalls n (r.nextGame memory).2

/-- All calls of a reader that is made and then asked for `n` games. -/
def calls (text : List Byte) (captureBoards : Bool) (n : Nat) : List Call :=
  commandCalls memory ⟨text, captureBoards, 0, .error (.reject .endOfStream), none, []⟩ ++
    laterCalls memory n (GameReader.new memory text captureBoards)

end Model

section Runs

variable [Globals] (memory : Nat → Board) {r r' : GameReader} {past : List Call} {b : Board}

/-- A board that the reader has just set and goes on to try a move on passes the validation. -/
def FirstTriesValid (l : List Call) : Prop :=
  ∀ past b m rest, l = past ++ .sets b :: .isMoveValid b m :: rest → (validate b).1 = .ok

theorem FirstTriesValid.of_append {rest : List Call} (h : FirstTriesValid (past ++ rest)) :
    FirstTriesValid past := by
  rintro past' b m rest' rfl
  exact h past' b m (rest' ++ rest) (by simp)

/-- The calls so far were safe, and the last board passes the validation unless it has just
been set. -/
structure SafeSoFar (past : List Call) (lastBoard : Option Board) : Prop where
  safe : ∀ call ∈ past, call.Safe
  updated : ∀ b ∈ lastBoard, update b = b
  last : ∀ b ∈ lastBoard, (validate b).1 = .ok ∨ ∃ past', past = past' ++ [.sets b]

theorem SafeSoFar.sets {lastBoard : Option Board} (h : SafeSoFar past lastBoard)
    (hu : update b = b) : SafeSoFar (past ++ [.sets b]) (some b) where
  safe := by
    intro call hcall
    obtain hcall | hcall := List.mem_append.mp hcall
    · exact h.safe call hcall
    · rw [List.mem_singleton.mp hcall]
      trivial
  updated := by
    rintro _ ⟨⟩
    exact hu
  last := by
    rintro _ ⟨⟩
    exact Or.inr ⟨past, rfl⟩

theorem SafeSoFar.append {lastBoard lastBoard' : Option Board} {l : List Call}
    (h : SafeSoFar past lastBoard) (hl : ∀ call ∈ l, call.Safe)
    (hb : ∀ b ∈ lastBoard', Valid b) : SafeSoFar (past ++ l) lastBoard' where
  safe := by
    intro call hcall
    obtain hcall | hcall := List.mem_append.mp hcall
    · exact h.safe call hcall
    · exact hl call hcall
  updated := fun b hb' => (hb b hb').2
  last := fun b hb' => Or.inl (hb b hb').1

theorem SafeSoFar.none {lastBoard : Option Board} (h : SafeSoFar past lastBoard) :
    SafeSoFar past none := ⟨h.safe, nofun, fun _ he => by cases he⟩

theorem SafeSoFar.valid {m : Move} {rest : List Call} (h : SafeSoFar past (some b))
    (hfirst : FirstTriesValid (past ++ .isMoveValid b m :: rest)) : Valid b := by
  refine ⟨?_, h.updated b rfl⟩
  obtain hok | ⟨past', rfl⟩ := h.last b rfl
  · exact hok
  · exact hfirst past' b m rest (by simp)

theorem safe_movesCalls (srcMoves : List (List Byte)) (moves : List Move)
    (hfirst : FirstTriesValid (past ++ movesCalls srcMoves b)) (h : SafeSoFar past (some b))
    (hlast : r.lastBoard = some b) : SafeSoFar (past ++ movesCalls srcMoves b)
      (GameReader.readMoves srcMoves moves b r).2.lastBoard := by
  induction srcMoves generalizing past b r moves with
  | nil =>
    rw [movesCalls, GameReader.readMoves, List.append_nil, hlast]
    exact h
  | cons srcMove srcMoves ih =>
    rw [movesCalls] at hfirst ⊢
    rw [GameReader.readMoves]
    dsimp only at hfirst ⊢
    cases hw : (moveParse srcMove b).isWellFormed b.side with
    | false =>
      rw [Bool.not_false, Bool.true_or, Bool.true_or, if_pos rfl, if_pos rfl, List.append_nil,
        hlast]
      exact h
    | true =>
      rw [hw] at hfirst
      have hb := h.valid hfirst
      have hlast' : ∀ b' ∈ r.lastBoard, Valid b' := by
        rw [hlast]
        rintro _ ⟨⟩
        exact hb
      cases hv : isMoveValid b (moveParse srcMove b) with
      | false => exact h.append (List.forall_mem_singleton.mpr hb.1) hlast'
      | true =>
        cases hl : isMoveLegal b (moveParse srcMove b) with
        | false =>
          exact h.append
            (List.forall_mem_cons.mpr ⟨hb.1, List.forall_mem_singleton.mpr hb.1⟩) hlast'
        | true =>
          have hmade : Valid (moveMake b (moveParse srcMove b)).1 :=
            (chessMove_of_legal hb (tag_moveParse _ _) ⟨hw, hv, hl⟩).2
          have hnext : SafeSoFar (past ++ [.isMoveValid b (moveParse srcMove b),
              .isMoveLegal b (moveParse srcMove b), .moveMake b (moveParse srcMove b)])
              (some (moveMake b (moveParse srcMove b)).1) := by
            refine h.append (List.forall_mem_cons.mpr ⟨hb.1, List.forall_mem_cons.mpr
              ⟨hb.1, List.forall_mem_singleton.mpr hb.1⟩⟩) fun b' hb' => ?_
            rw [← Option.some.inj hb']
            exact hmade
          rw [hv, hl] at hfirst
          have hrest := ih (moves ++ [moveParse srcMove b])
            (r := r.setLastBoard (moveMake b (moveParse srcMove b)).1)
            (by rw [List.append_assoc]; exact hfirst) hnext rfl
          rw [List.append_assoc] at hrest
          exact hrest

theorem safe_readGame (h : SafeSoFar past r.lastBoard) (body : List Byte) :
    SafeSoFar past (r.readGame body).2.lastBoard := by
  rw [GameReader.readGame]
  dsimp only
  split
  · split
    · exact h
    · split
      · exact h
      · exact h.none
  · exact h

theorem safe_bodyCalls {name body : List Byte}
    (hfirst : FirstTriesValid (past ++ bodyCalls memory r name body))
    (h : SafeSoFar past r.lastBoard) : SafeSoFar (past ++ bodyCalls memory r name body)
      (r.readBody memory name body).2.lastBoard := by
  have hnames : bytes "game" ≠ bytes "start" ∧ bytes "game" ≠ bytes "board" ∧
      bytes "game" ≠ bytes "moves" ∧ bytes "title" ≠ bytes "start" ∧
      bytes "title" ≠ bytes "board" ∧ bytes "title" ≠ bytes "moves" := by decide
  obtain ⟨hgs, hgb, hgm, hts, htb, htm⟩ := hnames
  rw [GameReader.readBody]
  by_cases hgame : name = bytes "game"
  · subst hgame
    rw [bodyCalls, if_neg hgs, if_neg hgb, if_neg hgm, List.append_nil, if_pos rfl]
    exact safe_readGame h body
  by_cases htitle : name = bytes "title"
  · subst htitle
    rw [bodyCalls, if_neg hts, if_neg htb, if_neg htm, List.append_nil, if_neg hgame, if_pos rfl]
    exact h
  rw [if_neg hgame, if_neg htitle]
  rw [bodyCalls] at hfirst ⊢
  split_ifs at hfirst ⊢ with hstart hboard hmoves hbody
  · exact h.sets valid_initialPosition.2
  · rw [GameReader.readBoard]
    cases hread : fromFen (memory r.line) (cString body ++ [0]) with
    | ok board => exact h.sets (update_of_fromFen hread)
    | error e =>
      rw [List.append_nil]
      cases e <;> exact h
  · cases hlast : r.lastBoard with
    | none =>
      rw [List.append_nil]
      exact h
    | some b =>
      rw [List.append_nil]
      exact h
  · cases hlast : r.lastBoard with
    | none =>
      rw [List.append_nil]
      exact h
    | some b =>
      rw [hlast] at hfirst h
      exact safe_movesCalls _ [] hfirst h hlast
  · rw [List.append_nil]
    exact h

theorem safe_lineCalls (hfirst : FirstTriesValid (past ++ lineCalls memory r))
    (h : SafeSoFar past r.lastBoard) :
    SafeSoFar (past ++ lineCalls memory r) (r.tryReadCommand memory).2.lastBoard := by
  rw [GameReader.tryReadCommand]
  rw [lineCalls] at hfirst ⊢
  rw [GameReader.readLine] at hfirst ⊢
  cases hline : getline r.stream with
  | none =>
    rw [List.append_nil]
    exact h
  | some next =>
    rw [hline] at hfirst
    dsimp only at hfirst ⊢
    split_ifs at hfirst ⊢
    · rw [List.append_nil]
      exact h
    · exact safe_bodyCalls memory hfirst h

theorem safe_commandCalls (hfirst : FirstTriesValid (past ++ commandCalls memory r))
    (h : SafeSoFar past r.lastBoard) :
    SafeSoFar (past ++ commandCalls memory r) (r.readCommand memory).2.lastBoard := by
  induction r using GameReader.readCommand_rec memory generalizing past with
  | read r result r' ht =>
    rw [commandCalls_some ht] at hfirst ⊢
    have hline := safe_lineCalls memory hfirst h
    rw [ht] at hline
    rw [readCommand_some ht]
    exact hline
  | skip r r' ht ih =>
    rw [commandCalls_none ht, ← List.append_assoc] at hfirst ⊢
    have hline := safe_lineCalls memory hfirst.of_append h
    rw [ht] at hline
    rw [readCommand_none ht]
    exact ih hfirst hline

theorem safe_gameCalls {game : Game} (hfirst : FirstTriesValid (past ++ gameCalls memory r))
    (h : SafeSoFar past r.lastBoard) :
    SafeSoFar (past ++ gameCalls memory r) (r.gameLoop memory game).2.lastBoard := by
  induction game, r using GameReader.gameLoop_rec memory generalizing past with
  | error game r e r' hr =>
    rw [gameCalls_error hr] at hfirst ⊢
    have hcommand := safe_commandCalls memory hfirst h
    rw [hr] at hcommand
    rw [GameReader.gameLoop_error hr]
    exact hcommand
  | next game r command r' c hr hc =>
    rw [gameCalls_ok hr, hc] at hfirst ⊢
    have hcommand := safe_commandCalls memory hfirst h
    rw [hr] at hcommand
    rw [GameReader.gameLoop_ok hr, hc]
    dsimp only
    exact hcommand
  | metadata game r command r' c hr hc ih =>
    rw [gameCalls_ok hr, hc] at hfirst ⊢
    dsimp only at hfirst ⊢
    rw [← List.append_assoc] at hfirst ⊢
    have hcommand := safe_commandCalls memory hfirst.of_append h
    rw [hr] at hcommand
    rw [GameReader.gameLoop_ok hr, hc]
    dsimp only
    exact ih hfirst hcommand
  | inner game r command r' c hr hc ih =>
    rw [gameCalls_ok hr, hc] at hfirst ⊢
    dsimp only at hfirst ⊢
    rw [← List.append_assoc] at hfirst ⊢
    have hcommand := safe_commandCalls memory hfirst.of_append h
    rw [hr] at hcommand
    rw [GameReader.gameLoop_ok hr, hc]
    dsimp only
    exact ih hfirst hcommand

theorem safe_nextCalls (hfirst : FirstTriesValid (past ++ nextCalls memory r))
    (h : SafeSoFar past r.lastBoard) :
    SafeSoFar (past ++ nextCalls memory r) (r.nextGame memory).2.lastBoard := by
  rw [nextCalls] at hfirst ⊢
  split at hfirst
  · rename_i c hc
    rw [nextGame_of_game memory hc]
    exact safe_gameCalls memory hfirst h
  · rename_i hne
    rw [snd_nextGame memory hne, List.append_nil]
    exact h

theorem safe_laterCalls (n : Nat) (hfirst : FirstTriesValid (past ++ laterCalls memory n r))
    (h : SafeSoFar past r.lastBoard) : ∀ call ∈ past ++ laterCalls memory n r, call.Safe := by
  induction n generalizing past r with
  | zero =>
    rw [laterCalls, List.append_nil]
    exact h.safe
  | succ n ih =>
    rw [laterCalls, ← List.append_assoc] at hfirst ⊢
    exact ih hfirst (safe_nextCalls memory hfirst.of_append h)

/-- The boards that are set pass the validation. -/
def Call.SetsValid : Call → Prop
  | .sets b => (validate b).1 = .ok
  | _ => True

theorem setsValid_movesCalls (srcMoves : List (List Byte)) (b : Board) :
    ∀ call ∈ movesCalls srcMoves b, call.SetsValid := by
  induction srcMoves generalizing b with
  | nil => exact List.forall_mem_nil _
  | cons srcMove srcMoves ih =>
    rw [movesCalls]
    split_ifs
    · exact List.forall_mem_nil _
    · exact List.forall_mem_singleton.mpr trivial
    · exact List.forall_mem_cons.mpr ⟨trivial, List.forall_mem_singleton.mpr trivial⟩
    · simp only [List.forall_mem_cons]
      exact ⟨trivial, trivial, trivial, ih _⟩

theorem setsValid_lineCalls (h : BoardLinesValid r.stream) :
    (∀ call ∈ lineCalls memory r, call.SetsValid) ∧
      BoardLinesValid (r.tryReadCommand memory).2.stream := by
  rw [lineCalls, GameReader.tryReadCommand, GameReader.readLine]
  cases hline : getline r.stream with
  | none => exact ⟨List.forall_mem_nil _, h⟩
  | some next =>
    obtain ⟨line, rest⟩ := next
    rw [BoardLinesValid, lines_getline hline, List.forall_mem_cons] at h
    dsimp only
    split_ifs
    · exact ⟨List.forall_mem_nil _, h.2⟩
    · rw [GameReader.stream_readBody]
      refine ⟨?_, h.2⟩
      rw [bodyCalls]
      split_ifs with hstart hboard hmoves
      · exact List.forall_mem_singleton.mpr valid_initialPosition.1
      · split
        · rename_i board hread
          exact List.forall_mem_singleton.mpr (h.1 hboard _ board hread)
        · exact List.forall_mem_nil _
      · split
        · exact List.forall_mem_nil _
        · exact List.forall_mem_nil _
      · split
        · exact List.forall_mem_nil _
        · exact setsValid_movesCalls _ _
      · exact List.forall_mem_nil _

theorem setsValid_commandCalls (h : BoardLinesValid r.stream) :
    (∀ call ∈ commandCalls memory r, call.SetsValid) ∧
      BoardLinesValid (r.readCommand memory).2.stream := by
  induction r using GameReader.readCommand_rec memory with
  | read r result r' ht =>
    have hline := setsValid_lineCalls memory h
    rw [ht] at hline
    rw [commandCalls_some ht, readCommand_some ht]
    exact hline
  | skip r r' ht ih =>
    have hline := setsValid_lineCalls memory h
    rw [ht] at hline
    obtain ⟨hcalls, hlines⟩ := ih hline.2
    rw [commandCalls_none ht, readCommand_none ht]
    exact ⟨List.forall_mem_append.mpr ⟨hline.1, hcalls⟩, hlines⟩

theorem setsValid_gameCalls (game : Game) (h : BoardLinesValid r.stream) :
    (∀ call ∈ gameCalls memory r, call.SetsValid) ∧
      BoardLinesValid (r.gameLoop memory game).2.stream := by
  induction game, r using GameReader.gameLoop_rec memory with
  | error game r e r' hc =>
    have hcommand := setsValid_commandCalls memory h
    rw [hc] at hcommand
    rw [gameCalls_error hc, GameReader.gameLoop_error hc]
    exact hcommand
  | next game r command r' c hc hs =>
    have hcommand := setsValid_commandCalls memory h
    rw [hc] at hcommand
    rw [gameCalls_ok hc, GameReader.gameLoop_ok hc, hs]
    dsimp only
    exact hcommand
  | metadata game r command r' c hc hs ih =>
    have hcommand := setsValid_commandCalls memory h
    rw [hc] at hcommand
    obtain ⟨hcalls, hlines⟩ := ih hcommand.2
    rw [gameCalls_ok hc, GameReader.gameLoop_ok hc, hs]
    dsimp only
    exact ⟨List.forall_mem_append.mpr ⟨hcommand.1, hcalls⟩, hlines⟩
  | inner game r command r' c hc hs ih =>
    have hcommand := setsValid_commandCalls memory h
    rw [hc] at hcommand
    obtain ⟨hcalls, hlines⟩ := ih hcommand.2
    rw [gameCalls_ok hc, GameReader.gameLoop_ok hc, hs]
    dsimp only
    exact ⟨List.forall_mem_append.mpr ⟨hcommand.1, hcalls⟩, hlines⟩

theorem setsValid_nextCalls (h : BoardLinesValid r.stream) :
    (∀ call ∈ nextCalls memory r, call.SetsValid) ∧
      BoardLinesValid (r.nextGame memory).2.stream := by
  rw [nextCalls]
  split
  · rename_i c hc
    rw [nextGame_of_game memory hc]
    exact setsValid_gameCalls memory _ h
  · rename_i hne
    rw [snd_nextGame memory hne]
    exact ⟨List.forall_mem_nil _, h⟩

theorem setsValid_laterCalls (n : Nat) (h : BoardLinesValid r.stream) :
    ∀ call ∈ laterCalls memory n r, call.SetsValid := by
  induction n generalizing r with
  | zero => exact List.forall_mem_nil _
  | succ n ih =>
    obtain ⟨hnext, hlines⟩ := setsValid_nextCalls memory h
    exact List.forall_mem_append.mpr ⟨hnext, ih hlines⟩

theorem safe_iff (text : List Byte) (captureBoards : Bool) (n : Nat) :
    (∀ call ∈ calls memory text captureBoards n, call.Safe) ↔
      FirstTriesValid (calls memory text captureBoards n) := by
  constructor
  · intro hsafe past b m rest hcalls
    exact hsafe (.isMoveValid b m) (by rw [hcalls]; simp)
  · intro hfirst
    rw [calls] at hfirst ⊢
    have hstart : SafeSoFar [] none := ⟨List.forall_mem_nil _, nofun, fun _ he => by cases he⟩
    have hnew : FirstTriesValid ([] ++ commandCalls memory
        ⟨text, captureBoards, 0, .error (.reject .endOfStream), none, []⟩) := hfirst.of_append
    have hcommand := safe_commandCalls memory hnew hstart
    exact safe_laterCalls memory n hfirst hcommand

/-- All calls are made on boards that pass the validation exactly when this holds of each board
that the reader sets and then tries a move on. It does when the positions of the text are valid. -/
theorem calls_safe_iff (text : List Byte) (captureBoards : Bool) (n : Nat) :
    ((∀ call ∈ calls memory text captureBoards n, call.Safe) ↔
      FirstTriesValid (calls memory text captureBoards n)) ∧
    (BoardLinesValid text → ∀ call ∈ calls memory text captureBoards n, call.Safe) := by
  have hiff := safe_iff memory text captureBoards n
  refine ⟨hiff, fun hlines => hiff.mpr fun past b m rest hcalls => ?_⟩
  have hstart : BoardLinesValid
      (⟨text, captureBoards, 0, .error (.reject .endOfStream), none, []⟩ : GameReader).stream := hlines
  obtain ⟨hcommand, hnew⟩ := setsValid_commandCalls memory hstart
  have hsets : ∀ call ∈ calls memory text captureBoards n, call.SetsValid :=
    List.forall_mem_append.mpr ⟨hcommand, setsValid_laterCalls memory n hnew⟩
  exact hsets (.sets b) (by rw [hcalls]; simp)

end Runs

section Example

variable [Globals] (memory : Nat → Board) {r : GameReader}

theorem lineCalls_subset (r : GameReader) : lineCalls memory r ⊆ commandCalls memory r := by
  rw [commandCalls]
  split
  · exact List.Subset.refl _
  · exact List.subset_append_left _ _

theorem commandCalls_subset (r : GameReader) : commandCalls memory r ⊆ gameCalls memory r := by
  rw [gameCalls]
  split
  · exact List.Subset.refl _
  · split
    · exact List.Subset.refl _
    · exact List.subset_append_left _ _

theorem lineCalls_line (rest : List Byte) {name body : List Byte} (hn : Word name)
    (hcomment : name.head? ≠ some ('#' : Byte)) (hb : Trimmed body) (heol : eol ∉ body)
    (hs : r.stream = name ++ (' ' : Byte) :: body ++ eol :: rest) :
    lineCalls memory r = bodyCalls memory (nextLine r rest) name body := by
  have hline := eol_not_mem_append (eol_not_mem_of_word hn) heol
  rw [lineCalls, readLine_append hline hs]
  dsimp only
  rw [if_neg (trim_line hn hcomment hb), hn.scanToken_trim hb]

omit [Globals] in
theorem word_e2e4 : Word (bytes "e2e4") ∧ tokensOf isSpace (cString (bytes "e2e4")) = [bytes "e2e4"] := by
  decide +kernel

/-- The string of the empty board. -/
def emptyFen : Fen where
  rows := List.replicate 8 ⟨[.empty 7], rfl⟩
  eight := rfl
  side := .white
  castling := []
  distinct := List.nodup_nil
  enpassant := none
  moveCounter := .zero
  moveNumber := ⟨['1'], by decide, by decide +kernel, by decide +kernel⟩
  trailing := []
  spaces := by simp

/-- A game that starts on the empty board. -/
def kinglessText : List Byte :=
  (GameCommand.mk .unknown none).write ++ (bytes "board " ++ emptyFen.text ++ eol ::
    (bytes "moves " ++ bytes "e2e4" ++ eol :: []))

theorem mem_gameCalls_moves {b : Board} (hlast : r.lastBoard = some b)
    (hw : (moveParse (bytes "e2e4") b).isWellFormed b.side = true)
    (hs : r.stream = bytes "moves " ++ bytes "e2e4" ++ eol :: []) :
    .isMoveValid b (moveParse (bytes "e2e4") b) ∈ gameCalls memory r := by
  obtain ⟨hmove, htokens⟩ := word_e2e4
  have hline := lineCalls_line memory [] word_names.2.2.2.2.1 (by decide) hmove.trimmed
    (eol_not_mem_of_word hmove) (r := r) (by rw [hs]; simp [bytes])
  have hmem : .isMoveValid b (moveParse (bytes "e2e4") b) ∈ lineCalls memory r := by
    rw [hline, bodyCalls, if_neg (by decide), if_neg (by decide), if_pos rfl]
    have hlast' : (nextLine r []).lastBoard = some b := hlast
    rw [hlast']
    dsimp only
    rw [if_neg (by decide), htokens, movesCalls, hw]
    exact List.mem_cons_self
  exact commandCalls_subset memory r (lineCalls_subset memory r hmem)

theorem not_validate_emptyFen : (validate (update emptyFen.board)).1 ≠ .ok := by
  intro h
  have hvalid : Valid (update emptyFen.board) := ⟨h, update_update _⟩
  obtain ⟨k, hk⟩ := (valid_iff.mp hvalid).1.king .white
  have hcells : (update emptyFen.board).cells = emptyFen.board.cells := by
    obtain ⟨h, w, k, a, p, hu, -⟩ := update_spec emptyFen.board
    rw [hu]
  have hking := (hk k).mpr rfl
  rw [hcells] at hking
  have hempty : ∀ k : Square, emptyFen.board.cells k ≠ makeCell .white .king := by decide +kernel
  exact hempty k hking

theorem mem_gameCalls_kingless (hw : (moveParse (bytes "e2e4")
      (update emptyFen.board)).isWellFormed (update emptyFen.board).side = true)
    (hs : r.stream = bytes "board " ++ emptyFen.text ++ eol ::
      (bytes "moves " ++ bytes "e2e4" ++ eol :: [])) :
    .isMoveValid (update emptyFen.board) (moveParse (bytes "e2e4") (update emptyFen.board)) ∈
      gameCalls memory r := by
  obtain ⟨htrim, heol⟩ := trimmed_text (f := emptyFen) rfl
  have hline := tryReadCommand_line memory (bytes "moves " ++ bytes "e2e4" ++ eol :: [])
    word_names.2.2.2.1
    (by decide) htrim heol (r := r) (by rw [hs]; simp [bytes])
  have hread : r.readCommand memory = (.ok (.board ⟨update emptyFen.board⟩),
      (nextLine r (bytes "moves " ++ bytes "e2e4" ++ eol :: [])).setLastBoard
        (update emptyFen.board)) := by
    refine readCommand_some (hline.trans ?_)
    rw [GameReader.readBody, if_neg (by decide), if_neg (by decide),
      if_neg (by decide), if_pos rfl, GameReader.readBoard,
      cString_eq_self (zero_not_mem_text emptyFen), fromFen_text]
    rfl
  rw [gameCalls_ok hread]
  exact List.mem_append_right _ (mem_gameCalls_moves memory rfl hw rfl)

omit [Globals] in
/-- The reader tries a move on a board without kings. -/
theorem not_calls_safe : letI := spreadGlobals
    ¬∀ call ∈ calls (fun _ => initialFields) kinglessText true 1, call.Safe := by
  let _ := spreadGlobals
  intro h
  have hgame : RoundTrip.Reads (fun _ => initialFields)
      ⟨kinglessText, true, 0, .error (.reject .endOfStream), none, []⟩ (.game ⟨.unknown, none⟩)
      (bytes "board " ++ emptyFen.text ++ eol :: (bytes "moves " ++ bytes "e2e4" ++ eol :: []))
      none := reads_game _ _ nofun rfl
  have hnew : (GameReader.new (fun _ => initialFields) kinglessText true).lastCommand =
      .ok (.game ⟨.unknown, none⟩) := hgame.result
  have hmem : .isMoveValid (update emptyFen.board)
      (moveParse (bytes "e2e4") (update emptyFen.board)) ∈
      calls (fun _ => initialFields) kinglessText true 1 := by
    refine List.mem_append_right _ (List.mem_append_left _ ?_)
    rw [nextCalls, hnew]
    exact mem_gameCalls_kingless _ (by decide +kernel) hgame.stream
  exact not_validate_emptyFen (h _ hmem)

end Example

end SoFCheck.Gameset.CoreCalls
