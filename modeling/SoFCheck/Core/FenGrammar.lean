import SoFCheck.Core.Fen
import SoFCheck.Core.InitialPosition

namespace SoFCheck.Core.FenGrammar

open SoFCheck.Util.Bits SoFCheck.Util.CString SoFCheck.Util.Strutil
open SoFCheck.Core.Types SoFCheck.Core.Geometry SoFCheck.Core.BoardState SoFCheck.Core.Strutil
open SoFCheck.Core.InitialPosition SoFCheck.Core.Fen

section Grammar

/-- A character of the first field: a digit or a letter. -/
inductive Run where
  | empty (n : Fin 8)
  | piece (color : Color) (piece : Piece)
  deriving DecidableEq, Repr

def Run.text : Run → Byte
  | .empty n => digitChar (n + 1)
  | .piece c p => cellToChar (makeCell c p)

def Run.cells : Run → List Cell
  | .empty n => List.replicate (n + 1) emptyCell
  | .piece c p => [makeCell c p]

structure Row where
  runs : List Run
  full : (runs.flatMap Run.cells).length = 8

def Row.text (r : Row) : List Byte := r.runs.map Run.text

def Row.cells (r : Row) : List Cell := r.runs.flatMap Run.cells

def rightChar : Color × Wing → Byte
  | (.white, .kingside) => 'K'
  | (.white, .queenside) => 'Q'
  | (.black, .kingside) => 'k'
  | (.black, .queenside) => 'q'

def sideChar (side : Color) : Byte := if side = .white then 'w' else 'b'

/-- The row behind the pawn. -/
def enpassantRowChar (side : Color) : Byte := if side = .white then '6' else '3'

/-- A number that fits into 16 bits, with any number of leading zeros. -/
structure Counter where
  text : List Byte
  nonempty : text ≠ []
  digits : ∀ c ∈ text, isDigit c = true
  bound : numeral text ≤ 65535

def Counter.zero : Counter := ⟨['0'], by decide, by decide +kernel, by decide +kernel⟩

/-- What a string in the notation says. -/
structure Fen where
  rows : List Row
  eight : rows.length = 8
  side : Color
  castling : List (Color × Wing)
  distinct : castling.Nodup
  enpassant : Option (Fin 8)
  moveCounter : Counter
  moveNumber : Counter
  trailing : List Byte
  spaces : ∀ c ∈ trailing, isSpace c = true

namespace Fen

def rowsText : List Row → List Byte
  | [] => []
  | [r] => r.text
  | r :: rows => r.text ++ ('/' : Byte) :: rowsText rows

def castlingText (rights : List (Color × Wing)) : List Byte :=
  if rights = [] then ['-'] else rights.map rightChar

def enpassantText (side : Color) : Option (Fin 8) → List Byte
  | none => ['-']
  | some y => [ySubToChar (Int8.ofNat y), enpassantRowChar side]

def text (f : Fen) : List Byte :=
  rowsText f.rows ++ (' ' : Byte) :: sideChar f.side :: (' ' : Byte) ::
    (castlingText f.castling ++ (' ' : Byte) :: (enpassantText f.side f.enpassant ++ (' ' : Byte) ::
      (f.moveCounter.text ++ (' ' : Byte) :: (f.moveNumber.text ++ f.trailing))))

def cells (f : Fen) : List Cell := f.rows.flatMap Row.cells

def flags (rights : List (Color × Wing)) : Castling :=
  rights.foldl (fun x r => x ||| castlingFlag r.1 r.2) Castling.none

def enpassantCoord (side : Color) : Option (Fin 8) → Coord
  | none => invalidCoord
  | some y => makeCoord (enpassantSrcRow side) (Int8.ofNat y)

/-- The board that is written down. Its derived fields are left to `update`. -/
def board (f : Fen) : Board where
  cells s := f.cells.getD s emptyCell
  unused := 0
  side := f.side
  castling := flags f.castling
  enpassantCoord := enpassantCoord f.side f.enpassant
  moveCounter := BitVec.ofNat 16 (numeral f.moveCounter.text)
  moveNumber := BitVec.ofNat 16 (numeral f.moveNumber.text)
  hash := 0
  bbWhite := 0
  bbBlack := 0
  bbAll := 0
  bbPieces := fun _ => 0

end Fen

end Grammar

section Cells

variable {st : CellScan} {b : Board}

/-- The cells from `n` on become `cs`. -/
def putCells (b : Board) (n : Nat) (cs : List Cell) : Board :=
  { b with cells := fun s =>
      if n ≤ s.val ∧ s.val < n + cs.length then cs.getD (s.val - n) emptyCell else b.cells s }

@[simp] theorem putCells_nil (b : Board) (n : Nat) : putCells b n [] = b := by
  have h : ∀ s : Square, ¬(n ≤ s.val ∧ s.val < n + ([] : List Cell).length) := by
    intro s hs
    rw [List.length_nil] at hs
    omega
  simp only [putCells, h, if_false]

theorem putCells_append (b : Board) (n : Nat) (cs ds : List Cell) :
    putCells (putCells b n cs) (n + cs.length) ds = putCells b n (cs ++ ds) := by
  simp only [putCells, Board.mk.injEq, and_true]
  funext s
  rw [List.length_append]
  by_cases h1 : n ≤ s.val ∧ s.val < n + cs.length
  · rw [if_neg (by omega), if_pos h1, if_pos (by omega),
      List.getD_append _ _ _ _ (by omega)]
  · rw [if_neg h1]
    by_cases h2 : n + cs.length ≤ s.val ∧ s.val < n + cs.length + ds.length
    · rw [if_pos h2, if_pos (by omega), List.getD_append_right _ _ _ _ (by omega)]
      congr 1
      omega
    · rw [if_neg h2, if_neg (by omega)]

theorem setCell_eq {n : Nat} (h : n < 64) (b : Board) (x : Cell) :
    setCell b ⟨n, h⟩ x = putCells b n [x] := by
  simp only [setCell, putCells, Board.mk.injEq, and_true]
  funext s
  by_cases hs : s = ⟨n, h⟩
  · subst hs
    simp
  · have hne : s.val ≠ n := fun he => hs (Fin.ext he)
    rw [Function.update_of_ne hs, if_neg (by rw [List.length_singleton]; omega)]

/-- The scan after the cells `cs` of the current row. -/
def put (st : CellScan) (cs : List Cell) : CellScan :=
  { st with y := st.y + cs.length, cur := st.cur + cs.length, board := putCells st.board st.cur cs }

/-- The three counters agree. -/
structure Counting (st : CellScan) : Prop where
  x : st.x < 8
  y : st.y ≤ 8
  cur : st.cur = 8 * st.x + st.y

theorem writeEmpty_eq {add : Nat} (h : st.cur + add ≤ 64) : writeEmpty add st =
    .ok { st with
      cur := st.cur + add, board := putCells st.board st.cur (List.replicate add emptyCell) } := by
  induction add generalizing st with
  | zero => simp [writeEmpty]
  | succ add ih =>
    rw [writeEmpty, writeCell, dif_pos (by omega)]
    dsimp only
    rw [ih (by dsimp only; omega), setCell_eq]
    have happ := putCells_append st.board st.cur [emptyCell] (List.replicate add emptyCell)
    rw [List.length_singleton] at happ
    simp only [happ, List.replicate_succ, List.singleton_append, Nat.add_assoc, Nat.add_comm 1]

theorem char_cases (c : Byte) : (∃ run : Run, c = run.text) ∨ c = '/' ∨ c = ' ' ∨
    (¬(('1' : Byte) ≤ c ∧ c ≤ '8') ∧ c ≠ '/' ∧ c ≠ ' ' ∧ pieceFromChar (asciiToLower c) = none) := by
  have hb : ∀ b : BitVec 8, (('1' : Byte) ≤ ⟨b⟩ ∧ (⟨b⟩ : Byte) ≤ '8' →
      ∃ n : Fin 8, (⟨b⟩ : Byte) = digitChar (n + 1)) ∧
      (pieceFromChar (asciiToLower ⟨b⟩) ≠ none →
        ∃ c p, (⟨b⟩ : Byte) = cellToChar (makeCell c p)) := by decide +kernel
  obtain ⟨hdigit, hpiece⟩ := hb c.toBitVec
  by_cases hd : ('1' : Byte) ≤ c ∧ c ≤ '8'
  · obtain ⟨n, h⟩ := hdigit hd
    exact Or.inl ⟨.empty n, h⟩
  by_cases hp : pieceFromChar (asciiToLower c) = none
  · by_cases hslash : c = '/'
    · exact Or.inr (Or.inl hslash)
    by_cases hspace : c = ' '
    · exact Or.inr (Or.inr (Or.inl hspace))
    exact Or.inr (Or.inr (Or.inr ⟨hd, hslash, hspace, hp⟩))
  · obtain ⟨d, p, h⟩ := hpiece hp
    exact Or.inl ⟨.piece d p, h⟩

theorem digit_text : ∀ n : Fin 8, (('1' : Byte) ≤ digitChar (n + 1) ∧ digitChar (n + 1) ≤ '8') ∧
    digitValue (digitChar (n + 1)) = n + 1 := by decide

theorem piece_text : ∀ c p, ¬(('1' : Byte) ≤ cellToChar (makeCell c p) ∧
      cellToChar (makeCell c p) ≤ '8') ∧ cellToChar (makeCell c p) ≠ '/' ∧
    cellToChar (makeCell c p) ≠ ' ' ∧
    pieceFromChar (asciiToLower (cellToChar (makeCell c p))) = some p ∧
    (if cellToChar (makeCell c p) = asciiToLower (cellToChar (makeCell c p)) then Color.black
      else .white) = c := by decide

theorem Run.length_pos (run : Run) : 1 ≤ run.cells.length := by
  cases run <;> simp [Run.cells]

theorem cellTurn_run (h : Counting st) (run : Run) (hy : st.y + run.cells.length ≤ 8) :
    cellTurn st run.text = .ok (.inl (put st run.cells)) := by
  obtain ⟨hx, -, hcur⟩ := h
  cases run with
  | empty n =>
    obtain ⟨hd, hv⟩ := digit_text n
    simp only [Run.cells, List.length_replicate] at hy
    rw [Run.text, cellTurn, if_pos hd, hv]
    dsimp only
    rw [if_neg (by omega), writeEmpty_eq (by omega)]
    simp [put, Run.cells]
  | piece c p =>
    obtain ⟨hd, hs, hsp, hp, hc⟩ := piece_text c p
    simp only [Run.cells, List.length_singleton] at hy
    rw [Run.text, cellTurn, if_neg hd, if_neg hs, if_neg hsp, if_neg (by omega)]
    dsimp only
    rw [hp]
    dsimp only
    rw [hc, writeCell, dif_pos (by omega)]
    simp [put, Run.cells, setCell_eq]

theorem cellTurn_overflow {run : Run} (hy : ¬st.y + run.cells.length ≤ 8) :
    cellTurn st run.text = .error (.reject .boardRowOverflow) := by
  cases run with
  | empty n =>
    obtain ⟨hd, hv⟩ := digit_text n
    simp only [Run.cells, List.length_replicate] at hy
    rw [Run.text, cellTurn, if_pos hd, hv]
    exact if_pos hy
  | piece c p =>
    obtain ⟨hd, hs, hsp, -, -⟩ := piece_text c p
    simp only [Run.cells, List.length_singleton] at hy
    rw [Run.text, cellTurn, if_neg hd, if_neg hs, if_neg hsp, if_pos (by omega)]

theorem cellTurn_slash : cellTurn st '/' =
    if st.y = 8 then
      if st.x < 7 then .ok (.inl { st with x := st.x + 1, y := 0 })
      else .error (.reject .boardTooManyRows)
    else .error (.reject .boardRowUnderflow) := by
  rw [cellTurn, if_neg (by decide), if_pos rfl]
  by_cases hy : st.y = 8
  · by_cases hx : st.x < 7
    · rw [if_neg (by simp [hy]), if_pos hy, if_pos hx]
      exact if_neg (by dsimp only; omega)
    · rw [if_neg (by simp [hy]), if_pos hy, if_neg hx]
      exact if_pos (by dsimp only; omega)
  · rw [if_pos hy, if_neg hy]

theorem cellTurn_space (h : Counting st) : cellTurn st ' ' =
    if st.y = 8 then
      if st.x = 7 then .ok (.inr st.board) else .error (.reject .boardNotEnoughRows)
    else .error (.reject .boardRowUnderflow) := by
  obtain ⟨-, -, hcur⟩ := h
  rw [cellTurn, if_neg (by decide), if_neg (by decide), if_pos rfl]
  by_cases hy : st.y = 8
  · by_cases hx : st.x = 7
    · rw [if_neg (by simp [hy]), if_neg (by simp [hx]), if_pos (by omega), if_pos hy, if_pos hx]
    · rw [if_neg (by simp [hy]), if_pos hx, if_pos hy, if_neg hx]
  · rw [if_pos hy, if_neg hy]

theorem cellTurn_other {c : Byte} (h : ¬(('1' : Byte) ≤ c ∧ c ≤ '8') ∧ c ≠ '/' ∧ c ≠ ' ' ∧
    pieceFromChar (asciiToLower c) = none) : ∃ e, cellTurn st c = .error (.reject e) := by
  rw [cellTurn, if_neg h.1, if_neg h.2.1, if_neg h.2.2.1]
  split
  · exact ⟨_, rfl⟩
  · dsimp only
    rw [h.2.2.2]
    exact ⟨_, rfl⟩

theorem Counting.put (h : Counting st) {run : Run} (hy : st.y + run.cells.length ≤ 8) :
    Counting (put st run.cells) := by
  obtain ⟨hx, -, hcur⟩ := h
  refine ⟨hx, hy, ?_⟩
  dsimp only [FenGrammar.put]
  omega

theorem Counting.slash (h : Counting st) (hy : st.y = 8) (hx : st.x < 7) :
    Counting { st with x := st.x + 1, y := 0 } := by
  obtain ⟨-, -, hcur⟩ := h
  refine ⟨?_, Nat.zero_le _, ?_⟩
  · dsimp only
    omega
  · dsimp only
    omega

theorem cellTurn_inl (h : Counting st) {c : Byte} {st' : CellScan}
    (ht : cellTurn st c = .ok (.inl st')) :
    (∃ run : Run, c = run.text ∧ st.y + run.cells.length ≤ 8 ∧ st' = put st run.cells) ∨
      c = '/' ∧ st.y = 8 ∧ st.x < 7 ∧ st' = { st with x := st.x + 1, y := 0 } := by
  obtain ⟨run, rfl⟩ | rfl | rfl | ho := char_cases c
  · by_cases hy : st.y + run.cells.length ≤ 8
    · rw [cellTurn_run h run hy] at ht
      cases ht
      exact Or.inl ⟨run, rfl, hy, rfl⟩
    · rw [cellTurn_overflow hy] at ht
      cases ht
  · rw [cellTurn_slash] at ht
    split_ifs at ht with hy hx
    cases ht
    exact Or.inr ⟨rfl, hy, hx, rfl⟩
  · rw [cellTurn_space h] at ht
    split_ifs at ht
    cases ht
  · obtain ⟨e, he⟩ := cellTurn_other ho
    rw [he] at ht
    cases ht

theorem cellTurn_inr (h : Counting st) {c : Byte} (ht : cellTurn st c = .ok (.inr b)) :
    c = ' ' ∧ st.y = 8 ∧ st.x = 7 ∧ b = st.board := by
  obtain ⟨run, rfl⟩ | rfl | rfl | ho := char_cases c
  · by_cases hy : st.y + run.cells.length ≤ 8
    · rw [cellTurn_run h run hy] at ht
      cases ht
    · rw [cellTurn_overflow hy] at ht
      cases ht
  · rw [cellTurn_slash] at ht
    split_ifs at ht
    cases ht
  · rw [cellTurn_space h] at ht
    split_ifs at ht with hy hx
    cases ht
    exact ⟨rfl, hy, hx, rfl⟩
  · obtain ⟨e, he⟩ := cellTurn_other ho
    rw [he] at ht
    cases ht

theorem cellTurn_safe (h : Counting st) (c : Byte) (f : Fault) :
    cellTurn st c ≠ .error (.fault f) := by
  intro ht
  obtain ⟨run, rfl⟩ | rfl | rfl | ho := char_cases c
  · by_cases hy : st.y + run.cells.length ≤ 8
    · rw [cellTurn_run h run hy] at ht
      cases ht
    · rw [cellTurn_overflow hy] at ht
      cases ht
  · rw [cellTurn_slash] at ht
    split_ifs at ht <;> cases ht
  · rw [cellTurn_space h] at ht
    split_ifs at ht <;> cases ht
  · obtain ⟨e, he⟩ := cellTurn_other ho
    rw [he] at ht
    cases ht

/-- The rows that follow the current one. -/
def tailText (rows : List Row) : List Byte := rows.flatMap fun r => ('/' : Byte) :: r.text

theorem loops_of_runs {runs : List Run} {u : List Byte} (h : Counting st)
    (hy : st.y + (runs.flatMap Run.cells).length ≤ 8)
    (hl : Loops cellTurn (put st (runs.flatMap Run.cells)) u b) :
    Loops cellTurn st (runs.map Run.text ++ u) b := by
  induction runs generalizing st with
  | nil => simpa [put] using hl
  | cons run runs ih =>
    simp only [List.flatMap_cons, List.length_append] at hy
    refine .turn (cellTurn_run h run (by omega)) (ih (h.put (by omega)) ?_ ?_)
    · dsimp only [put]
      omega
    · simpa [put, putCells_append, Nat.add_assoc] using hl

theorem loops_of_rows (rows : List Row) (h : Counting st) (hy : st.y = 8)
    (hx : st.x + rows.length = 7) : Loops cellTurn st (tailText rows ++ [(' ' : Byte)])
      (putCells st.board st.cur (rows.flatMap Row.cells)) := by
  induction rows generalizing st with
  | nil =>
    have hx' : st.x = 7 := hx
    refine .leave ?_
    rw [cellTurn_space h, if_pos hy, if_pos hx']
    simp
  | cons r rows ih =>
    rw [List.length_cons] at hx
    have hs : Counting { st with x := st.x + 1, y := 0 } := h.slash hy (by omega)
    have htext : tailText (r :: rows) ++ [(' ' : Byte)] =
        ('/' : Byte) :: (r.runs.map Run.text ++ (tailText rows ++ [(' ' : Byte)])) := by
      simp [tailText, Row.text]
    rw [htext]
    refine .turn (by rw [cellTurn_slash, if_pos hy, if_pos (by omega)]) ?_
    refine loops_of_runs hs (by simp [r.full]) ?_
    have hput : Counting (put { st with x := st.x + 1, y := 0 } (r.runs.flatMap Run.cells)) := by
      have hcur := h.cur
      refine ⟨hs.x, by simp [put, r.full], ?_⟩
      simp only [put, r.full]
      omega
    have hih := ih hput (by simp [put, r.full]) (by simp only [put]; omega)
    dsimp only [put] at hih ⊢
    rw [putCells_append] at hih
    exact hih

/-- The loop reads the rest of a row and the rows below it. -/
theorem loops_iff (h : Counting st) {u : List Byte} : Loops cellTurn st u b ↔
    ∃ (runs : List Run) (rows : List Row), st.y + (runs.flatMap Run.cells).length = 8 ∧ st.x + rows.length = 7 ∧
      u = runs.map Run.text ++ (tailText rows ++ [(' ' : Byte)]) ∧
      b = putCells st.board st.cur (runs.flatMap Run.cells ++ rows.flatMap Row.cells) := by
  constructor
  · intro hl
    induction hl with
    | leave ht =>
      obtain ⟨rfl, hy, hx, rfl⟩ := cellTurn_inr h ht
      exact ⟨[], [], by simpa using hy, by simpa using hx, rfl, by simp⟩
    | turn ht hr ih =>
      rename_i st st' c u b
      obtain ⟨run, rfl, hle, rfl⟩ | ⟨rfl, hy8, hx7, rfl⟩ := cellTurn_inl h ht
      · obtain ⟨runs, rows, hy, hx, rfl, rfl⟩ := ih (h.put hle)
        refine ⟨run :: runs, rows, ?_, hx, rfl, ?_⟩
        · rw [List.flatMap_cons, List.length_append, ← hy]
          dsimp only [put]
          omega
        · dsimp only [put]
          rw [putCells_append, List.flatMap_cons, List.append_assoc]
      · obtain ⟨runs, rows, hy, hx, rfl, rfl⟩ := ih (h.slash hy8 hx7)
        have hfull : (runs.flatMap Run.cells).length = 8 := by simpa using hy
        refine ⟨[], ⟨runs, hfull⟩ :: rows, by simpa using hy8, ?_, ?_, ?_⟩
        · rw [← hx, List.length_cons]
          dsimp only
          omega
        · simp [tailText, Row.text]
        · simp [Row.cells]
  · rintro ⟨runs, rows, hy, hx, rfl, rfl⟩
    refine loops_of_runs h (by omega) ?_
    have hput : Counting (put st (runs.flatMap Run.cells)) := by
      refine ⟨h.x, by dsimp only [put]; omega, ?_⟩
      have := h.cur
      dsimp only [put]
      omega
    have hrows := loops_of_rows rows hput hy hx
    dsimp only [put] at hrows ⊢
    rwa [putCells_append] at hrows

theorem rowsText_cons (r : Row) (rows : List Row) :
    Fen.rowsText (r :: rows) = r.text ++ tailText rows := by
  induction rows generalizing r with
  | nil => simp [Fen.rowsText, tailText]
  | cons r' rows ih => simp [Fen.rowsText, ih, tailText]

theorem recognises_cells (b : Board) : Recognises (parseCells b) fun u b' _ =>
    ∃ rows : List Row, rows.length = 8 ∧ u = Fen.rowsText rows ++ [(' ' : Byte)] ∧
      b' = putCells b 0 (rows.flatMap Row.cells) := by
  have h0 : Counting ⟨0, 0, 0, b⟩ := ⟨Nat.zero_lt_succ 7, Nat.zero_le 8, rfl⟩
  have hl : Recognises (parseCells b) fun u b' _ => Loops cellTurn ⟨0, 0, 0, b⟩ u b' := by
    refine recognises_loop (I := Counting) (fun st _ => cellTurn_other (by decide))
      (fun st c f h => cellTurn_safe h c f) (fun st c st' h ht => ?_) h0
    obtain ⟨run, -, hy, rfl⟩ | ⟨-, hy, hx, rfl⟩ := cellTurn_inl h ht
    · exact h.put hy
    · exact h.slash hy hx
  refine hl.congr fun u b' _ => (loops_iff h0).trans ?_
  constructor
  · rintro ⟨runs, rows, hy, hx, rfl, rfl⟩
    have hfull : (runs.flatMap Run.cells).length = 8 := by simpa using hy
    have hlen : rows.length = 7 := by simpa using hx
    refine ⟨⟨runs, hfull⟩ :: rows, by rw [List.length_cons, hlen], ?_, rfl⟩
    · rw [rowsText_cons, List.append_assoc]
      rfl
  · rintro ⟨rows, hlen, rfl, rfl⟩
    cases rows with
    | nil => simp at hlen
    | cons r rows =>
      refine ⟨r.runs, rows, by simp [r.full], by simpa using hlen, ?_, rfl⟩
      rw [rowsText_cons, List.append_assoc]
      rfl

end Cells

section Fields

theorem recognises_space : Recognises consumeSpace fun u _ _ => u = [(' ' : Byte)] := by
  have h := recognises_next (k := fun c => check (c = ' ') FenParseResult.expectedSpace)
    (fun _ => ⟨_, rfl⟩) fun c _ => recognises_check (c = ' ') _
  refine h.congr fun u _ _ => ?_
  constructor
  · rintro ⟨c, w, rfl, rfl, rfl⟩
    rfl
  · rintro rfl
    exact ⟨' ', [], rfl, rfl, rfl⟩

theorem w_ne_b : ('w' : Byte) ≠ 'b' := by decide

theorem recognises_sideFromChar (c : Byte) :
    Recognises (sideFromChar c) fun u side _ => u = [] ∧ c = sideChar side := by
  rw [sideFromChar]
  split_ifs with hw hb
  · refine (recognises_pure Color.white).congr fun u side _ => and_congr_right fun _ => ?_
    cases side <;> simp [sideChar, hw, w_ne_b]
  · refine (recognises_pure Color.black).congr fun u side _ => and_congr_right fun _ => ?_
    cases side <;> simp [sideChar, hb, w_ne_b.symm]
  · refine (recognises_reject _).congr fun u side _ => ?_
    cases side <;> simp [sideChar, hw, hb]

theorem recognises_side (b : Board) : Recognises (parseSide b) fun u b' _ =>
    ∃ side, u = [sideChar side, (' ' : Byte)] ∧ b' = { b with side := side } := by
  have h := recognises_next (k := fun c => do
      let side ← sideFromChar c
      consumeSpace
      return { b with side := side })
    (fun _ => ⟨_, rfl⟩)
    fun c _ => (recognises_sideFromChar c).bind fun side => recognises_space.bind fun _ =>
      recognises_pure { b with side := side }
  refine h.congr fun u b' _ => ?_
  constructor
  · rintro ⟨c, w, rfl, -, -, side, rfl, ⟨rfl, rfl⟩, -, -, -, rfl, rfl, rfl, rfl⟩
    exact ⟨side, rfl, rfl⟩
  · rintro ⟨side, rfl, rfl⟩
    exact ⟨sideChar side, [(' ' : Byte)], rfl, [], [(' ' : Byte)], side, rfl, ⟨rfl, rfl⟩,
      [(' ' : Byte)], [], (), rfl, rfl, rfl, rfl⟩

theorem rightFromChar_eq_some {c : Byte} {r : Color × Wing} :
    rightFromChar c = some r ↔ c = rightChar r := by
  have hinv : ∀ r, rightFromChar (rightChar r) = some r := by
    rintro ⟨d, w⟩
    cases d <;> cases w <;> decide
  constructor
  · intro h
    rw [rightFromChar] at h
    split_ifs at h with hK hQ hk hq <;> cases h
    · exact hK
    · exact hQ
    · exact hk
    · exact hq
  · rintro rfl
    exact hinv r

def flagBit : Color × Wing → Fin 8
  | (c, .kingside) => kingsideBit c
  | (c, .queenside) => queensideBit c

theorem castlingFlag_eq (r : Color × Wing) : castlingFlag r.1 r.2 = single (flagBit r) := by
  obtain ⟨c, w⟩ := r
  cases w with
  | kingside => exact castlingKingside_eq c
  | queenside => exact castlingQueenside_eq c

theorem flagBit_inj {r r' : Color × Wing} : flagBit r = flagBit r' ↔ r = r' := by
  obtain ⟨c, w⟩ := r
  obtain ⟨c', w'⟩ := r'
  cases c <;> cases w <;> cases c' <;> cases w' <;> decide

theorem has_or_flag (x : Castling) (r r' : Color × Wing) :
    has ((x ||| castlingFlag r.1 r.2) &&& castlingFlag r'.1 r'.2) =
      (has (x &&& castlingFlag r'.1 r'.2) || decide (r = r')) := by
  rw [castlingFlag_eq, castlingFlag_eq, has_and_single, has_and_single, hasBit_or, hasBit_single]
  simp only [flagBit_inj]

/-- The letters of the castling field add their flags one by one. -/
theorem loops_castling (st : Board × Bool) {u : List Byte} {b : Board} :
    Loops castlingTurn st u b ↔ ∃ rights : List (Color × Wing), rights.Nodup ∧
      (∀ r ∈ rights, has (st.1.castling &&& castlingFlag r.1 r.2) = false) ∧
      (st.2 = true ∨ rights ≠ []) ∧ u = rights.map rightChar ++ [(' ' : Byte)] ∧
      b = { st.1 with
        castling := rights.foldl (fun x r => x ||| castlingFlag r.1 r.2) st.1.castling } := by
  constructor
  · intro h
    induction h with
    | leave ht =>
      rename_i st c b
      rw [castlingTurn] at ht
      split at ht
      · split_ifs at ht
        cases ht
      · split_ifs at ht with hc hh
        cases ht
        exact ⟨[], List.nodup_nil, by simp, Or.inl hh, by rw [hc]; rfl, rfl⟩
    | turn ht hr ih =>
      rename_i st st' c u b
      rw [castlingTurn] at ht
      split at ht
      · rename_i color side hc
        split_ifs at ht with hh
        cases ht
        obtain ⟨rights, hnd, hfree, -, rfl, rfl⟩ := ih
        have hnew : (color, side) ∉ rights := by
          intro hm
          have := hfree _ hm
          rw [has_or_flag st.1.castling (color, side)] at this
          simp at this
        refine ⟨(color, side) :: rights, List.nodup_cons.mpr ⟨hnew, hnd⟩, ?_, Or.inr (by simp), ?_,
          rfl⟩
        · intro r hr'
          cases hr' with
          | head => simpa using hh
          | tail _ hr' =>
            have := hfree r hr'
            rw [has_or_flag st.1.castling (color, side), Bool.or_eq_false_iff] at this
            exact this.1
        · rw [rightFromChar_eq_some.mp hc]
          rfl
      · split_ifs at ht
        cases ht
  · rintro ⟨rights, hnd, hfree, hany, rfl, rfl⟩
    induction rights generalizing st with
    | nil =>
      have hh : st.2 = true := by simpa using hany
      refine .leave ?_
      rw [castlingTurn, show rightFromChar ' ' = none from rfl]
      dsimp only
      rw [if_pos rfl, if_pos hh]
      rfl
    | cons r rights ih =>
      obtain ⟨hnew, hnd⟩ := List.nodup_cons.mp hnd
      obtain ⟨hr, hfree⟩ := List.forall_mem_cons.mp hfree
      have hturn : castlingTurn st (rightChar r) =
          .ok (.inl ({ st.1 with castling := st.1.castling ||| castlingFlag r.1 r.2 }, true)) := by
        rw [castlingTurn, rightFromChar_eq_some.mpr rfl]
        dsimp only
        rw [if_neg (by simp [hr])]
      refine .turn hturn (ih (_, true) hnd ?_ (Or.inl rfl))
      intro r' hr'
      have hne : r ≠ r' := fun he => hnew (he ▸ hr')
      rw [has_or_flag st.1.castling r, hfree r' hr']
      simpa using hne

theorem recognises_castling (b : Board) : Recognises (parseCastling b) fun u b' _ =>
    ∃ rights : List (Color × Wing), rights.Nodup ∧
      u = Fen.castlingText rights ++ [(' ' : Byte)] ∧
      b' = { b with castling := Fen.flags rights } := by
  have hnone : ∀ r : Color × Wing, has (Castling.none &&& castlingFlag r.1 r.2) = false := by
    rintro ⟨c, w⟩
    cases c <;> cases w <;> decide
  have hsafe : ∀ (st : Board × Bool) c f, castlingTurn st c ≠ .error (.fault f) := by
    intro st c f h
    rw [castlingTurn] at h
    split at h
    · split_ifs at h
      cases h
    · split_ifs at h <;> cases h
  have hl : Recognises (loop castlingTurn ({ b with castling := Castling.none }, false))
      fun u b' _ => Loops castlingTurn ({ b with castling := Castling.none }, false) u b' :=
    recognises_loop (I := fun _ => True) (fun _ _ => ⟨_, rfl⟩) (fun st c f _ => hsafe st c f)
      (fun _ _ _ _ _ => trivial) trivial
  refine (recognises_ite (d := ('-' : Byte)) (by decide)
    (recognises_space.bind fun _ => recognises_pure { b with castling := Castling.none }) hl).congr
    fun u b' rest => ?_
  rw [loops_castling]
  constructor
  · rintro (⟨w, rfl, v, w, -, rfl, rfl, rfl, rfl⟩ | ⟨-, rights, hnd, -, hany, rfl, rfl⟩)
    · exact ⟨[], List.nodup_nil, rfl, rfl⟩
    · have hne : rights ≠ [] := by simpa using hany
      exact ⟨rights, hnd, by rw [Fen.castlingText, if_neg hne], rfl⟩
  · rintro ⟨rights, hnd, rfl, rfl⟩
    by_cases hne : rights = []
    · subst hne
      exact Or.inl ⟨[(' ' : Byte)], rfl, [(' ' : Byte)], [], (), rfl, rfl, rfl, rfl⟩
    · refine Or.inr ⟨?_, rights, hnd, fun r _ => hnone r, Or.inr hne, ?_, rfl⟩
      · rw [Fen.castlingText, if_neg hne]
        cases rights with
        | nil => exact absurd rfl hne
        | cons r rights =>
          obtain ⟨c, w⟩ := r
          cases c <;> cases w <;> simp [rightChar] <;> decide
      · rw [Fen.castlingText, if_neg hne]

theorem enpassant_char (side : Color) : isXCharValid (enpassantRowChar side) = true ∧
    charToSubX (enpassantRowChar side) = enpassantDstRow side := by
  cases side <;> decide

theorem charToSubY_ySubToChar : ∀ y : Fin 8, isYCharValid (ySubToChar (Int8.ofNat y)) = true ∧
    charToSubY (ySubToChar (Int8.ofNat y)) = Int8.ofNat y ∧ ySubToChar (Int8.ofNat y) ≠ '-' := by
  decide

theorem eq_enpassant_char {c : Byte} {side : Color} (hv : isXCharValid c = true)
    (hc : charToSubX c = enpassantDstRow side) : c = enpassantRowChar side := by
  obtain ⟨x, hx, rfl⟩ := exists_row hv
  rw [hx] at hc
  revert x
  cases side <;> decide

theorem recognises_enpassant_number (b b' : Board) : Recognises (do
      let number ← next
      check (isXCharValid number = true) FenParseResult.unexpectedCharacter
      check (charToSubX number = enpassantDstRow b.side) FenParseResult.enpassantInvalidCell
      return b') fun u b'' _ => u = [enpassantRowChar b.side] ∧ b'' = b' := by
  refine (recognises_next (fun fen => run_check_of_not (by decide) _ _ fen) fun number _ =>
    (recognises_check (isXCharValid number = true) _).bind fun _ =>
      (recognises_check (charToSubX number = enpassantDstRow b.side) _).bind fun _ =>
        recognises_pure b').congr fun u b'' _ => ?_
  constructor
  · rintro ⟨number, w, rfl, v, w', a, rfl, ⟨rfl, hn⟩, v', w'', a', rfl, ⟨rfl, hr⟩, rfl, rfl⟩
    exact ⟨by rw [eq_enpassant_char hn hr]; rfl, rfl⟩
  · rintro ⟨rfl, rfl⟩
    obtain ⟨hn, hr⟩ := enpassant_char b.side
    exact ⟨_, [], rfl, [], [], (), rfl, ⟨rfl, hn⟩, [], [], (), rfl, ⟨rfl, hr⟩, rfl, rfl⟩

theorem recognises_enpassantCell (b : Board) : Recognises (parseEnpassantCell b) fun u b' _ =>
    ∃ y : Fin 8, u = Fen.enpassantText b.side (some y) ∧
      b' = { b with enpassantCoord := Fen.enpassantCoord b.side (some y) } := by
  refine (recognises_next (fun fen => run_check_of_not (by decide) _ _ fen) fun letter _ =>
    (recognises_check (isYCharValid letter = true) _).bind fun _ =>
      recognises_enpassant_number b _).congr fun u b' _ => ?_
  constructor
  · rintro ⟨letter, w, rfl, v, w', a, rfl, ⟨rfl, hl⟩, rfl, rfl⟩
    obtain ⟨y, hy, rfl⟩ := exists_column hl
    exact ⟨y, rfl, by rw [hy]; rfl⟩
  · rintro ⟨y, rfl, rfl⟩
    obtain ⟨hl, hy, -⟩ := charToSubY_ySubToChar y
    exact ⟨_, _, rfl, [], _, (), rfl, ⟨rfl, hl⟩, rfl, by rw [hy]; rfl⟩

theorem recognises_enpassant (b : Board) : Recognises (parseEnpassant b) fun u b' _ =>
    ∃ e : Option (Fin 8), u = Fen.enpassantText b.side e ++ [(' ' : Byte)] ∧
      b' = { b with enpassantCoord := Fen.enpassantCoord b.side e } := by
  have hfield : Recognises (parseEnpassantField b) fun u b' _ =>
      ∃ e : Option (Fin 8), u = Fen.enpassantText b.side e ∧
        b' = { b with enpassantCoord := Fen.enpassantCoord b.side e } := by
    refine (recognises_ite (d := ('-' : Byte)) (by decide)
      (recognises_pure { b with enpassantCoord := invalidCoord })
      (recognises_enpassantCell b)).congr fun u b' rest => ?_
    constructor
    · rintro (⟨w, rfl, rfl, rfl⟩ | ⟨-, y, rfl, rfl⟩)
      · exact ⟨none, rfl, rfl⟩
      · exact ⟨some y, rfl, rfl⟩
    · rintro ⟨e, rfl, rfl⟩
      cases e with
      | none => exact Or.inl ⟨[], rfl, rfl, rfl⟩
      | some y =>
        refine Or.inr ⟨?_, y, rfl, rfl⟩
        simpa [Fen.enpassantText] using (charToSubY_ySubToChar y).2.2
  refine (hfield.bind fun b' => recognises_space.bind fun _ => recognises_pure b').congr
    fun u b' _ => ?_
  constructor
  · rintro ⟨v, w, c, rfl, ⟨e, rfl, rfl⟩, -, -, -, rfl, rfl, rfl, rfl⟩
    exact ⟨e, rfl, rfl⟩
  · rintro ⟨e, rfl, rfl⟩
    exact ⟨_, [(' ' : Byte)], _, rfl, ⟨e, rfl, rfl⟩, [(' ' : Byte)], [], (), rfl, rfl, rfl, rfl⟩

/-- A space or the end of the string. -/
def EndsToken (rest : List Byte) : Prop := ∀ c, rest.head? = some c → c = 0 ∨ isSpace c = true

theorem endsToken_space (rest : List Byte) : EndsToken ((' ' : Byte) :: rest) := by
  intro c hc
  rw [List.head?_cons, Option.some_inj] at hc
  rw [← hc]
  exact Or.inr (by decide)

theorem token_of_isDigit {c : Byte} (h : isDigit c = true) : (c != 0 && !isSpace c) = true := by
  have hb : ∀ b : BitVec 8, isDigit ⟨b⟩ = true →
      ((⟨b⟩ : Byte) != 0 && !isSpace ⟨b⟩) = true := by decide +kernel
  exact hb c.toBitVec h

theorem recognises_uint16 : Recognises parseUint16 fun u v rest =>
    (∃ n : Counter, u = n.text ∧ v = BitVec.ofNat 16 (numeral n.text)) ∧ EndsToken rest := by
  refine ((recognises_span (by decide)).bind (M := fun token u v _ => u = [] ∧ ∃ n : Counter,
    token = n.text ∧ v = BitVec.ofNat 16 (numeral n.text)) fun token => ?_).congr fun u v rest => ?_
  · cases hv : valueFromStr 65535 token with
    | none =>
      refine (recognises_reject _).congr fun u v _ => ⟨False.elim, ?_⟩
      rintro ⟨-, n, rfl, -⟩
      rw [valueFromStr_eq_some.mpr ⟨n.nonempty, n.digits, n.bound, rfl⟩] at hv
      cases hv
    | some value =>
      obtain ⟨hne, hd, hb, rfl⟩ := valueFromStr_eq_some.mp hv
      refine (recognises_pure _).congr fun u v _ => and_congr_right fun _ => ?_
      constructor
      · rintro rfl
        exact ⟨⟨token, hne, hd, hb⟩, rfl, rfl⟩
      · rintro ⟨n, rfl, rfl⟩
        rfl
  · constructor
    · rintro ⟨token, -, -, rfl, ⟨rfl, -, hend⟩, rfl, n, rfl, rfl⟩
      refine ⟨⟨n, by simp, rfl⟩, fun c hc => ?_⟩
      have := hend c hc
      simp only [Bool.and_eq_false_iff, bne_eq_false_iff_eq, Bool.not_eq_false'] at this
      exact this
    · rintro ⟨⟨n, rfl, rfl⟩, hend⟩
      refine ⟨n.text, [], n.text, by simp, ⟨rfl, fun c hc => token_of_isDigit (n.digits c hc), ?_⟩,
        rfl, n, rfl, rfl⟩
      intro c hc
      have := hend c hc
      simpa only [Bool.and_eq_false_iff, bne_eq_false_iff_eq, Bool.not_eq_false'] using this

theorem recognises_end : Recognises parseEnd fun u _ rest =>
    (∀ c ∈ u, isSpace c = true) ∧ rest.head? = some 0 := by
  refine ((recognises_span (p := isSpace) (by decide)).bind fun _ => recognises_peek fun c =>
    recognises_check (c = 0) FenParseResult.redundantData).congr fun u _ rest => ?_
  constructor
  · rintro ⟨v, w, a, rfl, ⟨-, hv, -⟩, c, hc, rfl, rfl⟩
    exact ⟨by simpa using hv, hc⟩
  · rintro ⟨hu, hr⟩
    refine ⟨u, [], u, by simp, ⟨rfl, hu, ?_⟩, 0, hr, rfl, rfl⟩
    intro c hc
    rw [List.nil_append, hr, Option.some_inj] at hc
    rw [← hc]
    decide

end Fields

section Language

theorem length_cells (rows : List Row) : (rows.flatMap Row.cells).length = 8 * rows.length := by
  induction rows with
  | nil => rfl
  | cons r rows ih =>
    have hr : r.cells.length = 8 := r.full
    rw [List.flatMap_cons, List.length_append, ih, List.length_cons, hr]
    omega

theorem putCells_eight (b : Board) {rows : List Row} (h : rows.length = 8) :
    (putCells b 0 (rows.flatMap Row.cells)).cells =
      fun s : Square => (rows.flatMap Row.cells).getD s.val emptyCell := by
  funext s
  have hs := s.isLt
  simp only [putCells, length_cells, h]
  rw [if_pos (by omega), Nat.sub_zero]

variable [Globals]

/-- The parser succeeds on the strings of the grammar and denotes what they say. -/
theorem recognises_setFromFen (b : Board) : Recognises (setFromFen b) fun u b' rest =>
    (∃ f : Fen, u = f.text ∧ b' = update f.board) ∧ rest.head? = some 0 := by
  refine ((recognises_cells { b with unused := 0 }).bind fun b => (recognises_side b).bind fun b =>
    (recognises_castling b).bind fun b => (recognises_enpassant b).bind fun b =>
    recognises_uint16.bind fun moveCounter => recognises_space.bind fun _ =>
    recognises_uint16.bind fun moveNumber => recognises_end.bind fun _ =>
    recognises_pure (update { b with moveCounter := moveCounter, moveNumber := moveNumber })).congr
    fun u b' rest => ?_
  constructor
  · rintro ⟨u1, w1, b1, rfl, ⟨rows, h8, rfl, rfl⟩, u2, w2, b2, rfl, ⟨side, rfl, rfl⟩,
      u3, w3, b3, rfl, ⟨rights, hnd, rfl, rfl⟩, u4, w4, b4, rfl, ⟨e, rfl, rfl⟩,
      u5, w5, v5, rfl, ⟨⟨c, rfl, rfl⟩, -⟩, u6, w6, v6, rfl, rfl,
      u7, w7, v7, rfl, ⟨⟨n, rfl, rfl⟩, -⟩, u8, w8, v8, rfl, ⟨hsp, hend⟩, rfl, rfl⟩
    refine ⟨⟨⟨rows, h8, side, rights, hnd, e, c, n, u8, hsp⟩, ?_, ?_⟩, hend⟩
    · simp [Fen.text]
    · exact update_congr (putCells_eight _ h8) rfl rfl rfl rfl rfl rfl
  · rintro ⟨⟨f, rfl, rfl⟩, hend⟩
    refine ⟨_, _, _, ?_, ⟨f.rows, f.eight, rfl, rfl⟩, _, _, _, rfl, ⟨f.side, rfl, rfl⟩,
      _, _, _, rfl, ⟨f.castling, f.distinct, rfl, rfl⟩, _, _, _, rfl, ⟨f.enpassant, rfl, rfl⟩,
      _, _, _, rfl, ⟨⟨f.moveCounter, rfl, rfl⟩, endsToken_space _⟩, _, _, (), rfl, rfl,
      _, _, _, rfl, ⟨⟨f.moveNumber, rfl, rfl⟩, ?_⟩, f.trailing, [], (), (List.append_nil _).symm,
      ⟨f.spaces, hend⟩, rfl, ?_⟩
    · simp [Fen.text]
    · intro c hc
      cases ht : f.trailing with
      | nil =>
        simp only [ht, List.nil_append, hend, Option.some_inj] at hc
        exact Or.inl hc.symm
      | cons d l =>
        rw [ht, List.cons_append, List.head?_cons, Option.some_inj] at hc
        exact Or.inr (hc ▸ f.spaces d (by simp [ht]))
    · exact update_congr (putCells_eight _ f.eight).symm rfl rfl rfl rfl rfl rfl

omit [Globals] in
/-- Between the spaces there are only visible characters. -/
theorem mem_text {f : Fen} {c : Byte} (h : c ∈ f.text) :
    c ≠ 0 ∧ isSpace c = false ∨ c = ' ' ∨ c ∈ f.trailing := by
  have hrun : ∀ run : Run, run.text ≠ 0 ∧ isSpace run.text = false := by
    intro run
    cases run with
    | empty n =>
      revert n
      decide
    | piece c p => cases c <;> cases p <;> decide
  have hrow : ∀ r : Row, c ∈ r.text → c ≠ 0 ∧ isSpace c = false := by
    intro r h
    obtain ⟨run, -, rfl⟩ := List.mem_map.mp h
    exact hrun run
  have hrows : c ∈ Fen.rowsText f.rows → c ≠ 0 ∧ isSpace c = false := by
    cases f.rows with
    | nil => simp [Fen.rowsText]
    | cons r rows =>
      rw [rowsText_cons, List.mem_append, tailText, List.mem_flatMap]
      rintro (h | ⟨r', -, h⟩)
      · exact hrow r h
      · obtain rfl | h := List.mem_cons.mp h
        · decide
        · exact hrow r' h
  have hright : ∀ r, rightChar r ≠ 0 ∧ isSpace (rightChar r) = false := by
    rintro ⟨d, w⟩
    cases d <;> cases w <;> decide
  have hcastling : c ∈ Fen.castlingText f.castling → c ≠ 0 ∧ isSpace c = false := by
    rw [Fen.castlingText]
    split
    · intro h
      rw [List.mem_singleton.mp h]
      decide
    · intro h
      obtain ⟨r, -, rfl⟩ := List.mem_map.mp h
      exact hright r
  have hside : ∀ side, (sideChar side ≠ 0 ∧ isSpace (sideChar side) = false) ∧
      enpassantRowChar side ≠ 0 ∧ isSpace (enpassantRowChar side) = false := by decide
  have hcol : ∀ y : Fin 8, ySubToChar (Int8.ofNat y) ≠ 0 ∧
      isSpace (ySubToChar (Int8.ofNat y)) = false := by decide
  have hep : c ∈ Fen.enpassantText f.side f.enpassant → c ≠ 0 ∧ isSpace c = false := by
    cases f.enpassant with
    | none =>
      intro h
      rw [List.mem_singleton.mp h]
      decide
    | some y =>
      intro h
      obtain rfl | h := List.mem_cons.mp h
      · exact hcol y
      · rw [List.mem_singleton.mp h]
        exact (hside f.side).2
  have hcounter : ∀ n : Counter, c ∈ n.text → c ≠ 0 ∧ isSpace c = false := by
    intro n h
    have := token_of_isDigit (n.digits c h)
    rwa [Bool.and_eq_true, bne_iff_ne, Bool.not_eq_true'] at this
  simp only [Fen.text, List.mem_append, List.mem_cons] at h
  obtain h | rfl | rfl | rfl | h | rfl | h | rfl | h | rfl | h | h := h
  · exact Or.inl (hrows h)
  · exact Or.inr (Or.inl rfl)
  · exact Or.inl (hside f.side).1
  · exact Or.inr (Or.inl rfl)
  · exact Or.inl (hcastling h)
  · exact Or.inr (Or.inl rfl)
  · exact Or.inl (hep h)
  · exact Or.inr (Or.inl rfl)
  · exact Or.inl (hcounter _ h)
  · exact Or.inr (Or.inl rfl)
  · exact Or.inl (hcounter _ h)
  · exact Or.inr (Or.inr h)

omit [Globals] in
theorem zero_not_mem_text (f : Fen) : (0 : Byte) ∉ f.text := by
  intro h
  obtain h | h | h := mem_text h
  · exact h.1 rfl
  · exact absurd h (by decide)
  · exact absurd (f.spaces 0 h) (by decide)

theorem fromFen_text (board : Board) (f : Fen) :
    fromFen board (f.text ++ [0]) = .ok (update f.board) := by
  have h0 := zero_not_mem_text f
  rw [fromFen, ((recognises_setFromFen board).run_iff ⟨f.text, rfl, h0⟩).mpr
    ⟨f.text, rfl, h0, ⟨f, rfl, rfl⟩, rfl⟩]

/-- The parser stays inside the string, and it accepts the strings of the grammar. -/
theorem fromFen_language (board : Board) {str : List Byte} (h0 : (0 : Byte) ∉ str) :
    (∀ f, fromFen board (str ++ [0]) ≠ .error (.fault f)) ∧
      (∀ b, fromFen board (str ++ [0]) = .ok b ↔ ∃ f : Fen, str = f.text ∧ b = update f.board) ∧
      ∀ f : Fen, (update f.board).cells = f.board.cells ∧ (update f.board).side = f.side ∧
        (update f.board).moveCounter = f.board.moveCounter ∧
        (update f.board).moveNumber = f.board.moveNumber := by
  have hterm : Terminated (str ++ [0]) := ⟨str, rfl, h0⟩
  have hrec := recognises_setFromFen board
  refine ⟨?_, ?_, ?_⟩
  · intro f h
    rw [fromFen] at h
    split at h
    · cases h
    · rename_i e he
      cases h
      exact hrec.safe hterm f he
  · intro b
    rw [fromFen]
    constructor
    · intro h
      split at h
      · rename_i b' rest hr
        cases h
        obtain ⟨u, hu, hu0, ⟨f, rfl, rfl⟩, hend⟩ := (hrec.run_iff hterm).mp hr
        have hrest := Terminated.eq_of_head (hu ▸ hterm |>.append hu0) hend
        rw [hrest] at hu
        exact ⟨f, List.append_cancel_right hu, rfl⟩
      · cases h
    · rintro ⟨f, rfl, rfl⟩
      exact fromFen_text board f
  · intro f
    obtain ⟨h, w, k, a, p, hu, -⟩ := update_spec f.board
    rw [hu]
    exact ⟨rfl, rfl, rfl, rfl⟩

/-- Pieces of both sides, of which the king and a rook may castle, and a pawn that can be taken en
passant. -/
def passedFen : Fen where
  rows :=
    [⟨[.piece .black .rook, .empty 2, .piece .black .king, .empty 1, .piece .black .rook],
        by decide⟩,
      ⟨[.empty 0, .piece .white .pawn, .empty 5], by decide⟩,
      ⟨[.piece .black .pawn, .empty 6], by decide⟩,
      ⟨[.empty 2, .piece .black .pawn, .piece .white .pawn, .empty 2], by decide⟩,
      ⟨[.empty 7], by decide⟩, ⟨[.empty 7], by decide⟩,
      ⟨[.empty 6, .piece .white .pawn], by decide⟩,
      ⟨[.piece .white .rook, .empty 2, .piece .white .king, .empty 2], by decide⟩]
  eight := rfl
  side := .white
  castling := [(.white, .queenside), (.black, .kingside)]
  distinct := by decide
  enpassant := some 3
  moveCounter := .zero
  moveNumber := ⟨['1', '2'], by decide, by decide +kernel, by decide +kernel⟩
  trailing := [' ']
  spaces := by decide +kernel

omit [Globals] in
theorem text_passedFen :
    passedFen.text = bytes "r3k2r/1P6/p7/3pP3/8/8/7P/R3K3 w Qk d6 0 12 " := by
  decide +kernel

omit [Globals] in
theorem fromFen_language_passed : letI := spreadGlobals
    fromFen initialFields (bytes "r3k2r/1P6/p7/3pP3/8/8/7P/R3K3 w Qk d6 0 12 " ++ [0]) =
      .ok (update passedFen.board) := by
  let _ := spreadGlobals
  obtain ⟨-, hok, -⟩ := fromFen_language initialFields (zero_not_mem_text passedFen)
  rw [← text_passedFen]
  exact (hok _).mpr ⟨passedFen, rfl, rfl⟩

end Language

end SoFCheck.Core.FenGrammar
