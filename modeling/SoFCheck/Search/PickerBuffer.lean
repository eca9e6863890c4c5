import SoFCheck.Util.Slots
import SoFCheck.Core.CaptureCount
import SoFCheck.Search.Pickers

namespace SoFCheck.Search.PickerBuffer

open SoFCheck.Util.Slots
open SoFCheck.Core.BoardState SoFCheck.Core.Moves SoFCheck.Core.Validate SoFCheck.Core.Movegen
open SoFCheck.Core.Sequence SoFCheck.Core.CaptureCount SoFCheck.Search.Pickers

def bufszCaptures : Nat := 128
def bufszSimplePromotes : Nat := 32

/-- The size of the array of the picker. -/
def bufsz : Nat := max bufszCaptures bufszSimplePromotes

/-- A generator writes its moves from the start of an array. It fails when it leaves the array. -/
def writeMoves (array moves : List Move) : Option (List Move) :=
  moves.zipIdx.foldlM (fun array entry => write array entry.2 entry.1) array

/-- The first `count` entries of the array are sorted in place. -/
def sortFirst (sort : List Move → List Move) (array : List Move) (count : Nat) : List Move :=
  sort (array.take count) ++ array.drop count

/-- `QuiescenseMovePicker` with the array it keeps its moves in. -/
structure BufferedPicker where
  gen : MoveGen
  moves : List Move
  moveCount : Nat
  movePosition : Nat
  captures : Bool

section Model

variable [Globals] (S : Sorter)

namespace BufferedPicker

/-- The array is not initialised before. -/
def create (board : Board) (array : List Move) : Option BufferedPicker := do
  let captures := (mkMoveGen board).genCaptures
  let array ← writeMoves array captures
  return ⟨mkMoveGen board, sortFirst (sortMvvLva S board) array captures.length, captures.length, 0,
    true⟩

omit [Globals] in
def addSimplePromotes (p : BufferedPicker) : Option BufferedPicker := do
  let promotes := p.gen.genSimplePromotes
  let array ← writeMoves p.moves promotes
  return { p with
    moves := sortFirst (sortSimplePromotes S) array promotes.length
    moveCount := promotes.length
    movePosition := 0 }

omit [Globals] in
/-- The first part of `next`. -/
def changeStage (p : BufferedPicker) : Option BufferedPicker :=
  if p.movePosition = p.moveCount ∧ p.captures then
    addSimplePromotes S { p with captures := false }
  else some p

/-- The rest of it. -/
def takeMove (p : BufferedPicker) : Option (Move × BufferedPicker) :=
  if p.movePosition = p.moveCount then some (Move.invalid, p)
  else p.moves[p.movePosition]?.map fun move =>
    (move, { p with movePosition := p.movePosition + 1 })

omit [Globals] in
def next (p : BufferedPicker) : Option (Move × BufferedPicker) :=
  (changeStage S p).bind takeMove

omit [Globals] in
/-- The moves that so many calls of `next` return. -/
def run : (calls : Nat) → BufferedPicker → Option (List Move)
  | 0, _ => some []
  | calls + 1, p => do
    let (move, p) ← next S p
    let moves ← run calls p
    return move :: moves

end BufferedPicker

omit [Globals] in
def runList : (calls : Nat) → QuiescenseMovePicker → List Move
  | 0, _ => []
  | calls + 1, p => (p.next S).1 :: runList calls (p.next S).2

end Model

section Shows

/-- What is left of the moves in the array is what the picker has left. -/
structure Shows (p : BufferedPicker) (q : QuiescenseMovePicker) : Prop where
  gen : p.gen = q.gen
  captures : p.captures = q.captures
  size : p.moves.length = bufsz
  count : p.moveCount ≤ bufsz
  position : p.movePosition ≤ p.moveCount
  moves : (p.moves.take p.moveCount).drop p.movePosition = q.moves

theorem writeMoves_eq {array moves : List Move} (h : moves.length ≤ array.length) :
    writeMoves array moves = some (moves ++ array.drop moves.length) := by
  have hlen : (array.take moves.length).length = moves.length := List.length_take_of_le h
  have hwrite := foldlM_write_eq 0 0 [] moves (array.take moves.length) (array.drop moves.length) rfl
    hlen
  rw [List.nil_append, List.take_append_drop, List.nil_append] at hwrite
  exact hwrite

variable {S : Sorter} {moves array : List Move} {sort : List Move → List Move}

theorem sortFirst_spec (h : moves.length ≤ array.length) (hlen : (sort moves).length = moves.length) :
    (sortFirst sort (moves ++ array.drop moves.length) moves.length).length = array.length ∧
      (sortFirst sort (moves ++ array.drop moves.length) moves.length).take moves.length =
        sort moves := by
  rw [sortFirst, List.take_left, List.drop_left]
  constructor
  · rw [List.length_append, hlen, List.length_drop]
    omega
  · rw [← hlen, List.take_left]

theorem length_sortMvvLva (board : Board) (moves : List Move) :
    (sortMvvLva S board moves).length = moves.length := by
  rw [sortMvvLva, List.length_map, (S.perm _ _).length_eq, List.length_map]

variable [Globals] {b : Board} {p : BufferedPicker} {q : QuiescenseMovePicker}

theorem shows_create (S : Sorter) (hb : Valid b) (harray : array.length = bufsz) :
    ∃ p, BufferedPicker.create S b array = some p ∧ Shows p (QuiescenseMovePicker.create S b) := by
  have hle : (mkMoveGen b).genCaptures.length ≤ bufsz := length_genCaptures_le hb
  have hfits : (mkMoveGen b).genCaptures.length ≤ array.length := by rwa [harray]
  have hsort : (sortMvvLva S b (mkMoveGen b).genCaptures).length = _ := length_sortMvvLva b _
  obtain ⟨hsize, htake⟩ := sortFirst_spec hfits hsort
  refine ⟨⟨mkMoveGen b, sortFirst (sortMvvLva S b) ((mkMoveGen b).genCaptures ++
    array.drop (mkMoveGen b).genCaptures.length) (mkMoveGen b).genCaptures.length,
    (mkMoveGen b).genCaptures.length, 0, true⟩, ?_, rfl, rfl, hsize.trans harray, hle,
    Nat.zero_le _, htake⟩
  rw [BufferedPicker.create, writeMoves_eq hfits]
  rfl

omit [Globals] in
theorem shows_addSimplePromotes (S : Sorter) (h : Shows p q)
    (hle : q.gen.genSimplePromotes.length ≤ bufsz) :
    ∃ p', BufferedPicker.addSimplePromotes S p = some p' ∧ Shows p' (q.addSimplePromotes S) := by
  rw [← h.gen] at hle
  have hfits : p.gen.genSimplePromotes.length ≤ p.moves.length := by rwa [h.size]
  have hsort : (sortSimplePromotes S p.gen.genSimplePromotes).length = _ := (S.perm _ _).length_eq
  obtain ⟨hsize, htake⟩ := sortFirst_spec hfits hsort
  refine ⟨{ p with
    moves := sortFirst (sortSimplePromotes S) (p.gen.genSimplePromotes ++
      p.moves.drop p.gen.genSimplePromotes.length) p.gen.genSimplePromotes.length
    moveCount := p.gen.genSimplePromotes.length
    movePosition := 0 }, ?_, h.gen, h.captures, hsize.trans h.size, hle, Nat.zero_le _, ?_⟩
  · rw [BufferedPicker.addSimplePromotes, writeMoves_eq hfits]
    rfl
  · rw [QuiescenseMovePicker.addSimplePromotes, ← h.gen]
    exact htake

omit [Globals] in
theorem Shows.moves_eq_nil (h : Shows p q) : q.moves = [] ↔ p.movePosition = p.moveCount := by
  have hcount : p.moveCount ≤ p.moves.length := by
    rw [h.size]
    exact h.count
  have hposition := h.position
  rw [← h.moves, List.drop_eq_nil_iff, List.length_take_of_le hcount]
  omega

omit [Globals] in
theorem Shows.returned (h : Shows p q) (hne : p.movePosition ≠ p.moveCount) :
    ∃ move rest, q.moves = move :: rest ∧ p.moves[p.movePosition]? = some move ∧
      Shows { p with movePosition := p.movePosition + 1 } { q with moves := rest } := by
  have hlt : p.movePosition < p.moveCount := by
    have hposition := h.position
    omega
  have hcount : p.moveCount ≤ p.moves.length := by
    rw [h.size]
    exact h.count
  have hlt' : p.movePosition < (p.moves.take p.moveCount).length := by
    rwa [List.length_take_of_le hcount]
  have hcons := List.drop_eq_getElem_cons hlt'
  rw [h.moves] at hcons
  refine ⟨_, _, hcons, ?_, h.gen, h.captures, h.size, h.count, hlt, rfl⟩
  rw [List.getElem_take]
  exact List.getElem?_eq_getElem (hlt.trans_le hcount)

omit [Globals] in
theorem shows_next (S : Sorter) (h : Shows p q) (hle : q.gen.genSimplePromotes.length ≤ bufsz) :
    ∃ p', BufferedPicker.next S p = some ((q.next S).1, p') ∧ Shows p' (q.next S).2 ∧
      (q.next S).2.gen = q.gen := by
  have hiff : (p.movePosition = p.moveCount ∧ p.captures) ↔ (q.moves = [] ∧ q.captures) := by
    rw [h.moves_eq_nil, h.captures]
  obtain ⟨p₁, q₁, hp₁, hq₁, h₁, hgen⟩ : ∃ p₁ q₁, BufferedPicker.changeStage S p = some p₁ ∧
      (if q.moves = [] ∧ q.captures then
        QuiescenseMovePicker.addSimplePromotes S { q with captures := false } else q) = q₁ ∧
      Shows p₁ q₁ ∧ q₁.gen = q.gen := by
    by_cases hstage : q.moves = [] ∧ q.captures
    · have hshows : Shows { p with captures := false } { q with captures := false } :=
        ⟨h.gen, rfl, h.size, h.count, h.position, h.moves⟩
      obtain ⟨p₁, hp₁, h₁⟩ := shows_addSimplePromotes S hshows hle
      exact ⟨p₁, _, (if_pos (hiff.mpr hstage)).trans hp₁, if_pos hstage, h₁, rfl⟩
    · exact ⟨p, q, if_neg (mt hiff.mp hstage), if_neg hstage, h, rfl⟩
  rw [BufferedPicker.next, hp₁, QuiescenseMovePicker.next, hq₁, Option.bind_some,
    BufferedPicker.takeMove]
  by_cases hend : p₁.movePosition = p₁.moveCount
  · rw [if_pos hend, h₁.moves_eq_nil.mpr hend]
    exact ⟨p₁, rfl, h₁, hgen⟩
  · obtain ⟨move, rest, hmoves, hread, hshows⟩ := h₁.returned hend
    rw [if_neg hend, hread, hmoves]
    exact ⟨_, rfl, hshows, hgen⟩

omit [Globals] in
theorem run_eq (S : Sorter) (calls : Nat) (h : Shows p q)
    (hle : q.gen.genSimplePromotes.length ≤ bufsz) :
    BufferedPicker.run S calls p = some (runList S calls q) := by
  induction calls generalizing p q with
  | zero => rfl
  | succ calls ih =>
    obtain ⟨p', hnext, hshows, hgen⟩ := shows_next S h hle
    have hrest := ih hshows (by rwa [hgen])
    rw [BufferedPicker.run, hnext]
    change (BufferedPicker.run S calls p' >>= _) = _
    rw [hrest]
    rfl

end Shows

/-- The captures and the promotions fit into their buffers, and one array serves both stages. -/
theorem quiescense_buffer_suffices [Globals] (S : Sorter) (b : Board) (hb : Valid b) :
    (mkMoveGen b).genCaptures.length ≤ bufszCaptures ∧
      (mkMoveGen b).genSimplePromotes.length ≤ bufszSimplePromotes ∧
      ∀ array : List Move, array.length = bufsz → ∀ calls : Nat,
        (BufferedPicker.create S b array).bind (BufferedPicker.run S calls) =
          some (runList S calls (QuiescenseMovePicker.create S b)) := by
  refine ⟨length_genCaptures_le hb, length_genSimplePromotes_le hb, ?_⟩
  intro array harray calls
  obtain ⟨p, hp, hshows⟩ := shows_create S hb harray
  rw [hp, Option.bind_some]
  exact run_eq S calls hshows ((length_genSimplePromotes_le hb).trans (by decide))

theorem quiescense_buffer_suffices_passedBoard : letI := spreadGlobals
    (mkMoveGen passedBoard).genCaptures.length ≤ bufszCaptures ∧
      (mkMoveGen passedBoard).genSimplePromotes.length ≤ bufszSimplePromotes ∧
      ∀ array : List Move, array.length = bufsz → ∀ calls : Nat,
        (BufferedPicker.create Sorter.inserting passedBoard array).bind
          (BufferedPicker.run Sorter.inserting calls) =
            some (runList Sorter.inserting calls
              (QuiescenseMovePicker.create Sorter.inserting passedBoard)) :=
  let _ := spreadGlobals
  quiescense_buffer_suffices Sorter.inserting passedBoard valid_passedBoard

end SoFCheck.Search.PickerBuffer
