import SoFCheck.Search.RepetitionSet
import SoFCheck.Search.TableEpochs
import SoFCheck.Core.InitialPosition
import SoFCheck.Core.MakeBoard

namespace SoFCheck.Search.UnwindPv

open SoFCheck.Core SoFCheck.Core.Types SoFCheck.Core.Moves SoFCheck.Core.BoardState SoFCheck.Core.MoveMake
open SoFCheck.Core.Position SoFCheck.Core.InitialPosition SoFCheck.Core.MakeBoard
open SoFCheck.Search.Tables SoFCheck.Search.TableData SoFCheck.Search.TranspositionTable
open SoFCheck.Search.TableEpochs SoFCheck.Search.RepetitionSet

variable [Globals]

/-- What ends the unwinding at once. -/
def stops (data : Data) : Bool :=
  !data.isValid || data.move == Move.null || data.bound != PositionCostBound.exact.toBits

/-- The loop of `unwindPv`, for at most so many turns. -/
def unwindLoop (tt : Table) : (turns : Nat) → Board → RepetitionTable → List Move →
    Option (List Move)
  | 0, _, _, _ => none
  | turns + 1, board, repetitions, pv =>
    let data := load tt board.hash
    if stops data then some pv
    else
      let move := data.move
      let board := (moveMake board move).1
      (repetitions.insert board.hash).bind fun inserted =>
        if !inserted.1 then some pv else unwindLoop tt turns board inserted.2 (pv ++ [move])

def unwindPv (tt : Table) (turns : Nat) (board : Board) (bestMove : Move) : Option (List Move) :=
  (RepetitionTable.empty.insert board.hash).bind fun inserted =>
    let pv := [bestMove]
    let board := (moveMake board bestMove).1
    (inserted.2.insert board.hash).bind fun inserted => unwindLoop tt turns board inserted.2 pv

/-- The boards met when a list of moves is played. -/
def replay (board : Board) : List Move → List Board
  | [] => [board]
  | move :: moves => board :: replay (moveMake board move).1 moves

/-- The move is that of a valid exact entry for the board. -/
structure FromTable (tt : Table) (board : Board) (move : Move) : Prop where
  valid : (load tt board.hash).isValid = true
  exact : (load tt board.hash).bound = PositionCostBound.exact.toBits
  move_eq : (load tt board.hash).move = move
  move_ne : move ≠ Move.null

/-- The boards that the moves of the table can lead to. -/
inductive Visited (tt : Table) (start : Board) (bestMove : Move) : Board → Prop
  | start : Visited tt start bestMove start
  | best : Visited tt start bestMove (moveMake start bestMove).1
  | entry {board : Board} {move : Move} : Visited tt start bestMove board →
      FromTable tt board move → Visited tt start bestMove (moveMake board move).1

/-- The board after a list of moves. -/
def after (board : Board) (moves : List Move) : Board :=
  moves.foldl (fun board move => (moveMake board move).1) board

/-- All the moves are those of the table. -/
def PlaysTable (tt : Table) : Board → List Move → Prop
  | _, [] => True
  | board, move :: moves => FromTable tt board move ∧ PlaysTable tt (moveMake board move).1 moves

def hashes (board : Board) (moves : List Move) : List BoardHash := (replay board moves).map Board.hash

section Replay

variable {tt : Table} {start board : Board} {bestMove move : Move} {moves : List Move}

omit [Globals] in
theorem stops_eq_false {board : Board} (h : stops (load tt board.hash) = false) :
    FromTable tt board (load tt board.hash).move := by
  rw [stops, Bool.or_eq_false_iff, Bool.or_eq_false_iff, Bool.not_eq_false'] at h
  obtain ⟨⟨hvalid, hmove⟩, hbound⟩ := h
  exact ⟨hvalid, by simpa using hbound, rfl, by simpa using hmove⟩

theorem hashes_cons (board : Board) (move : Move) (moves : List Move) :
    hashes board (move :: moves) = board.hash :: hashes (moveMake board move).1 moves := rfl

theorem hashes_concat (board : Board) (moves : List Move) (move : Move) :
    hashes board (moves ++ [move]) =
      hashes board moves ++ [(moveMake (after board moves) move).1.hash] := by
  induction moves generalizing board with
  | nil => rfl
  | cons first moves ih =>
    rw [List.cons_append, hashes_cons, ih, hashes_cons, List.cons_append]
    rfl

theorem hashes_ne_nil (board : Board) (moves : List Move) : hashes board moves ≠ [] := by
  cases moves <;> exact List.cons_ne_nil _ _

theorem playsTable_concat :
    PlaysTable tt board (moves ++ [move]) ↔
      PlaysTable tt board moves ∧ FromTable tt (after board moves) move := by
  induction moves generalizing board with
  | nil => exact and_comm
  | cons first moves ih => exact (and_congr_right fun _ => ih).trans and_assoc.symm

theorem visited_after (hboard : Visited tt start bestMove board) (h : PlaysTable tt board moves) :
    Visited tt start bestMove (after board moves) := by
  induction moves generalizing board with
  | nil => exact hboard
  | cons move moves ih => exact ih (.entry hboard h.1) h.2

omit [Globals] in
theorem length_le_size {keys : List BoardHash} (hsize : ∃ e ≤ 58, tt.size = 2 ^ e)
    (hkeys : ∀ k ∈ keys, (load tt k).isValid = true) (hnodup : keys.Nodup) :
    keys.length ≤ tt.size := by
  have hslots : (keys.map (slot tt.size)).Nodup := by
    apply hnodup.map_on
    intro k hk k' hk' heq
    rw [← (entry_of_load (hkeys k hk)).1, heq, (entry_of_load (hkeys k' hk')).1]
  have hsub : (keys.map (slot tt.size)).toFinset ⊆ Finset.range tt.size := by
    intro i hi
    obtain ⟨k, -, rfl⟩ := List.mem_map.mp (List.mem_toFinset.mp hi)
    exact Finset.mem_range.mpr (slot_lt hsize k)
  have hcard := Finset.card_le_card hsub
  rwa [List.toFinset_card_of_nodup hslots, List.length_map, Finset.card_range] at hcard

theorem valid_of_playsTable (h : PlaysTable tt board moves) :
    ∀ k ∈ (hashes board moves).dropLast, (load tt k).isValid = true := by
  induction moves generalizing board with
  | nil => exact fun k hk => absurd hk List.not_mem_nil
  | cons move moves ih =>
    intro k hk
    rw [hashes_cons, List.dropLast_cons_of_ne_nil (hashes_ne_nil _ _)] at hk
    cases List.mem_cons.mp hk with
    | inl he => exact he ▸ h.1.valid
    | inr hmem => exact ih h.2 k hmem

theorem length_hashes (board : Board) (moves : List Move) :
    (hashes board moves).length = moves.length + 1 := by
  induction moves generalizing board with
  | nil => rfl
  | cons move moves ih => rw [hashes_cons, List.length_cons, ih, List.length_cons]

theorem length_le_of_playsTable (hsize : ∃ e ≤ 58, tt.size = 2 ^ e)
    (h : PlaysTable tt board moves) (hnodup : (hashes board moves).Nodup) :
    moves.length ≤ tt.size := by
  have hle := length_le_size hsize (valid_of_playsTable h) (hnodup.sublist (List.dropLast_sublist _))
  rwa [List.length_dropLast, length_hashes, Nat.add_sub_cancel] at hle

end Replay

section Loop

variable {tt : Table} {start : Board} {bestMove : Move}

/-- A list that unwinding may give. -/
structure Unwound (tt : Table) (start : Board) (bestMove : Move) (rest : List Move) : Prop where
  nodup : (hashes start (bestMove :: rest)).Nodup
  plays : PlaysTable tt (moveMake start bestMove).1 rest

/-- Each turn of the loop adds a move of the table or is the last one. -/
theorem unwindLoop_spec (hsize : ∃ e ≤ 58, tt.size = 2 ^ e)
    (hzero : ∀ b, Visited tt start bestMove b → b.hash ≠ 0) (turns : Nat) {rest : List Move}
    {repetitions : RepetitionTable} (hturns : turns + rest.length = tt.size + 1)
    (hreps : Represents repetitions (hashes start (bestMove :: rest)).toFinset)
    (h : Unwound tt start bestMove rest) :
    ∃ rest', unwindLoop tt turns (after start (bestMove :: rest)) repetitions (bestMove :: rest) =
      some (bestMove :: rest') ∧ Unwound tt start bestMove rest' := by
  induction turns generalizing rest repetitions with
  | zero =>
    have hle := length_le_of_playsTable hsize h.plays (List.nodup_cons.mp h.nodup).2
    omega
  | succ turns ih =>
    rw [unwindLoop]
    cases hstops : stops (load tt (after start (bestMove :: rest)).hash) with
    | true => exact ⟨rest, if_pos rfl, h⟩
    | false =>
      have hmove := stops_eq_false hstops
      have hbest : Visited tt start bestMove (moveMake start bestMove).1 := .best
      have hafter := visited_after hbest h.plays
      change Visited tt start bestMove (after start (bestMove :: rest)) at hafter
      set board := after start (bestMove :: rest) with hboard
      set move := (load tt board.hash).move with hmoveEq
      have hvisited : Visited tt start bestMove (moveMake board move).1 :=
        .entry hafter hmove
      obtain ⟨repetitions', hinsert, hreps'⟩ := hreps.insert (hzero _ hvisited)
      dsimp only
      rw [if_neg (by decide), hinsert, Option.bind_some]
      by_cases hnew : (moveMake board move).1.hash ∈ (hashes start (bestMove :: rest)).toFinset
      · exact ⟨rest, if_pos (by simp [hnew]), h⟩
      · rw [if_neg (by simp [hnew])]
        have hconcat := hashes_concat start (bestMove :: rest) move
        rw [← hboard] at hconcat
        have hrest : Unwound tt start bestMove (rest ++ [move]) := by
          refine ⟨?_, playsTable_concat.mpr ⟨h.plays, hmove⟩⟩
          rw [← List.cons_append, hconcat]
          apply List.nodup_append.mpr
          refine ⟨h.nodup, List.nodup_singleton _, ?_⟩
          intro k hk k' hk' heq
          rw [List.mem_singleton] at hk'
          subst hk' heq
          exact hnew (List.mem_toFinset.mpr hk)
        have hlast : after start (bestMove :: (rest ++ [move])) = (moveMake board move).1 := by
          rw [← List.cons_append, after, List.foldl_append]
          rfl
        have hkeys : Represents repetitions' (hashes start (bestMove :: (rest ++ [move]))).toFinset := by
          have hset : (hashes start (bestMove :: (rest ++ [move]))).toFinset =
              insert (moveMake board move).1.hash (hashes start (bestMove :: rest)).toFinset := by
            rw [← List.cons_append, hconcat]
            ext k
            simp [or_comm]
          rwa [hset]
        have hgoal := ih (by rw [List.length_append, List.length_singleton]; omega) hkeys hrest
        rwa [hlast] at hgoal

/-- Unwinding ends after at most one turn more than the table has entries, if positions
that can be met have different hashes, none of them zero. It gives `bestMove` and moves
of valid exact entries, and no hash is met twice when they are played. -/
theorem unwindPv_spec (hsize : ∃ e ≤ 58, tt.size = 2 ^ e)
    (hzero : ∀ b, Visited tt start bestMove b → b.hash ≠ 0)
    (hhash : ∀ b b', Visited tt start bestMove b → Visited tt start bestMove b' →
      b.hash = b'.hash → position b = position b') :
    ∃ rest, unwindPv tt (tt.size + 1) start bestMove = some (bestMove :: rest) ∧
      (hashes start (bestMove :: rest)).Nodup ∧ PlaysTable tt (moveMake start bestMove).1 rest := by
  have hne : start.hash ≠ (moveMake start bestMove).1.hash := by
    intro heq
    have hside := congrArg Mailbox.Position.side (hhash _ _ .start .best heq)
    rw [position_side, position_side, moveMake_side] at hside
    exact invert_ne start.side hside.symm
  obtain ⟨t₁, h₁, hr₁⟩ := represents_empty.insert (hzero _ .start)
  obtain ⟨t₂, h₂, hr₂⟩ := hr₁.insert (hzero _ .best)
  have hstart : Unwound tt start bestMove [] :=
    ⟨List.nodup_cons.mpr ⟨by simpa [hashes, replay] using hne, List.nodup_singleton _⟩, trivial⟩
  have hkeys : Represents t₂ (hashes start [bestMove]).toFinset := by
    have hset : (hashes start [bestMove]).toFinset =
        insert (moveMake start bestMove).1.hash (insert start.hash ∅) := by
      ext k
      simp [hashes, replay, or_comm]
    rwa [hset]
  obtain ⟨rest, hloop, hrest⟩ := unwindLoop_spec hsize hzero (tt.size + 1) rfl hkeys hstart
  refine ⟨rest, ?_, hrest.nodup, hrest.plays⟩
  rw [unwindPv, h₁, Option.bind_some]
  dsimp only
  rw [h₂]
  exact hloop

end Loop

section Example

/-- Numbers that tell apart the positions of the first moves of the king pawns. -/
def openingZobrist : Zobrist where
  pieces x s := if x = makeCell .black .pawn ∧ s = 28 then 4 else 0
  moveSide := 1
  castling _ := 2
  enpassant _ := 0
  pieceCastlingKingside _ := 0
  pieceCastlingQueenside _ := 0
  pieces_empty := by decide
  kingside_eq := by decide
  queenside_eq := by decide

@[reducible] def openingGlobals : Globals := ⟨.bmi2, openingZobrist⟩

def openingMove : Move := ⟨.pawnDoubleMove, 52, 36, 0⟩

def openingReply : Move := ⟨.pawnDoubleMove, 12, 28, 0⟩

def openingTable : Table where
  size := 1
  entries _ := TableKeys.stored 3 (Data.of openingReply 20 3 .exact) 0
  epoch := 0

omit [Globals] in
theorem load_openingTable (k : BoardHash) :
    load openingTable k = if 3 = k then Data.of openingReply 20 3 .exact else Data.zero := by
  rw [TableKeys.load_eq]
  exact congrArg (fun key => if key = k then _ else _) (TableKeys.boardKey_stored 3 _ 0)

omit [Globals] in
theorem opening_hashes : letI := openingGlobals
    initialPosition.hash = 2 ∧ (moveMake initialPosition openingMove).1.hash = 3 ∧
      (moveMake (moveMake initialPosition openingMove).1 openingReply).1.hash = 6 := by
  decide +kernel

omit [Globals] in
theorem visited_opening {b : Board} : letI := openingGlobals
    Visited openingTable initialPosition openingMove b →
      b = initialPosition ∧ b.hash = 2 ∨ b = (moveMake initialPosition openingMove).1 ∧ b.hash = 3 ∨
        b = (moveMake (moveMake initialPosition openingMove).1 openingReply).1 ∧ b.hash = 6 := by
  let _ := openingGlobals
  intro h
  obtain ⟨h₀, h₁, h₂⟩ := opening_hashes
  induction h with
  | start => exact Or.inl ⟨rfl, h₀⟩
  | best => exact Or.inr (Or.inl ⟨rfl, h₁⟩)
  | entry hb hm ih =>
    have hvalid := hm.valid
    have hmove := hm.move_eq
    rcases ih with ⟨rfl, h⟩ | ⟨rfl, h⟩ | ⟨rfl, h⟩
    · rw [h, load_openingTable, if_neg (by decide)] at hvalid
      cases hvalid
    · rw [h, load_openingTable, if_pos rfl] at hmove
      have hreply : (Data.of openingReply 20 3 .exact).move = openingReply := rfl
      rw [hreply] at hmove
      obtain rfl := hmove
      exact Or.inr (Or.inr ⟨rfl, h₂⟩)
    · rw [h, load_openingTable, if_neg (by decide)] at hvalid
      cases hvalid

omit [Globals] in
theorem unwindPv_spec_opening : letI := openingGlobals
    ∃ rest, unwindPv openingTable 2 initialPosition openingMove = some (openingMove :: rest) ∧
      (hashes initialPosition (openingMove :: rest)).Nodup ∧
      PlaysTable openingTable (moveMake initialPosition openingMove).1 rest := by
  let _ := openingGlobals
  refine unwindPv_spec ⟨0, by omega, rfl⟩ (fun b hb => ?_) fun b b' hb hb' heq => ?_
  · rcases visited_opening hb with ⟨-, h⟩ | ⟨-, h⟩ | ⟨-, h⟩
    all_goals
      rw [h]
      decide
  · rcases visited_opening hb with ⟨rfl, h⟩ | ⟨rfl, h⟩ | ⟨rfl, h⟩ <;>
      rcases visited_opening hb' with ⟨rfl, h'⟩ | ⟨rfl, h'⟩ | ⟨rfl, h'⟩
    all_goals
      first
      | rw [h, h'] at heq
        cases heq
      | rfl

end Example

end SoFCheck.Search.UnwindPv
