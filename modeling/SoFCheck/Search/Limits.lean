import SoFCheck.BotApi.UciGo
import SoFCheck.Core.BoardState

namespace SoFCheck.Search.Limits

open SoFCheck.Util.CString SoFCheck.Util.Strutil SoFCheck.Core.Types SoFCheck.Core.BoardState
open SoFCheck.BotApi.UciGo

section Model

/-- The result of an operation on `int64_t`, which must not overflow. -/
def int64 (value : Int) : Option Int :=
  if -2 ^ 63 ≤ value ∧ value ≤ int64Max then some value else none

def hardTimeMarginPerMove : Int := 3
def hardTimeMargin : Int := 250
def softTimeMarginPerMove : Int := 5
def softTimeMargin : Int := 350
def minTimeMargin : Int := 20

def maxMovesLeft : Int := 50
def maxMovesToGo : Int := 1000

/-- Fails if the assertion does, the arithmetic overflows or the divisor is zero. -/
def doCalculateMaxTime (b : Board) (totalTime movesToGo margin : Int) : Option Int := do
  let movesLeft := min maxMovesLeft movesToGo
  guard (movesLeft > 0)
  -- Don't think too much on first moves
  let movesLeft ← if b.moveNumber < 10 then int64 (movesLeft * 2) else some movesLeft
  let thinkTime ← int64 (totalTime - margin)
  let divisor ← int64 (movesLeft + 1)
  guard (divisor ≠ 0)
  return max 2 (thinkTime.tdiv divisor)

def movesToGoOf (tc : TimeControl) : Int :=
  if tc.movesToGo = movesInfinite then maxMovesToGo else min maxMovesToGo tc.movesToGo

/-- The time of the mover; an hour if the client has not set it. -/
def totalTimeOf (b : Board) (tc : TimeControl) : Int :=
  if (tc.ofSide b.side).time = int64Max then 3600000 else (tc.ofSide b.side).time

def marginOf (bound perMove movesToGo : Int) : Option Int := do
  let total ← int64 (movesToGo * perMove)
  let margin ← int64 (minTimeMargin + total)
  return min bound margin

def calculateMaxTime (b : Board) (tc : TimeControl) : Option Int := do
  let totalTime := totalTimeOf b tc
  let inc := (tc.ofSide b.side).inc
  let movesToGo := movesToGoOf tc
  let hardMargin ← marginOf hardTimeMargin hardTimeMarginPerMove movesToGo
  let softMargin ← marginOf softTimeMargin softTimeMarginPerMove movesToGo
  if totalTime ≤ hardMargin then some 1
  else if totalTime ≤ softMargin then some 2
  else
    let thinkTime ← doCalculateMaxTime b totalTime movesToGo softMargin
    let time ← int64 (thinkTime + inc)
    let latest ← int64 (totalTime - hardMargin)
    return max (min time latest) 2

end Model

section Allocation

/-- The margins as numbers. -/
def hardMarginOf (movesToGo : Int) : Int := min 250 (20 + movesToGo * 3)

def softMarginOf (movesToGo : Int) : Int := min 350 (20 + movesToGo * 5)

/-- The number of parts that the time is divided into. -/
def partsOf (b : Board) (movesToGo : Int) : Int :=
  (if b.moveNumber < 10 then min 50 movesToGo * 2 else min 50 movesToGo) + 1

/-- What is allocated of the time `total`. -/
def allocated (hard soft parts inc total : Int) : Int :=
  if total ≤ hard then 1
  else if total ≤ soft then 2
  else max (min (max 2 ((total - soft) / parts) + inc) (total - hard)) 2

theorem int64_eq {value : Int} (hlow : -2 ^ 63 ≤ value) (hhigh : value ≤ int64Max) :
    int64 value = some value := if_pos ⟨hlow, hhigh⟩

variable {hard soft parts inc : Int}

theorem one_le_allocated (total : Int) : 1 ≤ allocated hard soft parts inc total := by
  rw [allocated]
  split_ifs <;> omega

theorem allocated_lt {total : Int} (hhard : 2 < hard) (h : hard < total) :
    allocated hard soft parts inc total < total := by
  rw [allocated, if_neg (by omega)]
  split_ifs
  · omega
  · omega

theorem allocated_bounds {total : Int} (hgap : hard + 2 ≤ soft) (h : soft < total) :
    2 ≤ allocated hard soft parts inc total ∧
      allocated hard soft parts inc total ≤ total - hard := by
  rw [allocated, if_neg (by omega), if_neg (by omega)]
  omega

theorem allocated_mono (hparts : 0 < parts) {total total' : Int} (h : total ≤ total') :
    allocated hard soft parts inc total ≤ allocated hard soft parts inc total' := by
  have hdiv : (total - soft) / parts ≤ (total' - soft) / parts :=
    Int.ediv_le_ediv hparts (by omega)
  rw [allocated, allocated]
  split_ifs <;> omega

end Allocation

section Bounds

variable {b : Board} {tc : TimeControl}

theorem movesToGoOf_bounds (h : tc.Allowed) : 1 ≤ movesToGoOf tc ∧ movesToGoOf tc ≤ 1000 := by
  have hpos := h.movesToGo.1
  rw [movesToGoOf, maxMovesToGo]
  split_ifs
  · decide
  · omega

theorem totalTimeOf_bounds (h : tc.Allowed) :
    0 ≤ totalTimeOf b tc ∧ totalTimeOf b tc ≤ 2000000000000 := by
  rw [totalTimeOf]
  split_ifs with hunset
  · decide
  · exact (h.ofSide b.side).time.resolve_left hunset

theorem marginOf_eq {bound perMove movesToGo : Int} (hmoves : 0 ≤ movesToGo ∧ movesToGo ≤ 1000)
    (hperMove : 0 ≤ perMove ∧ perMove ≤ 1000) :
    marginOf bound perMove movesToGo = some (min bound (20 + movesToGo * perMove)) := by
  have hlow : 0 ≤ movesToGo * perMove := Int.mul_nonneg hmoves.1 hperMove.1
  have hhigh : movesToGo * perMove ≤ 1000 * 1000 :=
    Int.mul_le_mul hmoves.2 hperMove.2 hperMove.1 (by decide)
  rw [marginOf, minTimeMargin, int64_eq (by omega) (by rw [int64Max]; omega), Option.bind_eq_bind,
    Option.bind_some, int64_eq (by omega) (by rw [int64Max]; omega)]
  rfl

theorem doCalculateMaxTime_eq {totalTime movesToGo margin : Int}
    (hmoves : 1 ≤ movesToGo ∧ movesToGo ≤ 1000) (hmargin : 0 ≤ margin ∧ margin < totalTime)
    (htime : totalTime ≤ 2000000000000) :
    doCalculateMaxTime b totalTime movesToGo margin =
      some (max 2 ((totalTime - margin) / partsOf b movesToGo)) := by
  have hleft : 0 < min maxMovesLeft movesToGo ∧ min maxMovesLeft movesToGo ≤ 50 := by
    rw [maxMovesLeft]
    omega
  have hthink : int64 (totalTime - margin) = some (totalTime - margin) :=
    int64_eq (by omega) (by rw [int64Max]; omega)
  have hdouble : int64 (min maxMovesLeft movesToGo * 2) = some (min maxMovesLeft movesToGo * 2) :=
    int64_eq (by omega) (by rw [int64Max]; omega)
  have hdivisor : ∀ left : Int, 0 < left ∧ left ≤ 100 → int64 (left + 1) = some (left + 1) :=
    fun left h => int64_eq (by omega) (by rw [int64Max]; omega)
  have hquotient : ∀ parts : Int, (totalTime - margin).tdiv parts = (totalTime - margin) / parts :=
    fun parts => Int.tdiv_eq_ediv_of_nonneg (by omega)
  unfold doCalculateMaxTime partsOf
  by_cases hfirst : b.moveNumber < 10
  · have hbound : 0 < min maxMovesLeft movesToGo * 2 ∧ min maxMovesLeft movesToGo * 2 ≤ 100 := by
      omega
    have hne : min maxMovesLeft movesToGo * 2 + 1 ≠ 0 := by omega
    simp only [if_pos hfirst, hdouble, hthink, hdivisor _ hbound, hquotient, guard,
      if_pos hleft.1, if_pos hne, Option.pure_def, Option.bind_eq_bind, Option.bind_some]
    rfl
  · have hbound : 0 < min maxMovesLeft movesToGo ∧ min maxMovesLeft movesToGo ≤ 100 := by omega
    have hne : min maxMovesLeft movesToGo + 1 ≠ 0 := by omega
    simp only [if_neg hfirst, hthink, hdivisor _ hbound, hquotient, guard,
      if_pos hleft.1, if_pos hne, Option.pure_def, Option.bind_eq_bind, Option.bind_some]
    rfl

/-- No step of the calculation fails. -/
theorem calculateMaxTime_eq (h : tc.Allowed) :
    calculateMaxTime b tc = some (allocated (hardMarginOf (movesToGoOf tc))
      (softMarginOf (movesToGoOf tc)) (partsOf b (movesToGoOf tc)) (tc.ofSide b.side).inc
      (totalTimeOf b tc)) := by
  obtain ⟨hpos, hle⟩ := movesToGoOf_bounds h
  obtain ⟨htime, htime'⟩ := totalTimeOf_bounds (b := b) h
  obtain ⟨hinc, hinc'⟩ := (h.ofSide b.side).inc
  have hhard : marginOf hardTimeMargin hardTimeMarginPerMove (movesToGoOf tc) =
      some (hardMarginOf (movesToGoOf tc)) := marginOf_eq ⟨by omega, hle⟩ (by decide)
  have hsoft : marginOf softTimeMargin softTimeMarginPerMove (movesToGoOf tc) =
      some (softMarginOf (movesToGoOf tc)) := marginOf_eq ⟨by omega, hle⟩ (by decide)
  have hmargins : 0 ≤ hardMarginOf (movesToGoOf tc) ∧ 0 ≤ softMarginOf (movesToGoOf tc) ∧
      hardMarginOf (movesToGoOf tc) ≤ 250 := by
    rw [hardMarginOf, softMarginOf]
    omega
  unfold calculateMaxTime allocated
  simp only [hhard, hsoft, Option.bind_eq_bind, Option.bind_some]
  split_ifs with hbelow hbetween
  · rfl
  · rfl
  · have hthink : 0 ≤ (totalTimeOf b tc - softMarginOf (movesToGoOf tc)) /
        partsOf b (movesToGoOf tc) ∧ (totalTimeOf b tc - softMarginOf (movesToGoOf tc)) /
        partsOf b (movesToGoOf tc) ≤ 2000000000000 := by
      have hparts : 0 ≤ partsOf b (movesToGoOf tc) := by
        rw [partsOf]
        split_ifs <;> omega
      exact ⟨Int.ediv_nonneg (by omega) hparts, (Int.ediv_le_self _ (by omega)).trans (by omega)⟩
    have hallowed : (maxAllowedTimeMsec : Int) = 2000000000000 := rfl
    rw [doCalculateMaxTime_eq ⟨hpos, hle⟩ ⟨hmargins.2.1, by omega⟩ htime', Option.bind_some,
      int64_eq (by omega) (by rw [int64Max]; omega), Option.bind_some,
      int64_eq (by omega) (by rw [int64Max]; omega)]
    rfl

end Bounds

/-- The time of the mover decides the allocation, which keeps clear of the end of that time. -/
theorem calculateMaxTime_spec (b : Board) :
    (∀ tc : TimeControl, tc.Allowed → ∃ hard soft time : Int,
      marginOf hardTimeMargin hardTimeMarginPerMove (movesToGoOf tc) = some hard ∧
      marginOf softTimeMargin softTimeMarginPerMove (movesToGoOf tc) = some soft ∧
      calculateMaxTime b tc = some time ∧ 1 ≤ time ∧
      (hard < totalTimeOf b tc → time < totalTimeOf b tc) ∧
      (soft < totalTimeOf b tc → 2 ≤ time ∧ time ≤ totalTimeOf b tc - hard)) ∧
    (∀ tc tc' : TimeControl, tc.Allowed → tc'.Allowed → tc.movesToGo = tc'.movesToGo →
      (tc.ofSide b.side).inc = (tc'.ofSide b.side).inc → totalTimeOf b tc ≤ totalTimeOf b tc' →
        ∃ time time' : Int, calculateMaxTime b tc = some time ∧
          calculateMaxTime b tc' = some time' ∧ time ≤ time') ∧
    ∀ (searchStarted : Bool) (tokens : List (List Byte)) (tc : TimeControl),
      processUciGo searchStarted tokens = some (.timeControl tc) → tc.Allowed := by
  refine ⟨?_, ?_, fun searchStarted tokens tc h => allowed_of_processUciGo h⟩
  · intro tc h
    obtain ⟨hpos, hle⟩ := movesToGoOf_bounds h
    have hgap : 2 < hardMarginOf (movesToGoOf tc) ∧
        hardMarginOf (movesToGoOf tc) + 2 ≤ softMarginOf (movesToGoOf tc) := by
      rw [hardMarginOf, softMarginOf]
      omega
    exact ⟨_, _, _, marginOf_eq ⟨by omega, hle⟩ (by decide), marginOf_eq ⟨by omega, hle⟩ (by decide),
      calculateMaxTime_eq h, one_le_allocated _, fun hhard => allocated_lt hgap.1 hhard,
      fun hsoft => allocated_bounds hgap.2 hsoft⟩
  · intro tc tc' h h' hmoves hinc htotal
    obtain ⟨hpos, hle⟩ := movesToGoOf_bounds h
    have hmoves' : movesToGoOf tc' = movesToGoOf tc := by
      rw [movesToGoOf, movesToGoOf, hmoves]
    have hparts : 0 < partsOf b (movesToGoOf tc) := by
      rw [partsOf]
      split_ifs <;> omega
    refine ⟨_, _, calculateMaxTime_eq h, calculateMaxTime_eq h', ?_⟩
    rw [hmoves', ← hinc]
    exact allocated_mono hparts htotal

def bareBoard : Board where
  cells := fun _ => emptyCell
  unused := 0
  side := .white
  castling := 0
  enpassantCoord := invalidCoord
  moveCounter := 0
  moveNumber := 12
  hash := 0
  bbWhite := 0
  bbBlack := 0
  bbAll := 0
  bbPieces := fun _ => 0

/-- A clock of white for ten moves. -/
def clock (time : Int) : TimeControl := ⟨⟨time, 100⟩, ⟨int64Max, 0⟩, 10⟩

theorem calculateMaxTime_spec_clock :
    (∃ hard soft time : Int,
      marginOf hardTimeMargin hardTimeMarginPerMove (movesToGoOf (clock 5000)) = some hard ∧
      marginOf softTimeMargin softTimeMarginPerMove (movesToGoOf (clock 5000)) = some soft ∧
      calculateMaxTime bareBoard (clock 5000) = some time ∧ 1 ≤ time ∧
      (hard < 5000 → time < 5000) ∧ (soft < 5000 → 2 ≤ time ∧ time ≤ 5000 - hard)) ∧
    (∃ time time' : Int, calculateMaxTime bareBoard (clock 5000) = some time ∧
      calculateMaxTime bareBoard (clock 9000) = some time' ∧ time ≤ time') ∧
    TimeControl.Allowed TimeControl.unset := by
  have hblack : TimeControlSide.Allowed ⟨int64Max, 0⟩ := ⟨Or.inl rfl, by decide⟩
  have hclock : ∀ time : Int, 0 ≤ time ∧ time ≤ maxAllowedTimeMsec → (clock time).Allowed :=
    fun time h => ⟨⟨Or.inr h, (by decide : (0 : Int) ≤ 100 ∧ (100 : Int) ≤ maxAllowedTimeMsec)⟩,
      hblack, (by decide : 0 < 10 ∧ 10 ≤ movesInfinite)⟩
  have hspec := calculateMaxTime_spec bareBoard
  have hbtime : processUciGo false [bytes "movestogo",
      bytes "0"] = some (.timeControl TimeControl.unset) := by decide
  exact ⟨hspec.1 (clock 5000) (hclock 5000 (by decide)),
    hspec.2.1 (clock 5000) (clock 9000) (hclock 5000 (by decide)) (hclock 9000 (by decide)) rfl rfl
      (by decide), hspec.2.2 _ _ _ hbtime⟩

end SoFCheck.Search.Limits
