import SoFCheck.Eval.Score

namespace SoFCheck.Eval.Costs

open SoFCheck.Eval.Score

inductive PositionCostType where
  | centipawns
  | checkmate
  deriving DecidableEq

def minPositionCost : Int := -2000000000

def maxPositionCost : Int := 2000000000

def valueMin : Int := -2 ^ 31

def valueMax : Int := 2 ^ 31 - 1

/-- What the server is told about a position. -/
structure PositionCost where
  value : Int
  deriving DecidableEq

namespace PositionCost

def type (cost : PositionCost) : PositionCostType :=
  if minPositionCost ≤ cost.value ∧ cost.value ≤ maxPositionCost then .centipawns else .checkmate

/-- `PositionCost::centipawns` of a number. -/
def ofCentipawns (cp : Int) : PositionCost := ⟨cp⟩

/-- `PositionCost::checkMate` of a number of moves. -/
def ofCheckMate (moves : Int) : PositionCost :=
  ⟨if moves ≤ 0 then valueMin - moves else valueMax - (moves - 1)⟩

def centipawns (cost : PositionCost) : Int := cost.value

def checkMate (cost : PositionCost) : Int :=
  if cost.value < 0 then valueMin - cost.value else valueMax - cost.value + 1

end PositionCost

def isScoreCheckmate (score : Int) : Bool :=
  decide (score ≤ -scoreCheckmateThreshold) || decide (score ≥ scoreCheckmateThreshold)

def isScoreValid (score : Int) : Bool :=
  if score > scoreCheckmate ∨ score < -scoreCheckmate then false
  else if score ≤ -scoreCheckmateThreshold then decide ((score + scoreCheckmate).tmod 2 = 0)
  else if score ≥ scoreCheckmateThreshold then decide ((scoreCheckmate - score).tmod 2 ≠ 0)
  else true

def scoreToPositionCost (score : Int) : PositionCost :=
  if score ≤ -scoreCheckmateThreshold then .ofCheckMate (-((score + scoreCheckmate) >>> (1 : Nat)))
  else if score ≥ scoreCheckmateThreshold then .ofCheckMate ((scoreCheckmate - score + 1) >>> (1 : Nat))
  else .ofCentipawns score

/-- The score behind a cost: a checkmate is given in moves, and the side to move decides the
parity of the plies. -/
def costToScore (cost : PositionCost) : Int :=
  match cost.type with
  | .centipawns => cost.centipawns
  | .checkmate =>
    if cost.checkMate ≤ 0 then -scoreCheckmate - 2 * cost.checkMate
    else scoreCheckmate + 1 - 2 * cost.checkMate

variable {score score' : Int}

theorem shiftRight_one (x : Int) : x >>> (1 : Nat) = x / 2 := by
  rw [Int.shiftRight_eq_div_pow]
  rfl

theorem isScoreCheckmate_iff : isScoreCheckmate score = true ↔ score ≤ -28000 ∨ 28000 ≤ score := by
  rw [isScoreCheckmate, Bool.or_eq_true, decide_eq_true_eq, decide_eq_true_eq]
  exact Iff.rfl

theorem isScoreValid_iff : isScoreValid score = true ↔ -30000 ≤ score ∧ score ≤ 30000 ∧
    (score ≤ -28000 → score % 2 = 0) ∧ (28000 ≤ score → score % 2 = 1) := by
  unfold isScoreValid scoreCheckmate scoreCheckmateThreshold
  split_ifs with hrange hlow hhigh
  · simp only [false_iff]
    omega
  · have hmod : (score + 30000).tmod 2 = (score + 30000) % 2 := Int.tmod_eq_emod_of_nonneg (by omega)
    rw [decide_eq_true_eq, hmod]
    omega
  · have hmod : (30000 - score).tmod 2 = (30000 - score) % 2 := Int.tmod_eq_emod_of_nonneg (by omega)
    rw [decide_eq_true_eq, hmod]
    omega
  · simp only [true_iff]
    omega

theorem value_scoreToPositionCost (h : -30000 ≤ score) (h' : score < 30000) :
    (scoreToPositionCost score).value =
      if score ≤ -28000 then (score + 30000) / 2 - 2147483648
      else if 28000 ≤ score then 2147483648 - (30001 - score) / 2
      else score := by
  unfold scoreToPositionCost PositionCost.ofCheckMate PositionCost.ofCentipawns scoreCheckmate
    scoreCheckmateThreshold valueMin valueMax
  simp only [shiftRight_one]
  split_ifs <;> simp only <;> omega

theorem type_scoreToPositionCost (h : -30000 ≤ score) (h' : score < 30000) :
    (scoreToPositionCost score).type =
      if isScoreCheckmate score = true then .checkmate else .centipawns := by
  rw [PositionCost.type, value_scoreToPositionCost h h']
  unfold minPositionCost maxPositionCost
  split_ifs with hcost hlow hhigh
  all_goals first | rfl | (rw [isScoreCheckmate_iff] at *; omega)

/-- A better score has a better cost, and no score is lost. -/
theorem costs_faithful (h : isScoreValid score = true) (h' : isScoreValid score' = true) :
    ((scoreToPositionCost score).value < (scoreToPositionCost score').value ↔ score < score') ∧
      ((scoreToPositionCost score).type = .checkmate ↔ isScoreCheckmate score = true) ∧
      costToScore (scoreToPositionCost score) = score := by
  rw [isScoreValid_iff] at h h'
  obtain ⟨hmin, hmax, hlow, hhigh⟩ := h
  obtain ⟨hmin', hmax', hlow', hhigh'⟩ := h'
  have hlt : score < 30000 := by omega
  have hlt' : score' < 30000 := by omega
  refine ⟨?_, ?_, ?_⟩
  · rw [value_scoreToPositionCost hmin hlt, value_scoreToPositionCost hmin' hlt']
    split_ifs <;> omega
  · rw [type_scoreToPositionCost hmin hlt]
    split <;> simp_all
  · rw [costToScore, type_scoreToPositionCost hmin hlt, PositionCost.centipawns,
      PositionCost.checkMate, value_scoreToPositionCost hmin hlt]
    unfold valueMin valueMax scoreCheckmate
    by_cases hmate : isScoreCheckmate score = true
    · rw [if_pos hmate]
      rw [isScoreCheckmate_iff] at hmate
      simp only
      split_ifs <;> omega
    · rw [if_neg hmate]
      rw [isScoreCheckmate_iff] at hmate
      simp only
      split_ifs <;> omega

/-- A mate in three plies is worth more than any material. -/
theorem costs_faithful_mate :
    ((scoreToPositionCost 27999).value < (scoreToPositionCost 29997).value ↔ (27999 : Int) < 29997) ∧
      ((scoreToPositionCost 27999).type = .checkmate ↔ isScoreCheckmate 27999 = true) ∧
      costToScore (scoreToPositionCost 27999) = 27999 :=
  costs_faithful (by decide) (by decide)

end SoFCheck.Eval.Costs
