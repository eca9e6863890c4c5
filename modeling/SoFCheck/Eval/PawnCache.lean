import SoFCheck.Core.InitialPosition
import SoFCheck.Eval.Shipped
import SoFCheck.Util.Cache
import SoFCheck.Util.Refinement

namespace SoFCheck.Eval.PawnCache

open SoFCheck.Util.Words SoFCheck.Util.Cache SoFCheck.Util.Refinement
open SoFCheck.Core.Types SoFCheck.Core.BoardState
open SoFCheck.Eval.Score SoFCheck.Eval.Weights SoFCheck.Eval.Evaluate SoFCheck.Eval.Impl

section NoCache

variable {n : Nat} {S P : Type} [PairTraits P] [ScoreType S P]

/-- The cache of a score type other than `score_t`. -/
def noCache (_ : BitVec 64) (func : Unit → PawnCacheValue S) : PawnCacheValue S × Unit := (func (), ())

/-- `evalForWhite` where nothing is cached. -/
def evalUncached (traits : WeightTraits n S P) (features : FeatureSet n) (b : Board) (tag : Tag P) :
    Option S :=
  (evalForWhite traits features noCache b tag).map Prod.fst

/-- The terms of the score, from those of the two kings. -/
def scoreOf (traits : WeightTraits n S P) (features : FeatureSet n) (b : Board) (tag : Tag P)
    (white black : S) : S :=
  let pawnValue := evalPawns traits features b
  let result := ScoreType.addDiff (ScoreType.mix tag.psqCost (calcStage tag.stage)) white black
  let result := ScoreType.addDiff result (evalMaterial traits features b .white)
    (evalMaterial traits features b .black)
  let result := ScoreType.add result pawnValue.score
  ScoreType.addDiff result (evalOpenLines traits features b pawnValue .white)
    (evalOpenLines traits features b pawnValue .black)

theorem evalUncached_eq_some {traits : WeightTraits n S P} {features : FeatureSet n} {b : Board}
    {tag : Tag P} {x : S} : evalUncached traits features b tag = some x ↔ ∃ white black,
      evalKingSafety traits features b (calcStage tag.stage) .white = some white ∧
      evalKingSafety traits features b (calcStage tag.stage) .black = some black ∧
      scoreOf traits features b tag white black = x := by
  rw [evalUncached, evalForWhite_eq, noCache, Option.map_map]
  unfold evalWith
  dsimp only
  cases evalKingSafety traits features b (calcStage tag.stage) .white with
  | none => simp
  | some white =>
    cases evalKingSafety traits features b (calcStage tag.stage) .black with
    | none => simp
    | some black => simp [scoreOf]

end NoCache

def sizePow : Nat := 18

def size : Nat := 1 <<< sizePow

instance instNeZeroSize : NeZero size := ⟨by decide⟩

/-- The slots of a `PawnCache<score_t>`. -/
abbrev Entries := Fin size → Entry (BitVec 64) (PawnCacheValue Int)

def indexFromKey (key : BitVec 64) : Fin size := Fin.ofNat size (key &&& BitVec.ofNat 64 (size - 1)).toNat

def layout : Layout (BitVec 64) (Fin size) (PawnCacheValue Int) := ⟨indexFromKey, PawnCacheValue.isValid⟩

def fresh : Entries := fun _ => ⟨0, PawnCacheValue.invalid⟩

section Score

variable {n : Nat} (weightValues : Fin n → Int16) (features : FeatureSet n)

/-- `Evaluator<score_t>::evalForWhite` -/
def scoreForWhite (cache : Entries) (b : Board) (tag : Tag ScorePair) : Option (Int × Entries) :=
  evalForWhite (scoreWeights weightValues) features (get layout cache) b tag

/-- Successive calls of one evaluator. -/
def scoreStep (call : Board × Tag ScorePair) (cache : Entries) : Option (Int × Entries) :=
  scoreForWhite weightValues features cache call.1 call.2

end Score

def SamePawns (b b' : Board) : Prop :=
  ∀ c, b.bbPieces (makeCell c .pawn) = b'.bbPieces (makeCell c .pawn)

section Transparent

variable {n : Nat} {S P : Type} [PairTraits P] [ScoreType S P]

omit [PairTraits P] in
theorem evalPawns_congr (traits : WeightTraits n S P) (features : FeatureSet n) {b b' : Board}
    (h : SamePawns b b') : evalPawns traits features b = evalPawns traits features b' := by
  rw [evalPawns, evalPawns, h .white, h .black]

variable (weightValues : Fin n → Int16) (features : FeatureSet n)

theorem isSome_evalKingSafety (b : Board) (stage : Int) (c : Color) :
    (evalKingSafety (scoreWeights weightValues) features b stage c).isSome = true := by
  unfold evalKingSafety kingPawnResult
  split <;> rfl

theorem isSome_evalWith (b : Board) (tag : Tag ScorePair) (pawnValue : PawnCacheValue Int) :
    (evalWith (scoreWeights weightValues) features b tag pawnValue).isSome = true := by
  obtain ⟨white, hwhite⟩ := Option.isSome_iff_exists.mp
    (isSome_evalKingSafety weightValues features b (calcStage tag.stage) .white)
  obtain ⟨black, hblack⟩ := Option.isSome_iff_exists.mp
    (isSome_evalKingSafety weightValues features b (calcStage tag.stage) .black)
  rw [evalWith, hwhite, hblack]
  rfl

theorem isSome_evalUncached (b : Board) (tag : Tag ScorePair) :
    (evalUncached (scoreWeights weightValues) features b tag).isSome = true := by
  rw [evalUncached, evalForWhite_eq, Option.isSome_map, Option.isSome_map]
  exact isSome_evalWith weightValues features b tag _

/-- The value of the pawns for a key, on the boards of a run. -/
def PawnsOf (boards : List Board) (key : BitVec 64) (value : PawnCacheValue Int) : Prop :=
  ∀ b ∈ boards, calcPawnHash b = key → value = evalPawns (scoreWeights weightValues) features b

variable {weightValues features} {boards : List Board} {cache : Entries} {b : Board}

theorem scoreForWhite_spec
    (hhash : ∀ b ∈ boards, ∀ b' ∈ boards, calcPawnHash b = calcPawnHash b' → SamePawns b b')
    (hb : b ∈ boards) (h : Truthful layout (PawnsOf weightValues features boards) cache)
    (tag : Tag ScorePair) : ∃ score cache',
      evalUncached (scoreWeights weightValues) features b tag = some score ∧
      scoreForWhite weightValues features cache b tag = some (score, cache') ∧
      Truthful layout (PawnsOf weightValues features boards) cache' := by
  have hfunc : PawnsOf weightValues features boards (calcPawnHash b)
      (evalPawns (scoreWeights weightValues) features b) := by
    intro b' hb' hkey
    exact evalPawns_congr _ _ (hhash b hb b' hb' hkey.symm)
  have hget : PawnsOf weightValues features boards (calcPawnHash b)
      (get layout cache (calcPawnHash b) fun _ => evalPawns (scoreWeights weightValues) features b).1 :=
    get_spec h hfunc
  have hcache : Truthful layout (PawnsOf weightValues features boards)
      (get layout cache (calcPawnHash b) fun _ => evalPawns (scoreWeights weightValues) features b).2 :=
    truthful_get h hfunc
  obtain ⟨score, hscore⟩ := Option.isSome_iff_exists.mp (isSome_evalWith weightValues features b tag
    (evalPawns (scoreWeights weightValues) features b))
  refine ⟨score, _, ?_, ?_, hcache⟩
  · rw [evalUncached, evalForWhite_eq, noCache, hscore]
    rfl
  · rw [scoreForWhite, evalForWhite_eq, hget b hb rfl, hscore]
    rfl

theorem truthful_fresh : Truthful layout (PawnsOf weightValues features boards) fresh :=
  truthful_of_invalid fun _ => by
    simp [layout, fresh, PawnCacheValue.isValid, PawnCacheValue.invalid]

theorem scoreForWhite_fresh (tag : Tag ScorePair) :
    (scoreForWhite weightValues features fresh b tag).map Prod.fst =
      evalUncached (scoreWeights weightValues) features b tag := by
  have hhash : ∀ x ∈ [b], ∀ y ∈ [b], calcPawnHash x = calcPawnHash y → SamePawns x y := by
    intro x hx y hy _ c
    rw [List.mem_singleton.mp hx, List.mem_singleton.mp hy]
  obtain ⟨score, cache, hscore, hrun, -⟩ :=
    scoreForWhite_spec hhash (List.mem_singleton_self b) truthful_fresh tag
  rw [hrun, hscore]
  rfl

/-- An evaluator answers as a fresh one does, and as one without a cache. -/
def Transparent (weightValues : Fin n → Int16) (features : FeatureSet n) (call : Board × Tag ScorePair)
    (score : Int) : Prop :=
  (scoreForWhite weightValues features fresh call.1 call.2).map Prod.fst = some score ∧
    evalUncached (scoreWeights weightValues) features call.1 call.2 = some score

theorem runAll_scoreStep {calls : List (Board × Tag ScorePair)}
    (hhash : ∀ b ∈ boards, ∀ b' ∈ boards, calcPawnHash b = calcPawnHash b' → SamePawns b b')
    (hcalls : ∀ call ∈ calls, call.1 ∈ boards)
    (h : Truthful layout (PawnsOf weightValues features boards) cache) :
    ∃ scores cache', runAll (scoreStep weightValues features) calls cache = some (scores, cache') ∧
      List.Forall₂ (Transparent weightValues features) calls scores := by
  induction calls generalizing cache with
  | nil => exact ⟨[], cache, rfl, List.Forall₂.nil⟩
  | cons call calls ih =>
    obtain ⟨score, cache₁, hscore, hstep, h₁⟩ :=
      scoreForWhite_spec hhash (hcalls call List.mem_cons_self) h call.2
    obtain ⟨scores, cache₂, hrun, hall⟩ :=
      ih (fun call hcall => hcalls call (List.mem_cons_of_mem _ hcall)) h₁
    refine ⟨score :: scores, cache₂, ?_, List.Forall₂.cons ?_ hall⟩
    · rw [runAll, scoreStep, hstep, Option.bind_some, hrun]
      rfl
    · exact ⟨(scoreForWhite_fresh call.2).trans hscore, hscore⟩

/-- The scores of a run do not depend on what was evaluated before, as long as no two placements
of the pawns share a key. Nothing but these placements goes into what is cached. -/
theorem pawn_cache_transparent (weightValues : Fin n → Int16) (features : FeatureSet n)
    (calls : List (Board × Tag ScorePair))
    (hhash : ∀ x ∈ calls, ∀ y ∈ calls, calcPawnHash x.1 = calcPawnHash y.1 → SamePawns x.1 y.1) :
    (∃ scores cache, runAll (scoreStep weightValues features) calls fresh = some (scores, cache) ∧
      List.Forall₂ (Transparent weightValues features) calls scores) ∧
    ∀ b b', SamePawns b b' →
      evalPawns (scoreWeights weightValues) features b = evalPawns (scoreWeights weightValues) features b' ∧
        calcPawnHash b = calcPawnHash b' := by
  refine ⟨?_, fun b b' h => ⟨evalPawns_congr _ _ h, ?_⟩⟩
  · apply runAll_scoreStep
    · intro b hb b' hb' hkey
      obtain ⟨x, hx, rfl⟩ := List.mem_map.mp hb
      obtain ⟨y, hy, rfl⟩ := List.mem_map.mp hb'
      exact hhash x hx y hy hkey
    · exact fun call hcall => List.mem_map_of_mem hcall
    · exact truthful_fresh
  · rw [calcPawnHash, calcPawnHash, h .white, h .black]

end Transparent

section Example

open SoFCheck.Core.InitialPosition

/-- Two kings and no pawns. -/
def endgame : Board :=
  { initialFields with
    cells := fun s => if s.val = 4 then makeCell .black .king
      else if s.val = 60 then makeCell .white .king else emptyCell }

/-- The third call finds what the first one has left. -/
def revisit (tag : Tag ScorePair) : List (Board × Tag ScorePair) :=
  [(updateBitboards initialFields, tag), (updateBitboards endgame, tag),
    (updateBitboards initialFields, tag)]

theorem pawn_cache_transparent_revisit :
    (∃ scores cache, runAll (scoreStep Shipped.weightValues Shipped.shippedFeatures)
        (revisit ⟨PairTraits.empty, 24⟩) fresh = some (scores, cache) ∧
      List.Forall₂ (Transparent Shipped.weightValues Shipped.shippedFeatures)
        (revisit ⟨PairTraits.empty, 24⟩) scores) ∧
    ∀ b b', SamePawns b b' →
      evalPawns (scoreWeights Shipped.weightValues) Shipped.shippedFeatures b =
          evalPawns (scoreWeights Shipped.weightValues) Shipped.shippedFeatures b' ∧
        calcPawnHash b = calcPawnHash b' := by
  apply pawn_cache_transparent
  have hne : calcPawnHash (updateBitboards initialFields) ≠ calcPawnHash (updateBitboards endgame) := by
    decide +kernel
  intro x hx y hy hkey c
  simp only [revisit, List.mem_cons, List.not_mem_nil, or_false] at hx hy
  obtain rfl | rfl | rfl := hx
  · obtain rfl | rfl | rfl := hy
    · rfl
    · exact absurd hkey hne
    · rfl
  · obtain rfl | rfl | rfl := hy
    · exact absurd hkey.symm hne
    · rfl
    · exact absurd hkey.symm hne
  · obtain rfl | rfl | rfl := hy
    · rfl
    · exact absurd hkey hne
    · rfl

end Example

end SoFCheck.Eval.PawnCache
