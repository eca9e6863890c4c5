import SoFCheck.Eval.PawnCache

namespace SoFCheck.Eval

open SoFCheck.Util.Bits SoFCheck.Util.Words
open SoFCheck.Core.Types SoFCheck.Core.BoardState SoFCheck.Core.Position
open SoFCheck.Eval.Weights SoFCheck.Eval.Evaluate SoFCheck.Eval.Impl SoFCheck.Eval.PawnCache

/-- Two instances of the evaluator whose scores are `R lo hi`-related, where `lo` and `hi` bound
what the roundings of `mix` may add up to. `I` relates the weights, and `Q` the pairs. -/
structure Simulation {n : Nat} {S P S' P' : Type} [PairTraits P] [ScoreType S P] [PairTraits P']
    [ScoreType S' P'] (traits : WeightTraits n S P) (traits' : WeightTraits n S' P')
    (R : Int → Int → S → S' → Prop) (I : S → S' → Prop) (Q : P → P' → Prop) : Prop where
  mono : ∀ {lo hi lo' hi' x x'}, lo' ≤ lo → hi ≤ hi' → R lo hi x x' → R lo' hi' x x'
  item : ∀ {x x'}, I x x' → R 0 0 x x'
  zero : R 0 0 ScoreType.zero ScoreType.zero
  empty : I traits.empty traits'.empty
  number : ∀ i, I (traits.number i) (traits'.number i)
  number2 : ∀ i j, I (traits.number2 i j) (traits'.number2 i j)
  negNumber2 : ∀ i j, I (traits.negNumber2 i j) (traits'.negNumber2 i j)
  total : ∀ {l l'}, List.Forall₂ I l l' → I (ScoreType.total l) (ScoreType.total l')
  scale : ∀ {x x'} (k : Int), I x x' → R 0 0 (ScoreType.scale x k) (ScoreType.scale x' k)
  add : ∀ {lo hi lo₁ hi₁ x x' y y'}, R lo hi x x' → R lo₁ hi₁ y y' →
    R (lo + lo₁) (hi + hi₁) (ScoreType.add x y) (ScoreType.add x' y')
  sub : ∀ {lo hi lo₁ hi₁ x x' y y'}, R lo hi x x' → R lo₁ hi₁ y y' →
    R (lo - hi₁) (hi - lo₁) (ScoreType.sub x y) (ScoreType.sub x' y')
  addDiff : ∀ {lo hi lo₁ hi₁ lo₂ hi₂ r r' x x' y y'}, R lo hi r r' → R lo₁ hi₁ x x' →
    R lo₂ hi₂ y y' → R (lo + (lo₁ - hi₂)) (hi + (hi₁ - lo₂)) (ScoreType.addDiff r x y)
      (ScoreType.addDiff r' x' y')
  emptyPair : Q PairTraits.empty PairTraits.empty
  from1 : ∀ {x x'}, I x x' → Q (traits.from1 x) (traits'.from1 x')
  from2 : ∀ {x x' y y'}, I x x' → I y y' → Q (traits.from2 x y) (traits'.from2 x' y')
  addPair : ∀ {p p' q q'}, Q p p' → Q q q' → Q (p + q) (p' + q')
  addLargeItems : ∀ {p p' q q' r r'}, Q p p' → Q q q' → PairTraits.addLargeItems p q = some r →
    PairTraits.addLargeItems p' q' = some r' → Q r r'
  mix : ∀ {p p'} {stage : Int}, Q p p' → 0 ≤ stage → stage ≤ coefUnit →
    R (-255) 0 (ScoreType.mix p stage) (ScoreType.mix p' stage)

theorem calcStage_bounds (stage : BitVec 32) : 0 ≤ calcStage stage ∧ calcStage stage ≤ coefUnit := by
  have hnonneg : 0 ≤ (((stage <<< coefUnitShift) + (stageTotal >>> 1)) / stageTotal).toInt := by
    have htotal : stageTotal.toNat = 24 := by decide
    rw [BitVec.toInt_eq_toNat_of_lt]
    · exact Int.natCast_nonneg _
    · rw [BitVec.toNat_udiv, htotal]
      have := ((stage <<< coefUnitShift) + (stageTotal >>> 1)).isLt
      omega
  exact ⟨le_min hnonneg (by decide), min_le_right _ _⟩

namespace Simulation

variable {n : Nat} {S P S' P' : Type} [PairTraits P] [ScoreType S P] [PairTraits P']
  [ScoreType S' P'] {traits : WeightTraits n S P} {traits' : WeightTraits n S' P'}
  {R : Int → Int → S → S' → Prop} {I : S → S' → Prop} {Q : P → P' → Prop}
  (sim : Simulation traits traits' R I Q) (features : FeatureSet n)
include sim

section Tags

variable (bundle : PsqBundle n)

theorem psqCost (color : Color) (piece : Piece) (i : Square) :
    Q (psqCost traits bundle color piece i) (psqCost traits' bundle color piece i) := by
  have hnum : ∀ a b, I ((if color = .white then traits.number2 else traits.negNumber2) a b)
      ((if color = .white then traits'.number2 else traits'.negNumber2) a b) := by
    intro a b
    split
    · exact sim.number2 a b
    · exact sim.negNumber2 a b
  unfold Weights.psqCost
  dsimp only
  by_cases hking : piece = .king
  · rw [if_pos hking, if_pos hking]
    exact sim.from2 (hnum _ _) (hnum _ _)
  · rw [if_neg hking, if_neg hking]
    exact sim.from1 (hnum _ _)

theorem psq (cell : Cell) (pos : Square) : Q (psq traits bundle cell pos) (psq traits' bundle cell pos) := by
  unfold Weights.psq
  cases pieceOf cell with
  | none => exact sim.from1 sim.empty
  | some w => exact sim.psqCost bundle w.1 w.2 _

theorem tagFrom (b : Board) :
    Q (tagFrom traits bundle b).psqCost (tagFrom traits' bundle b).psqCost ∧
      (tagFrom traits bundle b).stage = (tagFrom traits' bundle b).stage := by
  unfold Evaluate.tagFrom
  have hfold : ∀ (l : List Square) (tag : Tag P) (tag' : Tag P'), Q tag.psqCost tag'.psqCost →
      tag.stage = tag'.stage →
      let next := l.foldl (fun tag i =>
        (⟨tag.psqCost + Weights.psq traits bundle (b.cells i) i, tag.stage + stages (b.cells i)⟩ : Tag P)) tag
      let next' := l.foldl (fun tag i =>
        (⟨tag.psqCost + Weights.psq traits' bundle (b.cells i) i, tag.stage + stages (b.cells i)⟩ : Tag P')) tag'
      Q next.psqCost next'.psqCost ∧ next.stage = next'.stage := by
    intro l
    induction l with
    | nil => exact fun _ _ hcost hstage => ⟨hcost, hstage⟩
    | cons i l ih =>
      intro tag tag' hcost hstage
      exact ih _ _ (sim.addPair hcost (sim.psq bundle _ _)) (congrArg (· + _) hstage)
  exact hfold _ _ _ sim.emptyPair rfl

end Tags

section Terms

theorem addWithCoef {lo hi : Int} {x : S} {x' : S'} (h : R lo hi x x') (weight : Fin n) (k : Int) :
    R lo hi (addWithCoef traits x weight k) (addWithCoef traits' x' weight k) := by
  have hadd := sim.add h (sim.scale k (sim.number weight))
  rw [add_zero, add_zero] at hadd
  exact hadd

theorem doEvalPawns (c : Color) (bbPawns bbEnemyPawns : Bitboard) :
    R 0 0 (doEvalPawns traits features c bbPawns bbEnemyPawns)
      (doEvalPawns traits' features c bbPawns bbEnemyPawns) := by
  unfold Impl.doEvalPawns
  repeat' apply sim.addWithCoef
  exact sim.zero

theorem evalPawns (b : Board) :
    R 0 0 (evalPawns traits features b).score (evalPawns traits' features b).score :=
  sim.sub (sim.doEvalPawns features _ _ _) (sim.doEvalPawns features _ _ _)

theorem maskToWeightSum (mask : Nat) (weights : Fin 6 → Fin n) :
    Q (maskToWeightSum traits mask weights) (maskToWeightSum traits' mask weights) := by
  have hnumbers : ∀ l : List (Fin n), List.Forall₂ I (numbers traits l) (numbers traits' l) := by
    intro l
    fun_induction numbers traits l with
    | case1 => exact List.Forall₂.nil
    | case2 a => exact List.Forall₂.cons (sim.number a) List.Forall₂.nil
    | case3 a b l ih => exact List.Forall₂.cons (sim.number2 a b) ih
  unfold Impl.maskToWeightSum
  dsimp only
  split
  · exact sim.from1 sim.empty
  · exact sim.from2 (sim.total (hnumbers _)) sim.empty

theorem evalKingSafety {b : Board} {stage : Int} {c : Color} {x : S} {x' : S'} (hstage : 0 ≤ stage)
    (hunit : stage ≤ coefUnit) (hx : evalKingSafety traits features b stage c = some x)
    (hx' : evalKingSafety traits' features b stage c = some x') : R (-255) 0 x x' := by
  have hnear : R 0 0 (Impl.addWithCoef traits
      (Impl.addWithCoef traits ScoreType.zero features.queenNearToKing (nearCount b c .queen))
      features.rookNearToKing (nearCount b c .rook)) (Impl.addWithCoef traits'
      (Impl.addWithCoef traits' ScoreType.zero features.queenNearToKing (nearCount b c .queen))
      features.rookNearToKing (nearCount b c .rook)) :=
    sim.addWithCoef (sim.addWithCoef sim.zero _ _) _ _
  unfold Impl.evalKingSafety at hx hx'
  dsimp only at hx hx'
  split at hx
  · rename_i hshield
    rw [if_pos hshield] at hx'
    obtain ⟨p, hp, rfl⟩ := Option.map_eq_some_iff.mp hx
    obtain ⟨p', hp', rfl⟩ := Option.map_eq_some_iff.mp hx'
    have hpair : Q p p' :=
      sim.addLargeItems (sim.maskToWeightSum _ _) (sim.maskToWeightSum _ _) hp hp'
    have hadd := sim.add hnear (sim.mix hpair hstage hunit)
    rwa [zero_add, zero_add] at hadd
  · rename_i hshield
    rw [if_neg hshield] at hx'
    obtain rfl := Option.some.inj hx
    obtain rfl := Option.some.inj hx'
    exact sim.mono (by decide) le_rfl hnear

theorem evalMaterial (b : Board) (c : Color) :
    R 0 0 (evalMaterial traits features b c) (evalMaterial traits' features b c) := by
  unfold Impl.evalMaterial
  dsimp only
  split
  · exact sim.add sim.zero (sim.item (sim.number _))
  · exact sim.zero

theorem evalOpenLines (b : Board) (c : Color) :
    R 0 0 (evalOpenLines traits features b (Impl.evalPawns traits features b) c)
      (evalOpenLines traits' features b (Impl.evalPawns traits' features b) c) := by
  unfold Impl.evalOpenLines
  repeat' apply sim.addWithCoef
  exact sim.zero

theorem evalUncached {b : Board} {tag : Tag P} {tag' : Tag P'} {x : S} {x' : S'}
    (hcost : Q tag.psqCost tag'.psqCost) (hstage : tag.stage = tag'.stage)
    (hx : evalUncached traits features b tag = some x)
    (hx' : evalUncached traits' features b tag' = some x') : R (-510) 255 x x' := by
  obtain ⟨hlo, hhi⟩ := calcStage_bounds tag.stage
  obtain ⟨w, k, hw, hk, rfl⟩ := evalUncached_eq_some.mp hx
  obtain ⟨w', k', hw', hk', rfl⟩ := evalUncached_eq_some.mp hx'
  rw [← hstage] at hw' hk'
  rw [scoreOf, scoreOf, ← hstage]
  have hking := sim.addDiff (sim.mix hcost hlo hhi) (sim.evalKingSafety features hlo hhi hw hw')
    (sim.evalKingSafety features hlo hhi hk hk')
  have hmaterial := sim.addDiff hking (sim.evalMaterial features b .white)
    (sim.evalMaterial features b .black)
  have hpawns := sim.add hmaterial (sim.evalPawns features b)
  exact sim.addDiff hpawns (sim.evalOpenLines features b .white)
    (sim.evalOpenLines features b .black)

end Terms

end Simulation

end SoFCheck.Eval
