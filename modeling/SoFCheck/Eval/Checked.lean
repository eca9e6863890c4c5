import SoFCheck.Eval.Simulation

namespace SoFCheck.Eval

open SoFCheck.Core.Types SoFCheck.Core.BoardState
open SoFCheck.Eval.Score SoFCheck.Eval.Score.ScorePair SoFCheck.Eval.Weights
open SoFCheck.Eval.Evaluate SoFCheck.Eval.Impl SoFCheck.Eval.PawnCache

/-- An exact score, or none as soon as one did not fit in 16 bits. -/
structure Checked where
  value : Option Int

/-- A pair of exact scores, or none as soon as one of a pair did not fit. -/
structure CheckedPair where
  value : Option (Int × Int)
  deriving DecidableEq

namespace Checked

def fit (x : Int) : Option Int := if InHalf x then some x else none

def fitPair (x : Int × Int) : Option (Int × Int) :=
  if InHalf x.1 ∧ InHalf x.2 then some x else none

def add (x y : Checked) : Checked :=
  ⟨x.value.bind fun a => y.value.bind fun b => fit (a + b)⟩

def sub (x y : Checked) : Checked :=
  ⟨x.value.bind fun a => y.value.bind fun b => fit (a - b)⟩

def addDiff (result x y : Checked) : Checked :=
  ⟨result.value.bind fun r => x.value.bind fun a => y.value.bind fun b => fit (r + (a - b))⟩

def scale (weight : Checked) (coef : Int) : Checked := ⟨weight.value.bind fun a => fit (a * coef)⟩

def total (l : List Checked) : Checked := ⟨(l.mapM value).bind fun values => fit values.sum⟩

def mixed (x : Int × Int) (stage : Int) : Int :=
  (x.1 * stage + x.2 * (coefUnit - stage)) >>> coefUnitShift

def mix (pair : CheckedPair) (stage : Int) : Checked :=
  ⟨pair.value.bind fun x => fit (mixed x stage)⟩

def pairOf (x y : Checked) : CheckedPair :=
  ⟨x.value.bind fun a => y.value.map fun b => (a, b)⟩

def addPair (p q : CheckedPair) : CheckedPair :=
  ⟨p.value.bind fun x => q.value.bind fun y => fitPair (x + y)⟩

def subPair (p q : CheckedPair) : CheckedPair :=
  ⟨p.value.bind fun x => q.value.bind fun y => fitPair (x - y)⟩

end Checked

instance instPairTraitsChecked : PairTraits CheckedPair where
  add := Checked.addPair
  sub := Checked.subPair
  neg := Checked.subPair ⟨some 0⟩
  beq p q := decide (p = q)
  empty := ⟨some 0⟩
  addItems p q := some (Checked.addPair p q)
  addLargeItems p q := some (Checked.addPair p q)

instance instScoreTypeChecked : ScoreType Checked CheckedPair where
  zero := ⟨some 0⟩
  add := Checked.add
  sub := Checked.sub
  addDiff := Checked.addDiff
  scale := Checked.scale
  total := Checked.total
  mix := Checked.mix

/-- The weights of the engine, whose sums are checked as well. -/
def checkedWeights {n : Nat} (weightValues : Fin n → Int16) : WeightTraits n Checked CheckedPair where
  empty := ⟨some 0⟩
  number num := ⟨some (weightValues num).toInt⟩
  number2 n1 n2 := ⟨Checked.fit ((weightValues n1).toInt + (weightValues n2).toInt)⟩
  negNumber2 n1 n2 := ⟨Checked.fit (-((weightValues n1).toInt + (weightValues n2).toInt))⟩
  from1 x := Checked.pairOf x x
  from2 := Checked.pairOf

/-- What the evaluator computes if no 16-bit value overflows on the way. -/
def exactScore {n : Nat} (weightValues : Fin n → Int16) (features : FeatureSet n) (b : Board) :
    Option Int :=
  (evalUncached (checkedWeights weightValues) features b
    (tagFrom (checkedWeights weightValues) features.psq b)).bind Checked.value

/-- `Evaluator<score_t>::evalForWhite` of a fresh evaluator, with the tag of the board. -/
def freshScore {n : Nat} (weightValues : Fin n → Int16) (features : FeatureSet n) (b : Board) :
    Option Int :=
  (scoreForWhite weightValues features fresh b
    (tagFrom (scoreWeights weightValues) features.psq b)).map Prod.fst

section Values

variable {x y : Checked} {p q : CheckedPair} {v : Int} {w : Int × Int}

theorem fit_eq_some {a : Int} : Checked.fit a = some v ↔ InHalf a ∧ a = v := by
  rw [Checked.fit, Option.ite_none_right_eq_some, Option.some.injEq]

theorem fitPair_eq_some {a : Int × Int} :
    Checked.fitPair a = some w ↔ (InHalf a.1 ∧ InHalf a.2) ∧ a = w := by
  rw [Checked.fitPair, Option.ite_none_right_eq_some, Option.some.injEq]

theorem inHalf_int16 (a : Int16) : InHalf a.toInt := by
  have hlo := a.le_toInt
  have hhi := a.toInt_lt
  unfold InHalf
  omega

end Values

section Packed

/-- A checked score is that of the engine. -/
def SameScore (x : Checked) (s : Int) : Prop := ∀ v, x.value = some v → s = v ∧ InHalf v

/-- A checked pair is packed into that of the engine. -/
def SamePair (p : CheckedPair) (q : ScorePair) : Prop :=
  ∀ w, p.value = some w → q = from2 w.1 w.2 ∧ InHalf w.1 ∧ InHalf w.2

theorem toScore_fit {a v : Int} (h : Checked.fit a = some v) : toScore a = v ∧ InHalf v := by
  obtain ⟨ha, rfl⟩ := fit_eq_some.mp h
  exact ⟨toScore_eq ha.1 ha.2, ha⟩

theorem from2_add (a b c d : Int) : from2 a b + from2 c d = from2 (a + c) (b + d) := by
  apply value_injective
  rw [value_add, from2, from2, from2, ← BitVec.ofInt_add]
  exact congrArg (BitVec.ofInt 32) (by ring)

theorem samePair_add {p q : CheckedPair} {p' q' : ScorePair} (hp : SamePair p p')
    (hq : SamePair q q') : SamePair (p + q) (p' + q') := by
  intro w hw
  obtain ⟨x, hx, hw⟩ := Option.bind_eq_some_iff.mp hw
  obtain ⟨y, hy, hw⟩ := Option.bind_eq_some_iff.mp hw
  obtain ⟨hfit, rfl⟩ := fitPair_eq_some.mp hw
  rw [(hp x hx).1, (hq y hy).1, from2_add]
  exact ⟨rfl, hfit⟩

theorem samePair_pairOf {x y : Checked} {s t : Int} (hx : SameScore x s) (hy : SameScore y t) :
    SamePair (Checked.pairOf x y) (from2 s t) := by
  intro w hw
  obtain ⟨a, ha, hw⟩ := Option.bind_eq_some_iff.mp hw
  obtain ⟨b, hb, rfl⟩ := Option.map_eq_some_iff.mp hw
  obtain ⟨rfl, ha⟩ := hx a ha
  obtain ⟨rfl, hb⟩ := hy b hb
  exact ⟨rfl, ha, hb⟩

theorem sameScore_fit {x : Checked} {a : Int} (h : x.value = Checked.fit a) : SameScore x (toScore a) := by
  intro v hv
  exact toScore_fit (h ▸ hv)

theorem mapM_value {l : List Checked} {l' values : List Int} (h : List.Forall₂ SameScore l l')
    (hvalues : l.mapM Checked.value = some values) : values = l' := by
  induction h generalizing values with
  | nil =>
    rw [List.mapM_nil] at hvalues
    exact (Option.some.inj hvalues).symm
  | @cons x s l l' hx hl ih =>
    rw [List.mapM_cons] at hvalues
    obtain ⟨a, ha, hvalues⟩ := Option.bind_eq_some_iff.mp hvalues
    obtain ⟨rest, hrest, hvalues⟩ := Option.bind_eq_some_iff.mp hvalues
    obtain rfl := Option.some.inj hvalues
    rw [(hx a ha).1, ih hrest]

variable {n : Nat} (weightValues : Fin n → Int16)

/-- The engine's evaluator agrees with the checked one wherever that has a score. -/
theorem simulation_score : Simulation (checkedWeights weightValues) (scoreWeights weightValues)
    (fun _ _ => SameScore) SameScore SamePair where
  mono _ _ h := h
  item h := h
  zero v hv := by
    obtain rfl := Option.some.inj hv
    exact ⟨rfl, by decide⟩
  empty v hv := by
    obtain rfl := Option.some.inj hv
    exact ⟨rfl, by decide⟩
  number i v hv := by
    obtain rfl := Option.some.inj hv
    exact ⟨rfl, inHalf_int16 _⟩
  number2 i j := sameScore_fit rfl
  negNumber2 i j := sameScore_fit rfl
  total := by
    intro l l' hl v hv
    obtain ⟨values, hvalues, hv⟩ := Option.bind_eq_some_iff.mp hv
    rw [← mapM_value hl hvalues]
    exact toScore_fit hv
  scale k hx := by
    intro v hv
    obtain ⟨a, ha, hv⟩ := Option.bind_eq_some_iff.mp hv
    rw [(hx a ha).1]
    exact toScore_fit hv
  add hx hy := by
    intro v hv
    obtain ⟨a, ha, hv⟩ := Option.bind_eq_some_iff.mp hv
    obtain ⟨b, hb, hv⟩ := Option.bind_eq_some_iff.mp hv
    rw [(hx a ha).1, (hy b hb).1]
    exact toScore_fit hv
  sub hx hy := by
    intro v hv
    obtain ⟨a, ha, hv⟩ := Option.bind_eq_some_iff.mp hv
    obtain ⟨b, hb, hv⟩ := Option.bind_eq_some_iff.mp hv
    rw [(hx a ha).1, (hy b hb).1]
    exact toScore_fit hv
  addDiff hr hx hy := by
    intro v hv
    obtain ⟨r, hr', hv⟩ := Option.bind_eq_some_iff.mp hv
    obtain ⟨a, ha, hv⟩ := Option.bind_eq_some_iff.mp hv
    obtain ⟨b, hb, hv⟩ := Option.bind_eq_some_iff.mp hv
    rw [(hr r hr').1, (hx a ha).1, (hy b hb).1]
    exact toScore_fit hv
  emptyPair w hw := by
    obtain rfl := Option.some.inj hw
    exact ⟨rfl, by decide, by decide⟩
  from1 hx := samePair_pairOf hx hx
  from2 hx hy := samePair_pairOf hx hy
  addPair := samePair_add
  addLargeItems hp hq hr hr' := by
    obtain rfl := Option.some.inj hr
    obtain rfl := Option.some.inj hr'
    exact samePair_add hp hq
  mix {p p' stage} hp _ _ := by
    intro v hv
    obtain ⟨w, hw, hv⟩ := Option.bind_eq_some_iff.mp hv
    obtain ⟨rfl, h1, h2⟩ := hp w hw
    have hmix : ScoreType.mix (from2 w.1 w.2) stage = toScore (Checked.mixed w stage) := by
      change toScore (((from2 w.1 w.2).first * stage +
        (from2 w.1 w.2).second * (coefUnit - stage)) >>> coefUnitShift) = _
      rw [first_from2 h1, second_from2 h1 h2, Checked.mixed]
    rw [hmix]
    exact toScore_fit hv

theorem score_exact (features : FeatureSet n) (b : Board) {v : Int}
    (h : exactScore weightValues features b = some v) :
    evalUncached (scoreWeights weightValues) features b
      (tagFrom (scoreWeights weightValues) features.psq b) = some v := by
  obtain ⟨x, hx, hv⟩ := Option.bind_eq_some_iff.mp h
  have sim := simulation_score weightValues
  obtain ⟨hcost, hstage⟩ := sim.tagFrom features.psq b
  obtain ⟨s, hs⟩ := Option.isSome_iff_exists.mp (isSome_evalUncached weightValues features b
    (tagFrom (scoreWeights weightValues) features.psq b))
  rw [hs, (sim.evalUncached features hcost hstage hx hs v hv).1]

theorem freshScore_exact (features : FeatureSet n) {b : Board} {v : Int}
    (h : exactScore weightValues features b = some v) : freshScore weightValues features b = some v :=
  (scoreForWhite_fresh _).trans (score_exact weightValues features b h)

end Packed

end SoFCheck.Eval
