import SoFCheck.Eval.Bounds
import SoFCheck.Util.ArrayRuns

namespace SoFCheck.Eval.Tuning

open SoFCheck.Util.Bits SoFCheck.Util.Words SoFCheck.Util.ValArray SoFCheck.Util.ArrayRuns
open SoFCheck.Core.Types SoFCheck.Core.Grid SoFCheck.Core.Geometry SoFCheck.Core.BoardState
open SoFCheck.Core.Validate SoFCheck.Core.InitialPosition SoFCheck.Eval.Score SoFCheck.Eval.Weights
open SoFCheck.Eval.Evaluate SoFCheck.Eval.Bitboard SoFCheck.Eval.Impl SoFCheck.Eval.PawnCache

section Sums

variable {n : Nat} (weightValues : Fin n → Int16)

/-- The score, in parts of `coefUnit`, that the coefficients give with these weights. -/
def dot (a : SparseValArray n) : Int := ∑ i, a.take i * (weightValues i).toInt

/-- Every item counts whole features. -/
def Whole (a : SparseValArray n) : Prop := ∀ item ∈ a.storage, coefUnit ∣ item.2

variable {a b : SparseValArray n}

theorem dot_empty : dot weightValues SparseValArray.empty = 0 := by
  rw [dot, SparseValArray.take_empty]
  simp

theorem dot_add : dot weightValues (a + b) = dot weightValues a + dot weightValues b := by
  simp only [dot, SparseValArray.take_add, Pi.add_apply, add_mul, Finset.sum_add_distrib]

theorem dot_sub : dot weightValues (a - b) = dot weightValues a - dot weightValues b := by
  simp only [dot, SparseValArray.take_sub, Pi.sub_apply, sub_mul, Finset.sum_sub_distrib]

theorem dot_scale (k : Int) : dot weightValues (a.scale k) = dot weightValues a * k := by
  simp only [dot, SparseValArray.take_scale, Finset.sum_mul]
  exact Finset.sum_congr rfl fun i _ => by ring

theorem dot_add_item (i : Fin n) (value : Int) :
    dot weightValues (a.add i value) = dot weightValues a + value * (weightValues i).toInt := by
  simp only [dot, SparseValArray.take_add_item, Pi.add_apply, add_mul, Finset.sum_add_distrib]
  congr 1
  rw [Finset.sum_eq_single i]
  · rw [Pi.single_eq_same]
  · intro j _ hj
    rw [Pi.single_eq_of_ne hj, zero_mul]
  · exact fun hi => absurd (Finset.mem_univ i) hi

theorem dvd_take (h : Whole a) (i : Fin n) : coefUnit ∣ a.take i := by
  obtain ⟨l⟩ := a
  induction l with
  | nil => exact dvd_zero _
  | cons item l ih =>
    rw [SparseValArray.take_cons, Pi.add_apply]
    apply dvd_add
    · by_cases hi : i = item.1
      · subst hi
        rw [Pi.single_eq_same]
        exact h _ List.mem_cons_self
      · rw [Pi.single_eq_of_ne hi]
        exact dvd_zero _
    · exact ih fun item hitem => h item (List.mem_cons_of_mem _ hitem)

theorem whole_empty : Whole (SparseValArray.empty : SparseValArray n) := fun _ h =>
  absurd h List.not_mem_nil

theorem whole_tryCompactify (h : Whole a) : Whole a.tryCompactify := by
  rw [SparseValArray.tryCompactify]
  split
  · intro item hitem
    obtain ⟨i, -, rfl⟩ := List.mem_map.mp hitem
    exact dvd_take h i
  · exact h

theorem whole_add (ha : Whole a) (hb : Whole b) : Whole (a + b) := by
  apply whole_tryCompactify
  intro item hitem
  exact (List.mem_append.mp hitem).elim (ha item) (hb item)

theorem whole_add_item (ha : Whole a) (i : Fin n) {value : Int} (h : coefUnit ∣ value) :
    Whole (a.add i value) := by
  apply whole_tryCompactify
  intro item hitem
  obtain hitem | hitem := List.mem_append.mp hitem
  · exact ha item hitem
  · rw [List.mem_singleton.mp hitem]
    exact h

theorem whole_scale (ha : Whole a) (k : Int) : Whole (a.scale k) := by
  intro item hitem
  obtain ⟨source, hsource, rfl⟩ := List.mem_map.mp hitem
  exact (ha source hsource).mul_right k

theorem dot_shiftRight (h : Whole a) :
    coefUnit * dot weightValues (a.shiftRight coefUnitShift) = dot weightValues a := by
  rw [dot, dot, Finset.mul_sum]
  apply Finset.sum_congr rfl
  intro i _
  have hdropped : dropped a coefUnitShift i = 0 := by
    have hmap : (a.storage.map fun item => (item.1, item.2 % 2 ^ coefUnitShift)) =
        a.storage.map fun item => (item.1, item.2 * 0) := by
      apply List.map_congr_left
      intro item hitem
      have hzero : item.2 % 2 ^ coefUnitShift = 0 := Int.emod_eq_zero_of_dvd (h item hitem)
      rw [mul_zero, hzero]
    rw [dropped, hmap]
    exact (congrFun (SparseValArray.take_scale a 0) i).trans (mul_zero _)
  have hsplit := take_split a.storage coefUnitShift i
  rw [hdropped, add_zero] at hsplit
  rw [← mul_assoc]
  exact congrArg (· * (weightValues i).toInt) hsplit.symm

end Sums

section Agreement

variable {n : Nat} (weightValues : Fin n → Int16)

/-- The coefficients give the score, up to what the roundings lose. -/
def Rounded (lo hi : Int) (x : Checked) (a : SparseValArray n) : Prop := ∀ v, x.value = some v →
  lo ≤ coefUnit * v - dot weightValues a ∧ coefUnit * v - dot weightValues a ≤ hi

/-- Whole features that give the score. -/
def Counted (x : Checked) (a : SparseValArray n) : Prop :=
  Whole a ∧ ∀ v, x.value = some v → coefUnit * v = dot weightValues a

def CountedPair (p : CheckedPair) (q : CoefsPair n) : Prop :=
  (Whole q.first ∧ Whole q.second) ∧ ∀ w, p.value = some w →
    coefUnit * w.1 = dot weightValues q.first ∧ coefUnit * w.2 = dot weightValues q.second

variable {x y : Checked} {a c : SparseValArray n} {p q : CheckedPair} {p' q' : CoefsPair n}

theorem countedPair_pairOf (hx : Counted weightValues x a) (hy : Counted weightValues y c) :
    CountedPair weightValues (Checked.pairOf x y) ⟨a, c⟩ := by
  refine ⟨⟨hx.1, hy.1⟩, fun w hw => ?_⟩
  obtain ⟨u, hu, hw⟩ := Option.bind_eq_some_iff.mp hw
  obtain ⟨v, hv, rfl⟩ := Option.map_eq_some_iff.mp hw
  exact ⟨hx.2 u hu, hy.2 v hv⟩

theorem countedPair_add (hp : CountedPair weightValues p p') (hq : CountedPair weightValues q q') :
    CountedPair weightValues (p + q) (p' + q') := by
  refine ⟨⟨whole_add hp.1.1 hq.1.1, whole_add hp.1.2 hq.1.2⟩, fun w hw => ?_⟩
  obtain ⟨u, hu, hw⟩ := Option.bind_eq_some_iff.mp hw
  obtain ⟨v, hv, hw⟩ := Option.bind_eq_some_iff.mp hw
  obtain ⟨-, rfl⟩ := fitPair_eq_some.mp hw
  obtain ⟨h₁, h₂⟩ := hp.2 u hu
  obtain ⟨h₁', h₂'⟩ := hq.2 v hv
  have hfirst : dot weightValues (p' + q').first = dot weightValues p'.first +
      dot weightValues q'.first := dot_add weightValues
  have hsecond : dot weightValues (p' + q').second = dot weightValues p'.second +
      dot weightValues q'.second := dot_add weightValues
  rw [hfirst, hsecond, Prod.fst_add, Prod.snd_add]
  exact ⟨by linarith, by linarith⟩

theorem addWithin_eq {capacity : Nat} {r : CoefsPair n} (h : p'.addWithin capacity q' = some r) :
    r = p' + q' := by
  obtain ⟨first, hfirst, h⟩ := Option.bind_eq_some_iff.mp h
  obtain ⟨second, hsecond, h⟩ := Option.bind_eq_some_iff.mp h
  obtain rfl := Option.some.inj h
  rw [← ((SparseValArray.addWithin_eq_some _ _).mp hfirst).2,
    ← ((SparseValArray.addWithin_eq_some _ _).mp hsecond).2]
  rfl

theorem counted_number (i : Fin n) : Counted weightValues ((checkedWeights weightValues).number i)
    ((coefsWeights n).number i) := by
  refine ⟨whole_add_item whole_empty i dvd_rfl, fun v hv => ?_⟩
  obtain rfl := Option.some.inj hv
  exact ((dot_add_item weightValues i coefUnit).trans
    (by rw [dot_empty, zero_add])).symm

theorem counted_twice (i j : Fin n) {unit : Int} (hunit : coefUnit ∣ unit) {s : Int}
    (hs : coefUnit * s = unit * (weightValues i).toInt + unit * (weightValues j).toInt) :
    Counted weightValues ⟨Checked.fit s⟩ ((SparseValArray.empty.add i unit).add j unit) := by
  refine ⟨whole_add_item (whole_add_item whole_empty i hunit) j hunit, fun v hv => ?_⟩
  obtain ⟨-, rfl⟩ := fit_eq_some.mp hv
  rw [hs, dot_add_item, dot_add_item, dot_empty, zero_add]

theorem counted_total {l : List Checked} {l' : List (SparseValArray n)}
    (h : List.Forall₂ (Counted weightValues) l l') :
    Counted weightValues (ScoreType.total l) (ScoreType.total l') := by
  have hloop : ∀ {acc : SparseValArray n}, Whole acc → Whole (l'.foldl (· + ·) acc) ∧
      ∀ values, l.mapM Checked.value = some values → dot weightValues (l'.foldl (· + ·) acc) =
        dot weightValues acc + coefUnit * values.sum := by
    induction h with
    | nil =>
      intro acc hacc
      refine ⟨hacc, fun values hvalues => ?_⟩
      rw [List.mapM_nil] at hvalues
      obtain rfl := Option.some.inj hvalues
      exact (add_zero _).symm
    | @cons x a l l' hx hl ih =>
      intro acc hacc
      obtain ⟨hwhole, hsum⟩ := ih (whole_add hacc hx.1)
      refine ⟨hwhole, fun values hvalues => ?_⟩
      rw [List.mapM_cons] at hvalues
      obtain ⟨v, hv, hvalues⟩ := Option.bind_eq_some_iff.mp hvalues
      obtain ⟨rest, hrest, hvalues⟩ := Option.bind_eq_some_iff.mp hvalues
      obtain rfl := Option.some.inj hvalues
      rw [List.foldl_cons, hsum rest hrest, dot_add, ← hx.2 v hv, List.sum_cons]
      ring
  obtain ⟨hwhole, hsum⟩ := hloop whole_empty
  refine ⟨hwhole, fun v hv => ?_⟩
  obtain ⟨values, hvalues, hv⟩ := Option.bind_eq_some_iff.mp hv
  obtain ⟨-, rfl⟩ := fit_eq_some.mp hv
  exact ((hsum values hvalues).trans (by rw [dot_empty, zero_add])).symm

theorem rounded_mix {stage : Int} (h : CountedPair weightValues p p') :
    Rounded weightValues (-255) 0 (ScoreType.mix p stage) (ScoreType.mix p' stage) := by
  intro v hv
  obtain ⟨w, hw, hv⟩ := Option.bind_eq_some_iff.mp hv
  obtain ⟨-, rfl⟩ := fit_eq_some.mp hv
  obtain ⟨h₁, h₂⟩ := h.2 w hw
  have hshift := dot_shiftRight weightValues
    (whole_add (whole_scale h.1.1 stage) (whole_scale h.1.2 (coefUnit - stage)))
  rw [dot_add, dot_scale, dot_scale, ← h₁, ← h₂] at hshift
  change -255 ≤ coefUnit * Checked.mixed w stage - dot weightValues ((p'.first.scale stage +
    p'.second.scale (coefUnit - stage)).shiftRight coefUnitShift) ∧ _ ≤ 0
  rw [Checked.mixed, Int.shiftRight_eq_div_pow]
  generalize dot weightValues ((p'.first.scale stage +
    p'.second.scale (coefUnit - stage)).shiftRight coefUnitShift) = d at hshift ⊢
  have hd : d = w.1 * stage + w.2 * (coefUnit - stage) := by
    have hunit : (coefUnit : Int) ≠ 0 := by decide
    apply mul_left_cancel₀ hunit
    rw [hshift]
    ring
  rw [← hd]
  have hpow : ((2 ^ coefUnitShift : Nat) : Int) = 256 := by decide
  have hunit : coefUnit = 256 := by decide
  rw [hpow, hunit]
  omega

variable {lo hi lo₁ hi₁ lo₂ hi₂ : Int} {r : Checked} {e : SparseValArray n}

theorem rounded_add (hx : Rounded weightValues lo hi x a) (hy : Rounded weightValues lo₁ hi₁ y c) :
    Rounded weightValues (lo + lo₁) (hi + hi₁) (Checked.add x y) (a + c) := by
  intro v hv
  obtain ⟨s, hs, hv⟩ := Option.bind_eq_some_iff.mp hv
  obtain ⟨t, ht, hv⟩ := Option.bind_eq_some_iff.mp hv
  obtain ⟨-, rfl⟩ := fit_eq_some.mp hv
  obtain ⟨h₁, h₁'⟩ := hx s hs
  obtain ⟨h₂, h₂'⟩ := hy t ht
  rw [dot_add, mul_add]
  omega

theorem rounded_sub (hx : Rounded weightValues lo hi x a) (hy : Rounded weightValues lo₁ hi₁ y c) :
    Rounded weightValues (lo - hi₁) (hi - lo₁) (Checked.sub x y) (a - c) := by
  intro v hv
  obtain ⟨s, hs, hv⟩ := Option.bind_eq_some_iff.mp hv
  obtain ⟨t, ht, hv⟩ := Option.bind_eq_some_iff.mp hv
  obtain ⟨-, rfl⟩ := fit_eq_some.mp hv
  obtain ⟨h₁, h₁'⟩ := hx s hs
  obtain ⟨h₂, h₂'⟩ := hy t ht
  rw [dot_sub, mul_sub]
  omega

theorem rounded_addDiff (hr : Rounded weightValues lo hi r e) (hx : Rounded weightValues lo₁ hi₁ x a)
    (hy : Rounded weightValues lo₂ hi₂ y c) : Rounded weightValues (lo + (lo₁ - hi₂))
      (hi + (hi₁ - lo₂)) (Checked.addDiff r x y) (e + (a - c)) := by
  intro v hv
  obtain ⟨u, hu, hv⟩ := Option.bind_eq_some_iff.mp hv
  obtain ⟨s, hs, hv⟩ := Option.bind_eq_some_iff.mp hv
  obtain ⟨t, ht, hv⟩ := Option.bind_eq_some_iff.mp hv
  obtain ⟨-, rfl⟩ := fit_eq_some.mp hv
  obtain ⟨h₀, h₀'⟩ := hr u hu
  obtain ⟨h₁, h₁'⟩ := hx s hs
  obtain ⟨h₂, h₂'⟩ := hy t ht
  rw [dot_add, dot_sub, mul_add, mul_sub]
  omega

theorem rounded_of_eq (h : ∀ v, x.value = some v → coefUnit * v = dot weightValues a) :
    Rounded weightValues 0 0 x a := by
  intro v hv
  rw [h v hv, sub_self]
  exact ⟨le_rfl, le_rfl⟩

theorem counted_empty : Counted weightValues ⟨some 0⟩ SparseValArray.empty := by
  refine ⟨whole_empty, fun v hv => ?_⟩
  obtain rfl := Option.some.inj hv
  exact (dot_empty weightValues).symm

theorem rounded_scale (k : Int) (hx : Counted weightValues x a) :
    Rounded weightValues 0 0 (Checked.scale x k) (a.scale k) := by
  apply rounded_of_eq
  intro v hv
  obtain ⟨u, hu, hv⟩ := Option.bind_eq_some_iff.mp hv
  obtain ⟨-, rfl⟩ := fit_eq_some.mp hv
  rw [dot_scale, ← hx.2 u hu, mul_assoc]

theorem simulation_coefs : Simulation (checkedWeights weightValues) (coefsWeights n)
    (Rounded weightValues) (Counted weightValues) (CountedPair weightValues) where
  mono hlo hhi h v hv := ⟨hlo.trans (h v hv).1, (h v hv).2.trans hhi⟩
  item h := rounded_of_eq weightValues h.2
  zero := rounded_of_eq weightValues (counted_empty weightValues).2
  empty := counted_empty weightValues
  number := counted_number weightValues
  number2 i j := counted_twice weightValues i j dvd_rfl (by ring)
  negNumber2 i j := counted_twice weightValues i j (dvd_neg.mpr dvd_rfl) (by ring)
  total := counted_total weightValues
  scale := rounded_scale weightValues
  add := rounded_add weightValues
  sub := rounded_sub weightValues
  addDiff := rounded_addDiff weightValues
  emptyPair := ⟨⟨whole_empty, whole_empty⟩, fun w hw => by
    obtain rfl := Option.some.inj hw
    exact ⟨(dot_empty weightValues).symm, (dot_empty weightValues).symm⟩⟩
  from1 hx := countedPair_pairOf weightValues hx hx
  from2 hx hy := countedPair_pairOf weightValues hx hy
  addPair := countedPair_add weightValues
  addLargeItems hp hq hr hr' := by
    obtain rfl := Option.some.inj hr
    rw [addWithin_eq hr']
    exact countedPair_add weightValues hp hq
  mix hp _ _ := rounded_mix weightValues hp

end Agreement

section Capacity

variable {n : Nat} {a c : SparseValArray n}

theorem storage_add (h : a.storage.length + c.storage.length ≤ 3 * n) :
    (a + c).storage = a.storage ++ c.storage := by
  change (SparseValArray.tryCompactify ⟨a.storage ++ c.storage⟩).storage = _
  rw [SparseValArray.tryCompactify, if_neg]
  rw [List.length_append]
  omega

theorem storage_add_item (i : Fin n) (value : Int) (h : a.storage.length < 3 * n) :
    (a.add i value).storage = a.storage ++ [(i, value)] := by
  rw [SparseValArray.add, SparseValArray.tryCompactify, if_neg]
  rw [List.length_append, List.length_singleton]
  omega

theorem storage_numbers (l : List (Fin n)) (hn : 1 < 3 * n)
    (h : a.storage.length + l.length ≤ 3 * n) :
    ((numbers (coefsWeights n) l).foldl (· + ·) a).storage =
      a.storage ++ l.map fun i => (i, coefUnit) := by
  fun_induction numbers (coefsWeights n) l generalizing a with
  | case1 => exact (List.append_nil _).symm
  | case2 i =>
    have hitem : ((coefsWeights n).number i).storage = [(i, coefUnit)] :=
      storage_add_item i coefUnit (show 0 < 3 * n by omega)
    rw [List.foldl_cons, List.foldl_nil, storage_add (by rw [hitem]; exact h), hitem]
    rfl
  | case3 i j l ih =>
    rw [List.length_cons, List.length_cons] at h
    have hfirst : (SparseValArray.empty.add i coefUnit).storage = [(i, coefUnit)] :=
      storage_add_item i coefUnit (show 0 < 3 * n by omega)
    have hitems : ((coefsWeights n).number2 i j).storage = [(i, coefUnit), (j, coefUnit)] :=
      (storage_add_item j coefUnit (by rw [hfirst]; exact hn)).trans (by rw [hfirst]; rfl)
    have hsum := storage_add (a := a) (c := (coefsWeights n).number2 i j)
      (by rw [hitems, List.length_cons, List.length_singleton]; omega)
    rw [List.foldl_cons, ih (by rw [hsum, hitems, List.length_append]; simp; omega), hsum, hitems,
      List.append_assoc]
    rfl

/-- How many of the three columns a mask names. -/
def bits (mask : Nat) : Nat := ((List.finRange 3).filter fun i => mask.testBit i.val).length

theorem bits_le (mask : Nat) : bits mask ≤ 3 := by
  rw [bits]
  exact (List.length_filter_le _ _).trans (by decide)

theorem bits_kingPawnMask : ∀ (inverted : Bool) (mask1 mask2 : Fin 8),
    ((List.finRange 6).filter fun idx => (kingPawnMask inverted mask1 mask2).testBit idx.val).length =
      bits mask1 + bits mask2 := by decide

theorem bits_eq_three : ∀ mask : Fin 8, bits mask = 3 ↔ mask.val = 7 := by decide

theorem bits_or : ∀ mask mask' : Fin 8, mask.val &&& mask'.val = 0 →
    bits (mask.val ||| mask'.val) = bits mask + bits mask' := by decide

theorem length_maskToWeightSum (mask : Nat) (weights : Fin 6 → Fin n) (hn : 6 ≤ 3 * n) :
    (maskToWeightSum (coefsWeights n) mask weights).first.storage.length =
        ((List.finRange 6).filter fun idx => mask.testBit idx.val).length ∧
      (maskToWeightSum (coefsWeights n) mask weights).second.storage.length = 0 := by
  have hsix : ((List.finRange 6).filter fun idx => mask.testBit idx.val).length ≤ 6 :=
    (List.length_filter_le _ _).trans (by decide)
  unfold maskToWeightSum
  dsimp only
  generalize (List.finRange 6).filter (fun idx => mask.testBit idx.val) = l at hsix ⊢
  by_cases hl : l.map weights = []
  · rw [if_pos hl, List.map_eq_nil_iff.mp hl]
    exact ⟨rfl, rfl⟩
  · rw [if_neg hl]
    have hitems := storage_numbers (a := SparseValArray.empty) (l.map weights) (by omega)
      (by rw [List.length_map]; exact (Nat.zero_add _).trans_le (hsix.trans hn))
    refine ⟨?_, rfl⟩
    change (List.foldl (· + ·) SparseValArray.empty (numbers (coefsWeights n)
      (l.map weights))).storage.length = l.length
    rw [hitems, List.length_append, List.length_map, List.length_map]
    exact Nat.zero_add _

theorem isSome_addLargeItems (bundle : KingPawnBundle n) (inverted : Bool) (m₁ m₂ m₃ m₄ : Fin 8) :
    (PairTraits.addLargeItems (kingPawnShield (coefsWeights n) bundle inverted m₁ m₂)
      (kingPawnStorm (coefsWeights n) bundle inverted m₃ m₄)).isSome = true ↔
      bits m₁ + bits m₂ + (bits m₃ + bits m₄) ≤ 8 := by
  have hn : 6 ≤ 3 * n := by
    have := bundle.fits
    omega
  obtain ⟨hshield, hshield'⟩ :=
    length_maskToWeightSum (kingPawnMask inverted m₁ m₂) bundle.shield hn
  obtain ⟨hstorm, hstorm'⟩ := length_maskToWeightSum (kingPawnMask inverted m₃ m₄) bundle.storm hn
  rw [bits_kingPawnMask] at hshield hstorm
  change (CoefsPair.addWithin largeItemCapacity _ _).isSome = true ↔ _
  unfold CoefsPair.addWithin SparseValArray.addWithin kingPawnShield kingPawnStorm
  rw [hshield, hstorm, hshield', hstorm', if_pos (show 0 + 0 ≤ largeItemCapacity by decide)]
  change _ ↔ _ ≤ largeItemCapacity
  split
  · rename_i hle
    exact ⟨fun _ => hle, fun _ => rfl⟩
  · rename_i hle
    exact ⟨fun h => absurd h Bool.false_ne_true, fun h => absurd h hle⟩

end Capacity

section Crowded

variable {n : Nat} (features : FeatureSet n) {b : Board}

/-- The nine cells before a castled king are full of pawns: its own on the first row, its own or the
enemy's on the second one, and the enemy's on the third one. -/
def Crowded (b : Board) (c : Color) : Prop :=
  let own := b.bbPieces (makeCell c .pawn)
  let enemy := b.bbPieces (makeCell (invert c) .pawn)
  let kingY := col (kingPos b c)
  b.bbPieces (makeCell c .king) &&& bbShieldedKing c ≠ 0 ∧
    if c = .white then
      rowMask own (bbRow 6) (kingY + 47) = 7 ∧ rowMask (own ||| enemy) (bbRow 5) (kingY + 39) = 7 ∧
        rowMask enemy (bbRow 4) (kingY + 31) = 7
    else
      rowMask own (bbRow 1) (kingY + 7) = 7 ∧ rowMask (own ||| enemy) (bbRow 2) (kingY + 15) = 7 ∧
        rowMask enemy (bbRow 3) (kingY + 23) = 7

instance instDecidableCrowded (b : Board) (c : Color) : Decidable (Crowded b c) :=
  inferInstanceAs (Decidable (_ ∧ _))

theorem rowMask_or (x y r : Bitboard) (shift : Nat) :
    rowMask (x ||| y) r shift = rowMask x r shift ||| rowMask y r shift := by
  rw [rowMask, rowMask, rowMask, ← BitVec.toNat_or, BitVec.and_or_distrib_right,
    BitVec.ushiftRight_or_distrib, BitVec.and_or_distrib_right]

theorem rowMask_and {x y : Bitboard} (h : x &&& y = 0) (r : Bitboard) (shift : Nat) :
    rowMask x r shift &&& rowMask y r shift = 0 := by
  have hrow : (x &&& r) &&& (y &&& r) = 0 := by
    calc (x &&& r) &&& (y &&& r) = (x &&& y) &&& (r &&& r) := by ac_rfl
      _ = 0 := by
        rw [h]
        exact BitVec.zero_and
  have hmask : ((x &&& r) >>> shift &&& 7) &&& ((y &&& r) >>> shift &&& 7) = 0 := by
    calc ((x &&& r) >>> shift &&& 7) &&& ((y &&& r) >>> shift &&& 7)
        = ((x &&& r) >>> shift &&& (y &&& r) >>> shift) &&& (7 &&& 7) := by ac_rfl
      _ = 0 := by
        have hshift : (0 : Bitboard) >>> shift = 0 := BitVec.zero_ushiftRight
        rw [← BitVec.ushiftRight_and_distrib, hrow, hshift]
        exact BitVec.zero_and
  rw [rowMask, rowMask, ← BitVec.toNat_and, hmask]
  rfl

/-- The storage of a `LargeItem` is too small for nine pawns, and large enough for eight. -/
theorem isSome_kingPawnResult (hs : Synced b) (c : Color)
    (hking : b.bbPieces (makeCell c .king) &&& bbShieldedKing c ≠ 0) :
    (kingPawnResult (coefsWeights n) features b c).isSome = true ↔ ¬Crowded b c := by
  have hdisjoint : b.bbPieces (makeCell c .pawn) &&& b.bbPieces (makeCell (invert c) .pawn) = 0 := by
    apply hasBit_ext
    intro s
    rw [hasBit_and, hasBit_ofNat_zero, Bool.and_eq_false_iff]
    by_cases hp : b.cells s = makeCell c .pawn
    · right
      rw [← Bool.not_eq_true, hasBit_bbPieces hs, hp, makeCell_inj]
      cases c <;> simp [invert]
    · left
      rwa [← Bool.not_eq_true, hasBit_bbPieces hs]
  have hcount : ∀ {r₁ r₂ r₃ : Bitboard} {s₁ s₂ s₃ : Nat} (inverted : Bool),
      (PairTraits.addLargeItems
        (kingPawnShield (coefsWeights n) features.kingPawn inverted
          (rowMask (b.bbPieces (makeCell c .pawn)) r₁ s₁)
          (rowMask (b.bbPieces (makeCell c .pawn)) r₂ s₂))
        (kingPawnStorm (coefsWeights n) features.kingPawn inverted
          (rowMask (b.bbPieces (makeCell (invert c) .pawn)) r₂ s₂)
          (rowMask (b.bbPieces (makeCell (invert c) .pawn)) r₃ s₃))).isSome = true ↔
      ¬(rowMask (b.bbPieces (makeCell c .pawn)) r₁ s₁ = 7 ∧
        rowMask (b.bbPieces (makeCell c .pawn) ||| b.bbPieces (makeCell (invert c) .pawn)) r₂ s₂ = 7 ∧
        rowMask (b.bbPieces (makeCell (invert c) .pawn)) r₃ s₃ = 7) := by
    intro r₁ r₂ r₃ s₁ s₂ s₃ inverted
    have hand := rowMask_and hdisjoint r₂ s₂
    rw [rowMask_or]
    have h₁ := Bounds.rowMask_lt (b.bbPieces (makeCell c .pawn)) r₁ s₁
    have h₂ := Bounds.rowMask_lt (b.bbPieces (makeCell c .pawn)) r₂ s₂
    have h₂' := Bounds.rowMask_lt (b.bbPieces (makeCell (invert c) .pawn)) r₂ s₂
    have h₃ := Bounds.rowMask_lt (b.bbPieces (makeCell (invert c) .pawn)) r₃ s₃
    generalize rowMask (b.bbPieces (makeCell c .pawn)) r₁ s₁ = m₁ at h₁ ⊢
    generalize rowMask (b.bbPieces (makeCell c .pawn)) r₂ s₂ = m₂ at h₂ hand ⊢
    generalize rowMask (b.bbPieces (makeCell (invert c) .pawn)) r₂ s₂ = m₂' at h₂' hand ⊢
    generalize rowMask (b.bbPieces (makeCell (invert c) .pawn)) r₃ s₃ = m₃ at h₃ ⊢
    have hor : m₂ ||| m₂' < 8 := Nat.or_lt_two_pow (n := 3) h₂ h₂'
    have hall := isSome_addLargeItems features.kingPawn inverted ⟨m₁, h₁⟩ ⟨m₂, h₂⟩ ⟨m₂', h₂'⟩ ⟨m₃, h₃⟩
    have hbits := bits_or ⟨m₂, h₂⟩ ⟨m₂', h₂'⟩ hand
    have hrow₁ := bits_eq_three ⟨m₁, h₁⟩
    have hrow₂ := bits_eq_three ⟨m₂ ||| m₂', hor⟩
    have hrow₃ := bits_eq_three ⟨m₃, h₃⟩
    have hle₁ := bits_le m₁
    have hle₂ := bits_le (m₂ ||| m₂')
    have hle₃ := bits_le m₃
    dsimp only at hall hbits hrow₁ hrow₂ hrow₃
    rw [hall, ← hrow₁, ← hrow₂, ← hrow₃]
    omega
  unfold kingPawnResult
  dsimp only
  rw [hcount, Crowded]
  cases c
  · exact not_congr (and_iff_right hking).symm
  · exact not_congr (and_iff_right hking).symm

theorem isSome_evalKingSafety (hs : Synced b) (stage : Int) (c : Color) :
    (evalKingSafety (coefsWeights n) features b stage c).isSome = true ↔ ¬Crowded b c := by
  unfold evalKingSafety
  dsimp only
  by_cases hking : b.bbPieces (makeCell c .king) &&& bbShieldedKing c ≠ 0
  · rw [if_pos hking, Option.isSome_map]
    exact isSome_kingPawnResult features hs c hking
  · rw [if_neg hking]
    exact ⟨fun _ hcrowded => hking hcrowded.1, fun _ => rfl⟩

theorem isSome_evalUncached (hs : Synced b) (tag : Tag (CoefsPair n)) :
    (evalUncached (coefsWeights n) features b tag).isSome = true ↔ ∀ c, ¬Crowded b c := by
  have hboth : (evalUncached (coefsWeights n) features b tag).isSome = true ↔ ∀ c,
      (evalKingSafety (coefsWeights n) features b (calcStage tag.stage) c).isSome = true := by
    constructor
    · intro h c
      obtain ⟨coefs, hcoefs⟩ := Option.isSome_iff_exists.mp h
      obtain ⟨white, black, hwhite, hblack, -⟩ := evalUncached_eq_some.mp hcoefs
      cases c
      · rw [hwhite, Option.isSome_some]
      · rw [hblack, Option.isSome_some]
    · intro h
      obtain ⟨white, hwhite⟩ := Option.isSome_iff_exists.mp (h .white)
      obtain ⟨black, hblack⟩ := Option.isSome_iff_exists.mp (h .black)
      rw [evalUncached_eq_some.mpr ⟨white, black, hwhite, hblack, rfl⟩, Option.isSome_some]
  exact hboth.trans (forall_congr' fun c => isSome_evalKingSafety features hs _ c)

end Crowded

section Shipped

open SoFCheck.Eval.Shipped SoFCheck.Eval.Bounds

/-- What the weights are tuned on is what is played: where nothing overflows, the score is less than
two below and less than one above what its coefficients give. -/
def Agrees {n : Nat} (weightValues : Fin n → Int16) (features : FeatureSet n) (b : Board) : Prop :=
  ∃ coefs, evalUncached (coefsWeights n) features b (tagFrom (coefsWeights n) features.psq b) =
      some coefs ∧
    ∀ s, exactScore weightValues features b = some s → freshScore weightValues features b = some s ∧
      -512 < 256 * s - dot weightValues coefs ∧ 256 * s - dot weightValues coefs < 256

/-- Whatever the weights are, the two evaluators agree unless the coefficients do not fit where they
are stored. -/
theorem agrees_iff_not_crowded [Globals] {n : Nat} (weightValues : Fin n → Int16)
    (features : FeatureSet n) {b : Board} (hb : Valid b) :
    Agrees weightValues features b ↔ ∀ c, ¬Crowded b c := by
  rw [← isSome_evalUncached features (valid_iff.mp hb).1.synced (tagFrom (coefsWeights n) features.psq b)]
  constructor
  · intro h
    obtain ⟨coefs, hcoefs, -⟩ := h
    rw [hcoefs, Option.isSome_some]
  · intro h
    obtain ⟨coefs, hcoefs⟩ := Option.isSome_iff_exists.mp h
    refine ⟨coefs, hcoefs, fun s hs => ⟨freshScore_exact weightValues features hs, ?_⟩⟩
    obtain ⟨x, hx, hxs⟩ := Option.bind_eq_some_iff.mp hs
    have sim := simulation_coefs weightValues
    obtain ⟨hcost, hstage⟩ := sim.tagFrom features.psq b
    -- the three roundings lose less than one each
    obtain ⟨hlo, hhi⟩ := sim.evalUncached features hcost hstage hx hcoefs s hxs
    have hunit : coefUnit = 256 := by decide
    rw [hunit] at hlo hhi
    omega

open SoFCheck.Core.Sequence in
theorem not_crowded_variedBoard : letI := spreadGlobals
    ∀ c, ¬Crowded variedBoard c := by
  decide +kernel

open SoFCheck.Core.Sequence in
theorem agrees_iff_not_crowded_varied : letI := spreadGlobals
    Agrees weightValues shippedFeatures variedBoard ∧
      ∃ s, exactScore weightValues shippedFeatures variedBoard = some s := by
  let _ := spreadGlobals
  obtain ⟨s, hs, -, -⟩ := exactScore_bounds (valid_iff.mp valid_variedBoard).1
  exact ⟨(agrees_iff_not_crowded weightValues shippedFeatures valid_variedBoard).mpr
    not_crowded_variedBoard, s, hs⟩

/-- The position `6k1/8/8/8/5ppp/5PPP/5PPP/6K1 w - - 0 1`. -/
def crowdedKing : Board :=
  { initialFields with
    cells := fun s => if s = 62 then makeCell .white .king else if s = 6 then makeCell .black .king
      else if 5 ≤ col s ∧ (row s = 6 ∨ row s = 5) then makeCell .white .pawn
      else if 5 ≤ col s ∧ row s = 4 then makeCell .black .pawn else emptyCell
    castling := Castling.none }

theorem valid_crowdedKing [Globals] : Valid (update crowdedKing) :=
  valid_update_of_cells ⟨by decide, by decide, fun h => absurd rfl h⟩ (by decide +kernel)
    (by decide +kernel) (by decide +kernel) (by decide +kernel)

theorem crowded_crowdedKing : letI := spreadGlobals
    Crowded (update crowdedKing) .white := by
  decide +kernel

/-- Nine coefficients do not fit in the eight places. -/
theorem not_agrees_crowdedKing : letI := spreadGlobals
    Valid (update crowdedKing) ∧ (∃ s, exactScore weightValues shippedFeatures (update crowdedKing) = some s) ∧
      ¬Agrees weightValues shippedFeatures (update crowdedKing) := by
  let _ := spreadGlobals
  have hr := (valid_iff.mp valid_crowdedKing).1
  obtain ⟨s, hs, -, -⟩ := exactScore_bounds hr
  refine ⟨valid_crowdedKing, ⟨s, hs⟩, fun h => ?_⟩
  obtain ⟨coefs, hcoefs, -⟩ := h
  have hsome := (isSome_evalUncached shippedFeatures hr.synced _).mp (Option.isSome_of_eq_some hcoefs)
  exact hsome .white crowded_crowdedKing

end Shipped

end SoFCheck.Eval.Tuning
