import Mathlib

namespace SoFCheck.Util.Bits

variable {w : Nat}

/-- Bit `i` of the word, the word being read as a finite set of positions. -/
def hasBit (x : BitVec w) (i : Fin w) : Bool := x.getLsbD i

def single (i : Fin w) : BitVec w := 1#w <<< i.val

theorem hasBit_ext {x y : BitVec w} (h : ∀ i, hasBit x i = hasBit y i) : x = y :=
  BitVec.eq_of_getLsbD_eq fun i hi => h ⟨i, hi⟩

@[simp] theorem hasBit_zero (i : Fin w) : hasBit (0#w) i = false := by simp [hasBit]

@[simp] theorem hasBit_ofNat_zero (i : Fin w) : hasBit (0 : BitVec w) i = false := by simp [hasBit]

@[simp] theorem hasBit_and (x y : BitVec w) (i : Fin w) :
    hasBit (x &&& y) i = (hasBit x i && hasBit y i) := by simp [hasBit]

@[simp] theorem hasBit_or (x y : BitVec w) (i : Fin w) :
    hasBit (x ||| y) i = (hasBit x i || hasBit y i) := by simp [hasBit]

@[simp] theorem hasBit_xor (x y : BitVec w) (i : Fin w) :
    hasBit (x ^^^ y) i = (hasBit x i ^^ hasBit y i) := by simp [hasBit]

@[simp] theorem hasBit_not (x : BitVec w) (i : Fin w) : hasBit (~~~x) i = !hasBit x i := by
  simp [hasBit]

@[simp] theorem hasBit_single (i j : Fin w) : hasBit (single i) j = decide (i = j) := by
  rw [Bool.eq_iff_iff]
  simp [hasBit, single, Fin.ext_iff]
  omega

theorem eq_zero_iff {x : BitVec w} : x = 0 ↔ ∀ i, hasBit x i = false := by
  constructor
  · rintro rfl i
    simp
  · intro h
    exact hasBit_ext fun i => by simp [h i]

theorem ne_zero_iff {x : BitVec w} : x ≠ 0 ↔ ∃ i, hasBit x i = true := by
  rw [Ne, eq_zero_iff]
  push Not
  simp

theorem and_eq_zero_iff {x y : BitVec w} :
    x &&& y = 0 ↔ ∀ i, hasBit x i = true → hasBit y i = false := by
  rw [eq_zero_iff]
  exact forall_congr' fun i => by rw [hasBit_and]; cases hasBit x i <;> simp

theorem or_eq_zero {x y : BitVec w} : x ||| y = 0 ↔ x = 0 ∧ y = 0 := by
  simp only [eq_zero_iff, hasBit_or, Bool.or_eq_false_iff, forall_and]

theorem and_single_eq_zero_iff {x : BitVec w} {i : Fin w} :
    x &&& single i = 0 ↔ hasBit x i = false := by
  rw [and_eq_zero_iff]
  constructor
  · intro h
    by_contra hi
    simpa using h i (by simpa using hi)
  · rintro h j hj
    have hij : i ≠ j := by rintro rfl; simp [h] at hj
    simpa using hij

theorem hasBit_ushiftRight {x : BitVec w} {n : Nat} {t : Fin w} :
    hasBit (x >>> n) t = true ↔ ∃ s : Fin w, hasBit x s = true ∧ s.val = t.val + n := by
  rw [hasBit, BitVec.getLsbD_ushiftRight]
  constructor
  · intro h
    exact ⟨⟨n + t, BitVec.lt_of_getLsbD h⟩, h, Nat.add_comm n t⟩
  · rintro ⟨s, hs, he⟩
    rwa [Nat.add_comm, ← he]

theorem hasBit_shiftLeft {x : BitVec w} {n : Nat} {t : Fin w} :
    hasBit (x <<< n) t = true ↔ ∃ s : Fin w, hasBit x s = true ∧ t.val = s.val + n := by
  rw [hasBit, BitVec.getLsbD_shiftLeft]
  simp only [t.isLt, decide_true, Bool.true_and, Bool.and_eq_true, Bool.not_eq_true',
    decide_eq_false_iff_not, not_lt]
  constructor
  · rintro ⟨hn, h⟩
    exact ⟨⟨t - n, BitVec.lt_of_getLsbD h⟩, h, by dsimp only; omega⟩
  · rintro ⟨s, hs, he⟩
    have hsub : t.val - n = s.val := by omega
    rw [hsub]
    exact ⟨by omega, hs⟩

/-- The position of the lowest set bit, as `__builtin_ctzll` returns it. -/
def getLowest [NeZero w] (x : BitVec w) : Fin w := Fin.ofNat w x.ctz.toNat

/-- Clear the lowest set bit. -/
def clearLowest (x : BitVec w) : BitVec w := x &&& (x - 1)

def hasZeroOrOneBit (x : BitVec w) : Bool := x &&& (x - 1) == 0

def popcount (x : BitVec w) : Nat := x.cpop.toNat

section Lowest

variable [NeZero w]

theorem getLowest_val {x : BitVec w} (hx : x ≠ 0) : (getLowest x).val = x.ctz.toNat := by
  have h : x.ctz < BitVec.ofNat w w := BitVec.ctz_lt_iff_ne_zero.mpr hx
  have hw : w < 2 ^ w := Nat.lt_two_pow_self
  rw [BitVec.lt_def, BitVec.toNat_ofNat, Nat.mod_eq_of_lt hw] at h
  simp [getLowest, Nat.mod_eq_of_lt h]

theorem hasBit_getLowest {x : BitVec w} (hx : x ≠ 0) : hasBit x (getLowest x) = true := by
  rw [hasBit, getLowest_val hx]
  exact BitVec.getLsbD_true_ctz_of_ne_zero hx

theorem not_hasBit_of_lt_getLowest {x : BitVec w} (hx : x ≠ 0) {i : Fin w}
    (hi : i < getLowest x) : hasBit x i = false := by
  rw [Fin.lt_def, getLowest_val hx] at hi
  exact BitVec.getLsbD_false_of_lt_ctz hi

theorem getLowest_le {x : BitVec w} (hx : x ≠ 0) {i : Fin w} (hi : hasBit x i = true) :
    getLowest x ≤ i := by
  by_contra h
  rw [not_hasBit_of_lt_getLowest hx (not_le.mp h)] at hi
  cases hi

theorem single_toNat (i : Fin w) : (single i).toNat = 2 ^ i.val := by
  have hi : 2 ^ i.val < 2 ^ w := Nat.pow_lt_pow_right (by decide) i.isLt
  have hw : 1 % 2 ^ w = 1 := Nat.mod_eq_of_lt (Nat.one_lt_two_pow (NeZero.ne w))
  simp only [single, BitVec.toNat_shiftLeft, BitVec.toNat_ofNat, hw, Nat.shiftLeft_eq, one_mul]
  exact Nat.mod_eq_of_lt hi

theorem hasBit_single_sub_one (i j : Fin w) : hasBit (single i - 1) j = decide (j < i) := by
  have hw : 1 % 2 ^ w = 1 := Nat.mod_eq_of_lt (Nat.one_lt_two_pow (NeZero.ne w))
  have h1 : (1 : BitVec w) ≤ single i := by
    rw [BitVec.le_def, single_toNat]
    simpa [hw] using Nat.one_le_two_pow
  have hs : (single i - 1).toNat = 2 ^ i.val - 1 := by
    rw [BitVec.toNat_sub_of_le h1, single_toNat]
    simp [hw]
  rw [hasBit, BitVec.getLsbD, hs, Nat.testBit_two_pow_sub_one]
  rfl

theorem sub_one_eq {x : BitVec w} (hx : x ≠ 0) :
    x - 1 = (x &&& ~~~(single (getLowest x))) ||| (single (getLowest x) - 1) := by
  set k := getLowest x with hk
  set y := x &&& ~~~(single k) with hy
  have hdisj : y &&& single k = 0#w := hasBit_ext fun i => by
    simp only [hy, hasBit_and, hasBit_not, hasBit_zero]
    cases hasBit (single k) i <;> simp
  have hxy : x = y + single k := by
    rw [BitVec.add_eq_or_of_and_eq_zero _ _ hdisj]
    refine hasBit_ext fun i => ?_
    simp only [hy, hasBit_or, hasBit_and, hasBit_not, hasBit_single]
    by_cases hi : k = i
    · subst hi
      simp [hk, hasBit_getLowest hx]
    · simp [hi]
  have hlow : y &&& (single k - 1) = 0#w := hasBit_ext fun i => by
    simp only [hasBit_and, hasBit_single_sub_one, hasBit_zero, hy]
    by_cases hi : i < k
    · simp [not_hasBit_of_lt_getLowest hx hi]
    · simp [hi]
  rw [← BitVec.add_eq_or_of_and_eq_zero _ _ hlow]
  conv_lhs => rw [hxy]
  simp only [BitVec.sub_eq_add_neg, BitVec.add_assoc]

theorem clearLowest_eq {x : BitVec w} (hx : x ≠ 0) :
    clearLowest x = x &&& ~~~(single (getLowest x)) := by
  refine hasBit_ext fun i => ?_
  rw [clearLowest, sub_one_eq hx, hasBit_and, hasBit_or, hasBit_single_sub_one]
  simp only [hasBit_and, hasBit_not, hasBit_single]
  by_cases hi : i < getLowest x
  · simp [not_hasBit_of_lt_getLowest hx hi]
  · simp [hi]

theorem xor_sub_one {x : BitVec w} (hx : x ≠ 0) :
    x ^^^ (x - 1) = single (getLowest x) ||| (single (getLowest x) - 1) := by
  refine hasBit_ext fun i => ?_
  rw [sub_one_eq hx, hasBit_xor, hasBit_or, hasBit_or, hasBit_single_sub_one]
  simp only [hasBit_and, hasBit_not, hasBit_single]
  by_cases hi : getLowest x = i
  · subst hi
    simp [hasBit_getLowest hx]
  · by_cases hlt : i < getLowest x
    · simp [hi, hlt, not_hasBit_of_lt_getLowest hx hlt]
    · simp [hi, hlt]

theorem hasBit_clearLowest {x : BitVec w} (hx : x ≠ 0) (i : Fin w) :
    hasBit (clearLowest x) i = (hasBit x i && decide (getLowest x ≠ i)) := by
  rw [clearLowest_eq hx]
  simp

theorem clearLowest_toNat_lt {x : BitVec w} (hx : x ≠ 0) : (clearLowest x).toNat < x.toNat := by
  have hpos : 0 < x.toNat := Nat.pos_of_ne_zero fun h => hx (BitVec.eq_of_toNat_eq (by simpa using h))
  have hw : 1 % 2 ^ w = 1 := Nat.mod_eq_of_lt (Nat.one_lt_two_pow (NeZero.ne w))
  have h1 : (1 : BitVec w) ≤ x := by
    rw [BitVec.le_def]
    simpa [hw] using Nat.succ_le_of_lt hpos
  have hs : (x - 1).toNat = x.toNat - 1 := by
    rw [BitVec.toNat_sub_of_le h1]
    simp [hw]
  have hle : (clearLowest x).toNat ≤ (x - 1).toNat := by
    rw [clearLowest, BitVec.toNat_and]
    exact Nat.and_le_right
  omega

/-- The loop `while (x) { i = extractLowest(x); .. }`: every position in
increasing order. -/
def extractAll (x : BitVec w) : List (Fin w) :=
  if x = 0 then [] else getLowest x :: extractAll (clearLowest x)
termination_by x.toNat
decreasing_by exact clearLowest_toNat_lt ‹_›

theorem mem_extractAll {x : BitVec w} {i : Fin w} : i ∈ extractAll x ↔ hasBit x i = true := by
  fun_induction extractAll x with
  | case1 => simp
  | case2 x hx ih =>
    rw [List.mem_cons, ih, hasBit_clearLowest hx]
    constructor
    · rintro (rfl | h)
      · exact hasBit_getLowest hx
      · simp_all
    · intro h
      by_cases hi : getLowest x = i
      · exact Or.inl hi.symm
      · simp [h, hi]

theorem extractAll_sorted (x : BitVec w) : (extractAll x).Pairwise (· < ·) := by
  fun_induction extractAll x with
  | case1 => exact List.Pairwise.nil
  | case2 x hx ih =>
    refine List.Pairwise.cons (fun i hi => ?_) ih
    have h := mem_extractAll.mp hi
    rw [hasBit_clearLowest hx, Bool.and_eq_true, decide_eq_true_eq] at h
    exact lt_of_le_of_ne (getLowest_le hx h.1) h.2

theorem extractAll_nodup (x : BitVec w) : (extractAll x).Nodup :=
  (extractAll_sorted x).imp ne_of_lt

theorem extractAll_eq_filter (x : BitVec w) :
    extractAll x = (List.finRange w).filter fun i => hasBit x i := by
  have hmem : ∀ i, i ∈ extractAll x ↔ i ∈ (List.finRange w).filter fun i => hasBit x i := by
    intro i
    rw [mem_extractAll, List.mem_filter]
    exact (and_iff_right (List.mem_finRange i)).symm
  have hperm := (List.perm_ext_iff_of_nodup (extractAll_nodup x)
    ((List.nodup_finRange w).filter _)).mpr hmem
  exact hperm.eq_of_pairwise (fun _ _ _ _ h h' => absurd h' (lt_asymm h)) (extractAll_sorted x)
    ((List.pairwise_lt_finRange w).filter _)

theorem hasZeroOrOneBit_iff {x : BitVec w} :
    hasZeroOrOneBit x = true ↔ ∀ i j, hasBit x i = true → hasBit x j = true → i = j := by
  rw [hasZeroOrOneBit, beq_iff_eq]
  by_cases hx : x = 0
  · subst hx
    simp
  change clearLowest x = 0 ↔ _
  rw [eq_zero_iff]
  simp only [hasBit_clearLowest hx]
  constructor
  · intro h i j hi hj
    have hi' := h i
    have hj' := h j
    simp only [hi, hj, Bool.true_and, decide_eq_false_iff_not, not_not] at hi' hj'
    exact hi'.symm.trans hj'
  · intro h i
    cases hi : hasBit x i with
    | false => rfl
    | true => simp [h _ _ (hasBit_getLowest hx) hi]

theorem popcount_eq_length (x : BitVec w) : popcount x = (extractAll x).length := by
  have hrec : ∀ n, x.cpopNatRec n 0 = (List.range n).countP (fun i => x.getLsbD i) := by
    intro n
    induction n with
    | zero => rfl
    | succ n ih =>
      rw [BitVec.cpopNatRec_succ, BitVec.cpopNatRec_add, ih, List.range_succ, List.countP_append,
        List.countP_singleton]
      cases x.getLsbD n <;> simp
  have hlen : (extractAll x).length = ((extractAll x).map Fin.val).length := by simp
  rw [popcount, BitVec.toNat_cpop, hrec, List.countP_eq_length_filter, hlen]
  refine List.Perm.length_eq ((List.perm_ext_iff_of_nodup ?_ ?_).mpr fun i => ?_)
  · exact List.nodup_range.filter _
  · exact (extractAll_nodup x).map Fin.val_injective
  · simp only [List.mem_filter, List.mem_range, List.mem_map, mem_extractAll, hasBit]
    constructor
    · rintro ⟨hi, hx⟩
      exact ⟨⟨i, hi⟩, hx, rfl⟩
    · rintro ⟨j, hx, rfl⟩
      exact ⟨j.isLt, hx⟩

theorem popcount_eq_one_iff {x : BitVec w} :
    popcount x = 1 ↔ ∃ i, ∀ j, hasBit x j = true ↔ j = i := by
  rw [popcount_eq_length, List.length_eq_one_iff]
  refine exists_congr fun i => ⟨fun h j => ?_, fun h => ?_⟩
  · rw [← mem_extractAll, h, List.mem_singleton]
  · refine List.perm_singleton.mp ((List.perm_ext_iff_of_nodup (extractAll_nodup x) (by simp)).mpr ?_)
    intro j
    rw [mem_extractAll, h, List.mem_singleton]

theorem popcount_eq_card (x : BitVec w) :
    popcount x = (Finset.univ.filter fun i => hasBit x i = true).card := by
  rw [popcount_eq_length, ← List.toFinset_card_of_nodup (extractAll_nodup x)]
  congr 1
  ext i
  simp [mem_extractAll]

theorem getLowest_eq {x : BitVec w} {i : Fin w} (h : ∀ j, hasBit x j = true ↔ j = i) :
    getLowest x = i :=
  (h _).mp (hasBit_getLowest (ne_zero_iff.mpr ⟨i, (h i).mpr rfl⟩))

end Lowest

end SoFCheck.Util.Bits
