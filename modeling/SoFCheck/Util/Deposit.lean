import SoFCheck.Util.Bits

namespace SoFCheck.Util.Deposit

open SoFCheck.Util.Bits

variable {w : Nat}

/-- Scatter the low bits of `k` over the positions of `l`. -/
def deposit : List (Fin w) → Nat → BitVec w
  | [], _ => 0
  | i :: l, k => (if k % 2 = 1 then single i else 0) ||| deposit l (k / 2)

/-- Gather the bits of `x` found at the positions of `l`. -/
def extract (x : BitVec w) : List (Fin w) → Nat
  | [] => 0
  | i :: l => (hasBit x i).toNat + 2 * extract x l

theorem extract_lt (x : BitVec w) (l : List (Fin w)) : extract x l < 2 ^ l.length := by
  induction l with
  | nil => simp [extract]
  | cons i l ih =>
    have hb : (hasBit x i).toNat ≤ 1 := Bool.toNat_le _
    rw [extract, List.length_cons, Nat.pow_succ]
    omega

theorem hasBit_deposit_notMem {l : List (Fin w)} {i : Fin w} (hi : i ∉ l) (k : Nat) :
    hasBit (deposit l k) i = false := by
  induction l generalizing k with
  | nil => simp [deposit]
  | cons j l ih =>
    have hj : j ≠ i := fun h => hi (by simp [h])
    have hl : i ∉ l := fun h => hi (List.mem_cons_of_mem j h)
    rw [deposit, hasBit_or, ih hl, Bool.or_false]
    split <;> simp [hj]

theorem hasBit_deposit_extract {l : List (Fin w)} (hl : l.Nodup) (x : BitVec w) (i : Fin w) :
    hasBit (deposit l (extract x l)) i = (decide (i ∈ l) && hasBit x i) := by
  induction l with
  | nil => simp [deposit]
  | cons j l ih =>
    obtain ⟨hj, hl⟩ := List.nodup_cons.mp hl
    have hm : ((hasBit x j).toNat + 2 * extract x l) % 2 = (hasBit x j).toNat := by
      have := Bool.toNat_le (hasBit x j)
      omega
    have hd : ((hasBit x j).toNat + 2 * extract x l) / 2 = extract x l := by
      have := Bool.toNat_le (hasBit x j)
      omega
    rw [deposit, extract, hm, hd, hasBit_or, ih hl]
    by_cases hij : j = i
    · subst hij
      cases hx : hasBit x j <;> simp [hj]
    · cases hx : hasBit x j <;> simp [hij, Ne.symm hij]

theorem extract_deposit {l : List (Fin w)} (hl : l.Nodup) {k : Nat} (hk : k < 2 ^ l.length) :
    extract (deposit l k) l = k := by
  have hcongr : ∀ (m : List (Fin w)) (x y : BitVec w), (∀ i ∈ m, hasBit x i = hasBit y i) →
      extract x m = extract y m := by
    intro m x y h
    induction m with
    | nil => rfl
    | cons i m ih =>
      rw [extract, extract, h i (by simp), ih fun j hj => h j (List.mem_cons_of_mem i hj)]
  induction l generalizing k with
  | nil =>
    have hk0 : k = 0 := by simpa using hk
    rw [hk0, extract]
  | cons i l ih =>
    obtain ⟨hi, hl⟩ := List.nodup_cons.mp hl
    have hk' : k / 2 < 2 ^ l.length := by
      rw [List.length_cons, Nat.pow_succ] at hk
      omega
    have hbit : hasBit (deposit (i :: l) k) i = decide (k % 2 = 1) := by
      rw [deposit, hasBit_or, hasBit_deposit_notMem hi]
      split <;> simp_all
    have hrest : extract (deposit (i :: l) k) l = extract (deposit l (k / 2)) l := by
      refine hcongr l _ _ fun j hj => ?_
      have hne : i ≠ j := by rintro rfl; exact hi hj
      rw [deposit, hasBit_or]
      split <;> simp [hne]
    rw [extract, hbit, hrest, ih hl hk']
    by_cases h : k % 2 = 1 <;> simp [h] <;> omega

section Portable

theorem and_neg_eq_single [NeZero w] {x : BitVec w} (hx : x ≠ 0) : x &&& -x = single (getLowest x) := by
  have hneg : -x = ~~~(x - 1#w) := by
    rw [BitVec.not_sub_one_eq_not_add_one, BitVec.neg_eq_not_add]
  refine hasBit_ext fun i => ?_
  have hc := hasBit_clearLowest hx i
  rw [clearLowest, hasBit_and] at hc
  change (hasBit x i && hasBit (x - 1#w) i) = _ at hc
  rw [hneg, hasBit_and, hasBit_not, hasBit_single]
  cases hi : hasBit x i with
  | false =>
    have hne : getLowest x ≠ i := by
      rintro rfl
      rw [hasBit_getLowest hx] at hi
      cases hi
    simp [hne]
  | true =>
    rw [hi, Bool.true_and, Bool.true_and] at hc
    simp [hc]

theorem xor_and_neg [NeZero w] {x : BitVec w} (hx : x ≠ 0) : x ^^^ (x &&& -x) = clearLowest x := by
  refine hasBit_ext fun i => ?_
  rw [and_neg_eq_single hx, hasBit_xor, hasBit_single, hasBit_clearLowest hx]
  by_cases hi : getLowest x = i
  · subst hi
    simp [hasBit_getLowest hx]
  · simp [hi]

/-- The loop of `depositBits` with its result so far. -/
def depositLoop [NeZero w] (x msk res : BitVec w) : BitVec w :=
  if msk = 0 then res
  else
    let bit := msk &&& -msk
    depositLoop (x >>> 1) (msk ^^^ bit) (if x &&& 1 ≠ 0 then res ||| bit else res)
termination_by msk.toNat
decreasing_by rw [xor_and_neg ‹_›]; exact clearLowest_toNat_lt ‹_›

def depositBits [NeZero w] (x msk : BitVec w) : BitVec w := depositLoop x msk 0

variable [NeZero w]

theorem depositLoop_eq (x msk res : BitVec w) :
    depositLoop x msk res = res ||| deposit (extractAll msk) x.toNat := by
  fun_induction depositLoop x msk res with
  | case1 x res => rw [extractAll]; simp [deposit]
  | case2 x msk res hm bit ih =>
    have hx : (x >>> 1).toNat = x.toNat / 2 := by
      simp [BitVec.toNat_ushiftRight, Nat.shiftRight_eq_div_pow]
    have hodd : x &&& 1 ≠ 0 ↔ x.toNat % 2 = 1 := by
      have hw : 1 % 2 ^ w = 1 := Nat.mod_eq_of_lt (Nat.one_lt_two_pow (NeZero.ne w))
      rw [Ne, ← BitVec.toNat_inj, BitVec.toNat_and]
      simp only [BitVec.ofNat_eq_ofNat, BitVec.toNat_ofNat, hw, Nat.and_one_is_mod, Nat.zero_mod]
      omega
    rw [dite_eq_ite] at ih
    rw [ih, extractAll.eq_def msk, if_neg hm, deposit, hx, xor_and_neg hm]
    simp only [hodd, bit, and_neg_eq_single hm]
    split
    · rw [BitVec.or_assoc]
    · simp

theorem depositBits_eq (x msk : BitVec w) :
    depositBits x msk = deposit (extractAll msk) x.toNat := by
  rw [depositBits, depositLoop_eq]
  simp

end Portable

end SoFCheck.Util.Deposit
