import SoFCheck.Core.Types
import SoFCheck.Util.Deposit
import SoFCheck.Util.Lanes

namespace SoFCheck.Util.PortableBits

open SoFCheck.Util SoFCheck.Util.Bits SoFCheck.Util.Deposit SoFCheck.Util.Lanes

def popcount (x : BitVec 64) : Nat :=
  let x := x - ((x >>> 1) &&& 0x5555555555555555#64)
  let x := (x &&& 0x3333333333333333#64) + ((x >>> 2) &&& 0x3333333333333333#64)
  let x := (x + (x >>> 4)) &&& 0x0f0f0f0f0f0f0f0f#64
  ((x * 0x0101010101010101#64) >>> 56).toNat

def index : List Nat :=
  [0, 47, 1, 56, 48, 27, 2, 60,
   57, 49, 41, 37, 28, 16, 3, 61,
   54, 58, 35, 52, 50, 42, 21, 44,
   38, 32, 29, 23, 17, 11, 4, 62,
   46, 55, 26, 59, 40, 36, 15, 53,
   34, 51, 20, 43, 31, 22, 10, 45,
   25, 39, 14, 33, 19, 30, 9, 24,
   13, 18, 8, 12, 7, 6, 5, 63]

def getLowest (x : BitVec 64) : Nat :=
  index.getD (((x ^^^ (x - 1)) * 0x03f79d71b4cb0a89#64) >>> 58).toNat 0

def swapBytes (x : BitVec 64) : BitVec 64 :=
  let x := ((x >>> 8) &&& 0x00ff00ff00ff00ff#64) ||| ((x &&& 0x00ff00ff00ff00ff#64) <<< 8)
  let x := ((x >>> 16) &&& 0x0000ffff0000ffff#64) ||| ((x &&& 0x0000ffff0000ffff#64) <<< 16)
  (x >>> 32) ||| (x <<< 32)

section Popcount

variable (x : BitVec 64)

theorem pairs_eq : (x - ((x >>> 1) &&& 0x5555555555555555#64)).toNat = addPairs 1 32 x.toNat := by
  have hmask : (0x5555555555555555#64).toNat = mask 1 32 := by decide
  have hsplit := @split_pairs 1 32 x.toNat x.isLt
  have hupper : ((x >>> 1) &&& 0x5555555555555555#64).toNat = (x.toNat >>> 1) &&& mask 1 32 := by
    rw [BitVec.toNat_and, BitVec.toNat_ushiftRight, hmask]
  have hle : (x >>> 1) &&& 0x5555555555555555#64 ≤ x := by
    rw [BitVec.le_def, hupper]
    omega
  rw [BitVec.toNat_sub_of_le hle, hupper, addPairs]
  omega

theorem addPairs_lt {h k : Nat} (hh : 0 < h) (n : Nat) : addPairs h k n < 2 ^ (2 * h * k) := by
  induction k generalizing n with
  | zero => exact Nat.lt_of_le_of_lt (by rw [addPairs, mask, Nat.and_zero, Nat.and_zero]) Nat.one_pos
  | succ k ih =>
    have hpair := pair_lt hh n
    have hrest := Nat.mul_le_mul_left (2 ^ (2 * h)) (Nat.succ_le_of_lt (ih (n / 2 ^ (2 * h))))
    rw [Nat.mul_succ] at hrest
    rw [addPairs_succ, Nat.mul_succ, Nat.pow_add, Nat.mul_comm (2 ^ (2 * h * k))]
    omega

theorem popcount_eq : popcount x = ∑ i ∈ Finset.range 64, (x.getLsbD i).toNat := by
  have hmask₂ : (0x3333333333333333#64).toNat = mask 2 16 := by decide
  have hmask₄ : (0x0f0f0f0f0f0f0f0f#64).toNat = mask 4 8 := by decide
  set x₁ := x - ((x >>> 1) &&& 0x5555555555555555#64) with hx₁
  set x₂ := (x₁ &&& 0x3333333333333333#64) + ((x₁ >>> 2) &&& 0x3333333333333333#64) with hx₂
  set x₃ := (x₂ + (x₂ >>> 4)) &&& 0x0f0f0f0f0f0f0f0f#64 with hx₃
  have h₁ : x₁.toNat = addPairs 1 32 x.toNat := pairs_eq x
  have h₂ : x₂.toNat = addPairs 2 16 x₁.toNat := by
    rw [hx₂, BitVec.toNat_add, BitVec.toNat_and, BitVec.toNat_and, BitVec.toNat_ushiftRight, hmask₂]
    exact Nat.mod_eq_of_lt (@addPairs_lt 2 16 (by decide) _)
  have hle₁ : LanesLe 2 2 32 x₁.toNat := h₁ ▸ lanesLe_addPairs (by decide) 32 (lanesLe_one 64 _)
  have hle₂ : LanesLe 4 4 16 x₂.toNat := h₂ ▸ lanesLe_addPairs (by decide) 16 hle₁
  have h₃ : x₃.toNat = addPairs 4 8 x₂.toNat := by
    have hfull : (2 ^ 64 - 1) &&& mask 4 8 = mask 4 8 := by decide
    rw [hx₃, BitVec.toNat_and, hmask₄, BitVec.toNat_add, BitVec.toNat_ushiftRight,
      ← Nat.and_two_pow_sub_one_eq_mod, Nat.and_assoc, hfull]
    exact add_and_mask 8 (by decide) hle₂
  have hle₃ : LanesLe 8 8 8 x₃.toNat := h₃ ▸ lanesLe_addPairs (by decide) 8 hle₂
  have hsum : laneSum 8 8 x₃.toNat = laneSum 1 64 x.toNat := by
    rw [h₃, @laneSum_addPairs 4 (by decide) 8, h₂, @laneSum_addPairs 2 (by decide) 16, h₁,
      @laneSum_addPairs 1 (by decide) 32]
  have hsmall : laneSum 8 8 x₃.toNat < 2 ^ 8 := (laneSum_le hle₃).trans_lt (by decide)
  have hproduct := mul_bytes x₃.isLt hsmall
  have hunfold : popcount x = ((x₃ * 0x0101010101010101#64) >>> 56).toNat := rfl
  rw [hunfold, BitVec.toNat_ushiftRight, BitVec.toNat_mul, Nat.shiftRight_eq_div_pow]
  exact (hproduct.trans hsum).trans (laneSum_one 64 x.toNat)

end Popcount

section Lowest

theorem index_deBruijn : ∀ i : Fin 64,
    index.getD (((single i ||| (single i - 1)) * 0x03f79d71b4cb0a89#64) >>> 58).toNat 0 = i.val := by
  decide

theorem getLowest_eq {x : BitVec 64} (hx : x ≠ 0) : getLowest x = (Bits.getLowest x).val := by
  rw [getLowest, xor_sub_one hx]
  exact index_deBruijn (Bits.getLowest x)

end Lowest

section Swap

/-- The bit that a swap of neighbouring blocks of `n` bits puts at position `i`. -/
def swapIndex (n i : Nat) : Nat := if i / n % 2 = 0 then i + n else i - n

variable (x : BitVec 64) {i : Nat}

theorem getLsbD_swap {n : Nat} {m : BitVec 64} (hn : 0 < n)
    (hm : ∀ i : Fin 64, hasBit m i = decide (i.val / n % 2 = 0)) (hi : i < 64) :
    (((x >>> n) &&& m) ||| ((x &&& m) <<< n)).getLsbD i = x.getLsbD (swapIndex n i) := by
  have hmi : m.getLsbD i = decide (i / n % 2 = 0) := hm ⟨i, hi⟩
  rw [BitVec.getLsbD_or, BitVec.getLsbD_and, BitVec.getLsbD_ushiftRight, BitVec.getLsbD_shiftLeft,
    BitVec.getLsbD_and, hmi, swapIndex]
  by_cases hlt : i < n
  · have hzero : i / n % 2 = 0 := by rw [Nat.div_eq_of_lt hlt]
    simp [hlt, hzero, Nat.add_comm]
  · have hlow : m.getLsbD (i - n) = decide ((i - n) / n % 2 = 0) := hm ⟨i - n, by omega⟩
    have hdiv : i / n = (i - n) / n + 1 := by
      rw [← Nat.add_div_right _ hn, Nat.sub_add_cancel (by omega)]
    rw [hlow]
    by_cases heven : i / n % 2 = 0
    · have hodd : ¬(i - n) / n % 2 = 0 := by omega
      simp [hi, hlt, heven, hodd, Nat.add_comm]
    · have hodd : (i - n) / n % 2 = 0 := by omega
      simp [hi, hlt, heven, hodd]

theorem getLsbD_swapHalves (hi : i < 64) :
    ((x >>> 32) ||| (x <<< 32)).getLsbD i = x.getLsbD (swapIndex 32 i) := by
  rw [BitVec.getLsbD_or, BitVec.getLsbD_ushiftRight, BitVec.getLsbD_shiftLeft, swapIndex]
  by_cases hlt : i < 32
  · simp [hlt, Nat.div_eq_of_lt hlt, Nat.add_comm]
  · have hdiv : i / 32 = 1 := by omega
    have hout : x.getLsbD (32 + i) = false := BitVec.getLsbD_of_ge x _ (by omega)
    simp [hi, hlt, hdiv, hout]

theorem swapIndex_swapIndex : ∀ i < 64,
    swapIndex 8 (swapIndex 16 (swapIndex 32 i)) = 8 * (7 - i / 8) + i % 8 ∧
      swapIndex 16 (swapIndex 32 i) < 64 ∧ swapIndex 32 i < 64 := by
  decide

theorem getLsbD_swapBytes (hi : i < 64) :
    (swapBytes x).getLsbD i = x.getLsbD (8 * (7 - i / 8) + i % 8) := by
  obtain ⟨hindex, h₁₆, h₃₂⟩ := swapIndex_swapIndex i hi
  rw [swapBytes, getLsbD_swapHalves _ hi, getLsbD_swap _ (by decide) (by decide) h₃₂,
    getLsbD_swap _ (by decide) (by decide) h₁₆, hindex]

theorem extract_swapBytes {j : Nat} (hj : j < 8) :
    (swapBytes x).extractLsb' (8 * j) 8 = x.extractLsb' (8 * (7 - j)) 8 := by
  apply BitVec.eq_of_getLsbD_eq
  intro i hi
  rw [BitVec.getLsbD_extractLsb', BitVec.getLsbD_extractLsb', getLsbD_swapBytes x (by omega)]
  congr 2
  omega

end Swap

section Scatter

theorem hasBit_deposit_getElem {w : Nat} {l : List (Fin w)} (hl : l.Nodup) (k : Nat) {j : Nat}
    (hj : j < l.length) : hasBit (deposit l k) l[j] = k.testBit j := by
  induction l generalizing k j with
  | nil => exact absurd hj (Nat.not_lt_zero j)
  | cons i l ih =>
    obtain ⟨hi, hl⟩ := List.nodup_cons.mp hl
    rw [deposit, hasBit_or]
    cases j with
    | zero =>
      rw [List.getElem_cons_zero, hasBit_deposit_notMem hi, Bool.or_false, Nat.testBit_zero]
      split <;> simp_all
    | succ j =>
      have hj' : j < l.length := Nat.lt_of_succ_lt_succ hj
      have hne : i ≠ l[j] := fun he => hi (he ▸ List.getElem_mem hj')
      rw [List.getElem_cons_succ, ih hl _ hj', Nat.testBit_add_one]
      split <;> simp [hne]

variable (m : BitVec 64)

theorem length_extractAll_le : (extractAll m).length ≤ 64 := by
  have h := List.Nodup.length_le_card (extractAll_nodup m)
  rwa [Fintype.card_fin] at h

/-- The submasks of a mask can be numbered. -/
theorem bijOn_depositBits : Set.BijOn (fun k : Nat => depositBits (BitVec.ofNat 64 k) m)
    (Set.Iio (2 ^ (extractAll m).length)) {s | s &&& m = s} := by
  have hpow : 2 ^ (extractAll m).length ≤ 2 ^ 64 :=
    Nat.pow_le_pow_right (by decide) (length_extractAll_le m)
  have hdeposit : ∀ k < 2 ^ (extractAll m).length,
      depositBits (BitVec.ofNat 64 k) m = deposit (extractAll m) k := by
    intro k hk
    rw [depositBits_eq, BitVec.toNat_ofNat, Nat.mod_eq_of_lt (hk.trans_le hpow)]
  refine ⟨fun k hk => ?_, fun k hk k' hk' heq => ?_, fun s hs => ?_⟩
  · refine hasBit_ext fun i => ?_
    dsimp only
    rw [hdeposit k hk, hasBit_and]
    cases hm : hasBit m i with
    | true => rw [Bool.and_true]
    | false =>
      rw [Bool.and_false, hasBit_deposit_notMem]
      rw [mem_extractAll, hm]
      exact Bool.false_ne_true
  · dsimp only at heq
    rw [hdeposit k hk, hdeposit k' hk'] at heq
    rw [← extract_deposit (extractAll_nodup m) hk, heq, extract_deposit (extractAll_nodup m) hk']
  · refine ⟨extract s (extractAll m), extract_lt s _, ?_⟩
    dsimp only
    rw [hdeposit _ (extract_lt s _)]
    refine hasBit_ext fun i => ?_
    have hi : hasBit (s &&& m) i = hasBit s i := congrArg (hasBit · i) hs
    rw [hasBit_deposit_extract (extractAll_nodup m), ← hi, hasBit_and]
    by_cases hm : hasBit m i = true
    · simp [mem_extractAll, hm]
    · simp [mem_extractAll, hm]

end Scatter

/-- The portable functions do what the instructions do that they stand for. -/
theorem portable_spec (x m : BitVec 64) :
    popcount x = (Finset.univ.filter fun i => hasBit x i = true).card ∧
      (x ≠ 0 → ∃ i, getLowest x = i.val ∧ hasBit x i = true ∧ ∀ j < i, hasBit x j = false) ∧
      (∀ j < 8, (swapBytes x).extractLsb' (8 * j) 8 = x.extractLsb' (8 * (7 - j)) 8) ∧
      (∃ positions : List (Fin 64), positions.Pairwise (· < ·) ∧
        (∀ i, i ∈ positions ↔ hasBit m i = true) ∧ positions.length = popcount m ∧
        (∀ i ∉ positions, hasBit (depositBits x m) i = false) ∧
        ∀ (j : Nat) (hj : j < positions.length),
          hasBit (depositBits x m) positions[j] = x.getLsbD j) ∧
      Set.BijOn (fun k : Nat => depositBits (BitVec.ofNat 64 k) m) (Set.Iio (2 ^ popcount m))
        {s | s &&& m = s} := by
  have hpopcount : ∀ y, popcount y = Bits.popcount y := by
    intro y
    rw [popcount_eq, popcount_eq_card, Finset.card_filter, Finset.sum_range]
    apply Finset.sum_congr rfl
    intro i _
    cases hi : hasBit y i with
    | true => exact congrArg Bool.toNat hi
    | false => exact congrArg Bool.toNat hi
  have hlength : popcount m = (extractAll m).length := by rw [hpopcount, popcount_eq_length]
  refine ⟨(hpopcount x).trans (popcount_eq_card x), fun hx => ?_, fun j hj => extract_swapBytes x hj,
    ⟨extractAll m, extractAll_sorted m, fun i => mem_extractAll, hlength.symm, fun i hi => ?_,
      fun j hj => ?_⟩, ?_⟩
  · exact ⟨Bits.getLowest x, getLowest_eq hx, hasBit_getLowest hx,
      fun j hj => not_hasBit_of_lt_getLowest hx hj⟩
  · rw [depositBits_eq]
    exact hasBit_deposit_notMem hi _
  · rw [depositBits_eq]
    exact hasBit_deposit_getElem (extractAll_nodup m) _ hj
  · rw [hlength]
    exact bijOn_depositBits m

theorem portable_spec_corner :
    ∃ i, getLowest 0x8100000000000100 = i.val ∧ hasBit (0x8100000000000100 : BitVec 64) i = true ∧
      ∀ j < i, hasBit (0x8100000000000100 : BitVec 64) j = false :=
  (portable_spec 0x8100000000000100 0).2.1 (by decide)

end SoFCheck.Util.PortableBits
