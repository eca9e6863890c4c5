import Mathlib

namespace SoFCheck.Util.Lanes

/-- The lower half of each of `k` pairs of lanes of `h` bits. -/
def mask (h : Nat) : (k : Nat) → Nat
  | 0 => 0
  | k + 1 => 2 ^ (2 * h) * mask h k + (2 ^ h - 1)

/-- The sum of the lowest `k` lanes of `h` bits. -/
def laneSum (h : Nat) : (k x : Nat) → Nat
  | 0, _ => 0
  | k + 1, x => x % 2 ^ h + laneSum h k (x / 2 ^ h)

/-- None of the lowest `k` lanes holds more than `c`. -/
def LanesLe (h c : Nat) : (k x : Nat) → Prop
  | 0, _ => True
  | k + 1, x => x % 2 ^ h ≤ c ∧ LanesLe h c k (x / 2 ^ h)

/-- Adds up the two lanes of each pair. -/
def addPairs (h k x : Nat) : Nat := (x &&& mask h k) + ((x >>> h) &&& mask h k)

variable {h c : Nat}

theorem two_pow_double (h : Nat) : 2 ^ (2 * h) = 2 ^ h * 2 ^ h := by
  rw [Nat.two_mul, Nat.pow_add]

theorem and_mask_succ (h k x : Nat) :
    x &&& mask h (k + 1) = 2 ^ (2 * h) * (x / 2 ^ (2 * h) &&& mask h k) + x % 2 ^ h := by
  have hlow : 2 ^ h - 1 < 2 ^ (2 * h) := by
    have := Nat.pow_le_pow_right (show 0 < 2 by omega) (show h ≤ 2 * h by omega)
    have := Nat.two_pow_pos h
    omega
  have hmod : x % 2 ^ h < 2 ^ (2 * h) :=
    (Nat.mod_lt x (Nat.two_pow_pos h)).trans_le
      (Nat.pow_le_pow_right (show 0 < 2 by omega) (show h ≤ 2 * h by omega))
  apply Nat.eq_of_testBit_eq
  intro i
  rw [mask, Nat.testBit_and, Nat.testBit_two_pow_mul_add _ hlow, Nat.testBit_two_pow_mul_add _ hmod]
  split
  · rw [Nat.testBit_two_pow_sub_one, Nat.testBit_mod_two_pow, Bool.and_comm]
  · rw [Nat.testBit_and, Nat.testBit_div_two_pow, Nat.sub_add_cancel (by omega)]

theorem addPairs_succ (h k x : Nat) : addPairs h (k + 1) x =
    2 ^ (2 * h) * addPairs h k (x / 2 ^ (2 * h)) + (x % 2 ^ h + x / 2 ^ h % 2 ^ h) := by
  have hshift : (x >>> h) / 2 ^ (2 * h) = (x / 2 ^ (2 * h)) >>> h := by
    rw [Nat.shiftRight_eq_div_pow, Nat.shiftRight_eq_div_pow, Nat.div_div_eq_div_mul,
      Nat.div_div_eq_div_mul, Nat.mul_comm]
  rw [addPairs, and_mask_succ, and_mask_succ, hshift, Nat.shiftRight_eq_div_pow x, addPairs]
  ring

theorem pair_lt (hh : 0 < h) (x : Nat) : x % 2 ^ h + x / 2 ^ h % 2 ^ h < 2 ^ (2 * h) := by
  have hlow := Nat.mod_lt x (Nat.two_pow_pos h)
  have hhigh := Nat.mod_lt (x / 2 ^ h) (Nat.two_pow_pos h)
  have htwo : 2 ^ h * 2 ≤ 2 ^ h * 2 ^ h :=
    Nat.mul_le_mul_left _ (Nat.pow_le_pow_right (show 0 < 2 by omega) hh)
  rw [two_pow_double]
  omega

theorem div_double (h x : Nat) : x / 2 ^ (2 * h) = x / 2 ^ h / 2 ^ h := by
  rw [two_pow_double, Nat.div_div_eq_div_mul]

theorem laneSum_addPairs (hh : 0 < h) (k x : Nat) :
    laneSum (2 * h) k (addPairs h k x) = laneSum h (2 * k) x := by
  induction k generalizing x with
  | zero => rfl
  | succ k ih =>
    have hpair := pair_lt hh x
    rw [addPairs_succ, laneSum, Nat.mul_add_mod, Nat.mod_eq_of_lt hpair,
      Nat.mul_add_div (Nat.two_pow_pos _), Nat.div_eq_of_lt hpair, Nat.add_zero, ih, div_double,
      Nat.mul_succ, laneSum, laneSum, Nat.add_assoc]

theorem lanesLe_addPairs (hh : 0 < h) (k : Nat) {x : Nat} (hx : LanesLe h c (2 * k) x) :
    LanesLe (2 * h) (2 * c) k (addPairs h k x) := by
  induction k generalizing x with
  | zero => trivial
  | succ k ih =>
    have hpair := pair_lt hh x
    obtain ⟨hlow, hhigh, hrest⟩ := hx
    rw [← div_double] at hrest
    rw [addPairs_succ]
    refine ⟨?_, ?_⟩
    · rw [Nat.mul_add_mod, Nat.mod_eq_of_lt hpair]
      omega
    · rw [Nat.mul_add_div (Nat.two_pow_pos _), Nat.div_eq_of_lt hpair, Nat.add_zero]
      exact ih hrest

theorem split_pairs (k : Nat) {x : Nat} (hx : x < 2 ^ (2 * h * k)) :
    x = (x &&& mask h k) + 2 ^ h * ((x >>> h) &&& mask h k) := by
  induction k generalizing x with
  | zero =>
    have hzero : x = 0 := by simpa using hx
    rw [hzero, mask, Nat.and_zero, Nat.and_zero, Nat.mul_zero]
  | succ k ih =>
    have hdiv : x / 2 ^ (2 * h) < 2 ^ (2 * h * k) := by
      apply Nat.div_lt_of_lt_mul
      rwa [← Nat.pow_add, Nat.add_comm, ← Nat.mul_succ]
    have hshift : (x >>> h) / 2 ^ (2 * h) = (x / 2 ^ (2 * h)) >>> h := by
      rw [Nat.shiftRight_eq_div_pow, Nat.shiftRight_eq_div_pow, Nat.div_div_eq_div_mul,
        Nat.div_div_eq_div_mul, Nat.mul_comm]
    have hrest := ih hdiv
    have hlanes : x = 2 ^ (2 * h) * (x / 2 ^ (2 * h)) + 2 ^ h * (x / 2 ^ h % 2 ^ h) + x % 2 ^ h := by
      have h₁ := Nat.div_add_mod x (2 ^ h)
      have h₂ := Nat.div_add_mod (x / 2 ^ h) (2 ^ h)
      rw [div_double, two_pow_double, Nat.mul_assoc, ← Nat.mul_add, h₂, h₁]
    rw [and_mask_succ, and_mask_succ, hshift, Nat.shiftRight_eq_div_pow x]
    calc x = 2 ^ (2 * h) * (x / 2 ^ (2 * h)) + 2 ^ h * (x / 2 ^ h % 2 ^ h) + x % 2 ^ h := hlanes
      _ = 2 ^ (2 * h) * ((x / 2 ^ (2 * h) &&& mask h k) +
            2 ^ h * ((x / 2 ^ (2 * h)) >>> h &&& mask h k)) +
          2 ^ h * (x / 2 ^ h % 2 ^ h) + x % 2 ^ h := by rw [← hrest]
      _ = _ := by ring

theorem add_shift (h x : Nat) : x + x >>> h =
    2 ^ h * (x / 2 ^ h + x / 2 ^ h / 2 ^ h) + (x % 2 ^ h + x / 2 ^ h % 2 ^ h) := by
  have h₁ := Nat.div_add_mod x (2 ^ h)
  have h₂ := Nat.div_add_mod (x / 2 ^ h) (2 ^ h)
  rw [Nat.shiftRight_eq_div_pow, Nat.mul_add]
  omega

theorem add_and_mask (k : Nat) {x : Nat} (hc : 2 * c < 2 ^ h) (hx : LanesLe h c (2 * k) x) :
    (x + x >>> h) &&& mask h k = addPairs h k x := by
  induction k generalizing x with
  | zero => rw [addPairs, mask, Nat.and_zero, Nat.and_zero, Nat.and_zero]
  | succ k ih =>
    obtain ⟨hlow, hhigh, hrest⟩ := hx
    rw [← div_double] at hrest
    have hlt : x % 2 ^ h + x / 2 ^ h % 2 ^ h < 2 ^ h := by omega
    have hmod : (x + x >>> h) % 2 ^ h = x % 2 ^ h + x / 2 ^ h % 2 ^ h := by
      rw [add_shift, Nat.mul_add_mod, Nat.mod_eq_of_lt hlt]
    rw [and_mask_succ, addPairs_succ, hmod, ← ih hrest]
    congr 2
    cases k with
    | zero => rw [mask, Nat.and_zero, Nat.and_zero]
    | succ k =>
      have hnext : x / 2 ^ (2 * h) % 2 ^ h ≤ c := hrest.1
      rw [div_double] at hnext ⊢
      have hdiv : (x + x >>> h) / 2 ^ h = x / 2 ^ h + (x / 2 ^ h) >>> h := by
        rw [add_shift, Nat.mul_add_div (Nat.two_pow_pos h), Nat.div_eq_of_lt hlt, Nat.add_zero,
          Nat.shiftRight_eq_div_pow]
      have hcarry : x / 2 ^ h % 2 ^ h + x / 2 ^ h / 2 ^ h % 2 ^ h < 2 ^ h := by omega
      rw [div_double, hdiv, add_shift, Nat.mul_add_div (Nat.two_pow_pos h), Nat.div_eq_of_lt hcarry,
        Nat.add_zero, Nat.shiftRight_eq_div_pow]

theorem laneSum_le {k x : Nat} (hx : LanesLe h c k x) : laneSum h k x ≤ k * c := by
  induction k generalizing x with
  | zero => exact Nat.zero_le _
  | succ k ih =>
    have := ih hx.2
    have := hx.1
    rw [laneSum, Nat.succ_mul]
    omega

theorem lanesLe_one (k x : Nat) : LanesLe 1 1 k x := by
  induction k generalizing x with
  | zero => trivial
  | succ k ih => exact ⟨Nat.le_of_lt_succ (Nat.mod_lt x (by decide)), ih _⟩

theorem laneSum_one (k x : Nat) : laneSum 1 k x = ∑ i ∈ Finset.range k, (x.testBit i).toNat := by
  induction k generalizing x with
  | zero => rfl
  | succ k ih =>
    rw [laneSum, ih, Finset.sum_range_succ', Nat.pow_one, Nat.testBit_zero, Nat.add_comm]
    congr 1
    · apply Finset.sum_congr rfl
      intro i _
      rw [Nat.testBit_add_one]
    · rcases Nat.mod_two_eq_zero_or_one x with h | h <;> rw [h] <;> rfl

theorem byte_of_parts (high : Nat) {sum low : Nat} (hsum : sum < 2 ^ 8) (hlow : low < 2 ^ 56) :
    (2 ^ 64 * high + (2 ^ 56 * sum + low)) % 2 ^ 64 / 2 ^ 56 = sum := by
  rw [Nat.mul_add_mod, Nat.mod_eq_of_lt (by omega), Nat.mul_add_div (by decide),
    Nat.div_eq_of_lt hlow, Nat.add_zero]

theorem mul_digits (d₀ d₁ d₂ d₃ d₄ d₅ d₆ d₇ : Nat)
    (hsum : d₀ + d₁ + d₂ + d₃ + d₄ + d₅ + d₆ + d₇ < 2 ^ 8) :
    (d₀ + 2 ^ 8 * (d₁ + 2 ^ 8 * (d₂ + 2 ^ 8 * (d₃ + 2 ^ 8 * (d₄ + 2 ^ 8 * (d₅ + 2 ^ 8 * (d₆ +
      2 ^ 8 * d₇))))))) * 0x0101010101010101 % 2 ^ 64 / 2 ^ 56 =
        d₀ + d₁ + d₂ + d₃ + d₄ + d₅ + d₆ + d₇ := by
  -- the bytes of the product are sums of the first digits and sums of the last ones
  have hlow : d₀ + 2 ^ 8 * (d₀ + d₁) + 2 ^ 16 * (d₀ + d₁ + d₂) + 2 ^ 24 * (d₀ + d₁ + d₂ + d₃) +
      2 ^ 32 * (d₀ + d₁ + d₂ + d₃ + d₄) + 2 ^ 40 * (d₀ + d₁ + d₂ + d₃ + d₄ + d₅) +
      2 ^ 48 * (d₀ + d₁ + d₂ + d₃ + d₄ + d₅ + d₆) < 2 ^ 56 := by
    calc _ ≤ 255 + 2 ^ 8 * 255 + 2 ^ 16 * 255 + 2 ^ 24 * 255 + 2 ^ 32 * 255 + 2 ^ 40 * 255 +
          2 ^ 48 * 255 := by gcongr <;> omega
      _ < 2 ^ 56 := by norm_num
  rw [← byte_of_parts ((d₁ + d₂ + d₃ + d₄ + d₅ + d₆ + d₇) + 2 ^ 8 * (d₂ + d₃ + d₄ + d₅ + d₆ + d₇) +
    2 ^ 16 * (d₃ + d₄ + d₅ + d₆ + d₇) + 2 ^ 24 * (d₄ + d₅ + d₆ + d₇) + 2 ^ 32 * (d₅ + d₆ + d₇) +
    2 ^ 40 * (d₆ + d₇) + 2 ^ 48 * d₇) hsum hlow]
  congr 2
  ring

theorem mul_bytes {x : Nat} (hx : x < 2 ^ 64) (hsum : laneSum 8 8 x < 2 ^ 8) :
    x * 0x0101010101010101 % 2 ^ 64 / 2 ^ 56 = laneSum 8 8 x := by
  have htop : x / 2 ^ 8 / 2 ^ 8 / 2 ^ 8 / 2 ^ 8 / 2 ^ 8 / 2 ^ 8 / 2 ^ 8 < 2 ^ 8 := by omega
  simp only [laneSum, ← Nat.add_assoc, Nat.add_zero] at hsum ⊢
  have hdigits := mul_digits _ _ _ _ _ _ _ _ hsum
  rw [Nat.mod_eq_of_lt htop] at hdigits ⊢
  simp only [Nat.mod_add_div] at hdigits
  exact hdigits

end SoFCheck.Util.Lanes
