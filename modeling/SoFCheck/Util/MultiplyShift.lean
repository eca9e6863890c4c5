import SoFCheck.Util.Deposit

namespace SoFCheck.Util.MultiplyShift

open SoFCheck.Util.Bits SoFCheck.Util.Deposit

section Sums

variable {ι : Type} {f : ι → Nat} {v : ι → Nat} {l : List ι} {k k' : Nat}

/-- The sum of `f` over the places of `l` at which `k` has a bit. -/
def select (f : ι → Nat) : List ι → Nat → Nat
  | [], _ => 0
  | i :: l, k => k % 2 * f i + select f l (k / 2)

theorem select_le (f : ι → Nat) (l : List ι) (k : Nat) : select f l k ≤ (l.map f).sum := by
  induction l generalizing k with
  | nil => exact le_rfl
  | cons i l ih =>
    rw [select, List.map_cons, List.sum_cons]
    have hbit : k % 2 * f i ≤ 1 * f i := Nat.mul_le_mul_right _ (by omega)
    rw [one_mul] at hbit
    exact Nat.add_le_add hbit (ih _)

theorem select_div_add_mod (f : ι → Nat) (d : Nat) (l : List ι) (k : Nat) :
    select f l k = d * select (fun i => f i / d) l k + select (fun i => f i % d) l k := by
  induction l generalizing k with
  | nil => rfl
  | cons i l ih =>
    rw [select, select, select, ih]
    conv_lhs => rw [← Nat.div_add_mod (f i) d]
    ring

theorem odd_multiple_add {v u : Nat} (hvu : v < u) {x y : Int} (hx : ∃ c, Odd c ∧ x = 2 ^ v * c)
    (hy : ∃ c, y = 2 ^ u * c) : ∃ c, Odd c ∧ x + y = 2 ^ v * c := by
  obtain ⟨c, hc, rfl⟩ := hx
  obtain ⟨c', rfl⟩ := hy
  obtain ⟨e, rfl⟩ := Nat.exists_eq_add_of_lt hvu
  refine ⟨c + 2 * (2 ^ e * c'), hc.add_even (even_two_mul _), ?_⟩
  ring

/-- Two sums differ in the lowest bit of one of the terms when these bits are distinct. -/
theorem select_sub (hv : ∀ i ∈ l, ∃ c : Int, Odd c ∧ (f i : Int) = 2 ^ v i * c)
    (hnodup : (l.map v).Nodup) (hk : k < 2 ^ l.length) (hk' : k' < 2 ^ l.length) : k = k' ∨
      ∃ i ∈ l, ∃ c, Odd c ∧ (select f l k : Int) - select f l k' = 2 ^ v i * c := by
  induction l generalizing k k' with
  | nil =>
    rw [List.length_nil, pow_zero] at hk hk'
    exact Or.inl (by omega)
  | cons i l ih =>
    obtain ⟨hi, hl⟩ := List.forall_mem_cons.mp hv
    rw [List.map_cons, List.nodup_cons] at hnodup
    rw [List.length_cons, pow_succ] at hk hk'
    have htail := ih hl hnodup.2 (show k / 2 < _ by omega) (show k' / 2 < _ by omega)
    simp only [select]
    by_cases hbit : k % 2 = k' % 2
    · obtain he | ⟨j, hj, c, hc, he⟩ := htail
      · exact Or.inl (by omega)
      · refine Or.inr ⟨j, List.mem_cons_of_mem _ hj, c, hc, ?_⟩
        rw [← he, hbit]
        push_cast
        ring
    -- The heads differ, by the term or its negation.
    have hhead : ∃ c, Odd c ∧ (k % 2 * f i : Int) - k' % 2 * f i = 2 ^ v i * c := by
      obtain ⟨c, hc, he⟩ := hi
      have hbits : (k : Int) % 2 = 1 ∧ (k' : Int) % 2 = 0 ∨ (k : Int) % 2 = 0 ∧ (k' : Int) % 2 = 1 := by
        omega
      obtain ⟨h, h'⟩ | ⟨h, h'⟩ := hbits
      · exact ⟨c, hc, by rw [h, h', one_mul, zero_mul, sub_zero, he]⟩
      · exact ⟨-c, hc.neg, by rw [h, h', one_mul, zero_mul, zero_sub, he, mul_neg]⟩
    have hsum : ((k % 2 * f i + select f l (k / 2) : Nat) : Int) -
        (k' % 2 * f i + select f l (k' / 2) : Nat) = ((k % 2 * f i : Int) - k' % 2 * f i) +
          (select f l (k / 2) - select f l (k' / 2)) := by
      push_cast
      ring
    rw [hsum]
    obtain he | ⟨j, hj, c, hc, he⟩ := htail
    · refine Or.inr ⟨i, List.mem_cons_self .., ?_⟩
      rw [he, sub_self, add_zero]
      exact hhead
    · have hne : v i ≠ v j := fun hij => hnodup.1 (hij ▸ List.mem_map_of_mem hj)
      obtain hlt | hlt := lt_or_gt_of_ne hne
      · exact Or.inr ⟨i, List.mem_cons_self .., odd_multiple_add hlt hhead ⟨c, he⟩⟩
      · rw [add_comm]
        obtain ⟨d, -, hd⟩ := hhead
        exact Or.inr ⟨j, List.mem_cons_of_mem _ hj, odd_multiple_add hlt ⟨c, hc, he⟩ ⟨d, hd⟩⟩

theorem select_mod_inj {n : Nat} (hv : ∀ i ∈ l, ∃ c : Int, Odd c ∧ (f i : Int) = 2 ^ v i * c)
    (hnodup : (l.map v).Nodup) (hlt : ∀ i ∈ l, v i < n) (hk : k < 2 ^ l.length)
    (hk' : k' < 2 ^ l.length) (he : select f l k % 2 ^ n = select f l k' % 2 ^ n) : k = k' := by
  obtain heq | ⟨i, hi, c, hc, hsub⟩ := select_sub hv hnodup hk hk'
  · exact heq
  have hdvd : (2 : Int) ^ n ∣ 2 ^ v i * c := by
    rw [← hsub]
    have hmod : select f l k' ≡ select f l k [MOD 2 ^ n] := he.symm
    exact_mod_cast (Nat.modEq_iff_dvd.mp hmod)
  have hodd : (2 : Int) ^ (v i + 1) ∣ 2 ^ v i * c := (pow_dvd_pow 2 (hlt i hi)).trans hdvd
  rw [pow_succ, mul_dvd_mul_iff_left (by positivity)] at hodd
  exact absurd hodd (Int.two_dvd_ne_zero.mpr (Int.odd_iff.mp hc))

end Sums

section Index

variable {w : Nat} {l : List (Fin w)} {k k' : Nat}

theorem toNat_deposit_mul (hl : l.Nodup) (m : BitVec w) (k : Nat) :
    (deposit l k * m).toNat = select (fun i => (single i * m).toNat) l k % 2 ^ w := by
  induction l generalizing k with
  | nil => simp [deposit, select]
  | cons i l ih =>
    obtain ⟨hi, hl⟩ := List.nodup_cons.mp hl
    have hdisjoint : (if k % 2 = 1 then single i else 0) &&& deposit l (k / 2) = 0#w := by
      apply hasBit_ext
      intro j
      rw [hasBit_and]
      by_cases hij : i = j
      · subst hij
        simp [hasBit_deposit_notMem hi]
      · split <;> simp [hij]
    have hhead : ((if k % 2 = 1 then single i else 0) * m).toNat = k % 2 * (single i * m).toNat := by
      obtain h | h := Nat.mod_two_eq_zero_or_one k
      · simp [h]
      · simp [h]
    rw [deposit, ← BitVec.add_eq_or_of_and_eq_zero _ _ hdisjoint, BitVec.add_mul, BitVec.toNat_add,
      hhead, ih hl, select, Nat.add_mod_mod]

/-- The bits of the index that come from one bit of the argument. -/
def top (m : BitVec w) (n : Nat) (i : Fin w) : Nat := (single i * m).toNat / 2 ^ (w - n)

/-- The place of the lowest bit, or `n` when there is none below `n`. -/
def lowestBit (n x : Nat) : Nat := ((List.range n).find? x.testBit).getD n

/-- The multiplier sends each bit to a place of its own, and what is under the
index does not carry into it. -/
def Spread (m : BitVec w) (n : Nat) (l : List (Fin w)) : Prop :=
  (l.map fun i => lowestBit n (top m n i)).Nodup ∧ (∀ i ∈ l, lowestBit n (top m n i) < n) ∧
    (l.map fun i => (single i * m).toNat % 2 ^ (w - n)).sum < 2 ^ (w - n)

instance decidableSpread (m : BitVec w) (n : Nat) (l : List (Fin w)) : Decidable (Spread m n l) :=
  inferInstanceAs (Decidable (_ ∧ _ ∧ _))

theorem odd_of_lowestBit {n x : Nat} (h : lowestBit n x < n) :
    ∃ c : Int, Odd c ∧ (x : Int) = 2 ^ lowestBit n x * c := by
  cases hfind : (List.range n).find? x.testBit with
  | none =>
    rw [lowestBit, hfind] at h
    exact absurd h (lt_irrefl n)
  | some v =>
    obtain ⟨hv, -, hbelow⟩ := List.find?_range_eq_some.mp hfind
    have hmod : x % 2 ^ v = 0 := by
      apply Nat.eq_of_testBit_eq
      intro u
      rw [Nat.testBit_mod_two_pow, Nat.zero_testBit]
      by_cases hu : u < v
      · simpa [hu] using hbelow u hu
      · simp [hu]
    have hbit : x / 2 ^ v % 2 = 1 := by
      rw [Nat.testBit_eq_decide_div_mod_eq] at hv
      exact of_decide_eq_true hv
    have hx := Nat.div_add_mod x (2 ^ v)
    rw [hmod, add_zero] at hx
    refine ⟨(x / 2 ^ v : Nat), ?_, ?_⟩
    · exact_mod_cast Nat.odd_iff.mpr hbit
    · rw [lowestBit, hfind, Option.getD_some]
      exact_mod_cast hx.symm

theorem index_eq {m : BitVec w} {n : Nat} (hn : n ≤ w) (hl : l.Nodup)
    (hcarry : (l.map fun i => (single i * m).toNat % 2 ^ (w - n)).sum < 2 ^ (w - n)) (k : Nat) :
    ((deposit l k * m) >>> (w - n)).toNat = select (top m n) l k % 2 ^ n := by
  have hlow := (select_le (fun i => (single i * m).toNat % 2 ^ (w - n)) l k).trans_lt hcarry
  have hw : 2 ^ w = 2 ^ (w - n) * 2 ^ n := by rw [← pow_add, Nat.sub_add_cancel hn]
  rw [BitVec.toNat_ushiftRight, Nat.shiftRight_eq_div_pow, toNat_deposit_mul hl, hw,
    Nat.mod_mul_right_div_self, select_div_add_mod _ (2 ^ (w - n)),
    Nat.mul_add_div (Nat.two_pow_pos _), Nat.div_eq_of_lt hlow, add_zero]
  rfl

theorem index_inj {m : BitVec w} {n : Nat} (hn : n ≤ w) (hl : l.Nodup) (h : Spread m n l)
    (hk : k < 2 ^ l.length) (hk' : k' < 2 ^ l.length)
    (he : ((deposit l k * m) >>> (w - n)).toNat = ((deposit l k' * m) >>> (w - n)).toNat) :
    k = k' := by
  obtain ⟨hnodup, hlt, hcarry⟩ := h
  rw [index_eq hn hl hcarry, index_eq hn hl hcarry] at he
  exact select_mod_inj (fun i hi => odd_of_lowestBit (hlt i hi)) hnodup hlt hk hk' he

end Index

end SoFCheck.Util.MultiplyShift
