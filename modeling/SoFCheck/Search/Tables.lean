import SoFCheck.Core.Moves

namespace SoFCheck.Search.Tables

open SoFCheck.Core.Types SoFCheck.Core.Moves

/-- The moves that were considered good on a specific depth. -/
structure KillerLine where
  first : Move
  second : Move

namespace KillerLine

def empty : KillerLine := ⟨Move.null, Move.null⟩

def add (killers : KillerLine) (move : Move) : KillerLine :=
  if move = killers.first then killers else ⟨move, killers.first⟩

end KillerLine

abbrev HistoryTable := Nat → BitVec 64

namespace HistoryTable

def empty : HistoryTable := fun _ => 0

def indexOf (move : Move) : Nat := ((toSquare move.src).val <<< 6) ||| (toSquare move.dst).val

def get (history : HistoryTable) (move : Move) : BitVec 64 := history (indexOf move)

def add (history : HistoryTable) (move : Move) (x : BitVec 64) : HistoryTable :=
  Function.update history (indexOf move) (history.get move + x)

end HistoryTable

def bucketSize : Nat := 4

def initialBucketCount : Nat := 32

/-- Small hash table to track draws by repetition. A slot with zero is free. -/
structure RepetitionTable where
  tab : Nat → BoardHash
  bucketCount : Nat

namespace RepetitionTable

def empty : RepetitionTable := ⟨fun _ => 0, initialBucketCount⟩

def mask (t : RepetitionTable) : BoardHash := BitVec.ofNat 64 ((t.bucketCount - 1) * bucketSize)

/-- The first slot of the bucket of a board. -/
def idx (t : RepetitionTable) (board : BoardHash) : Nat := (board &&& t.mask).toNat

/-- The first slot of the bucket that holds `val`. -/
def find (t : RepetitionTable) (board val : BoardHash) : Option Nat :=
  ((List.range bucketSize).find? fun i => t.tab (t.idx board + i) == val).map (t.idx board + ·)

def has (t : RepetitionTable) (board : BoardHash) : Bool := (t.find board board).isSome

def write (t : RepetitionTable) (i : Nat) (val : BoardHash) : RepetitionTable :=
  { t with tab := Function.update t.tab i val }

/-- Put an item where the new table has room for it. -/
def move (t : RepetitionTable) (item : BoardHash) : RepetitionTable :=
  if item = 0 then t
  else
    match t.find item 0 with
    | some i => t.write i item
    | none => t

def grow (t : RepetitionTable) : RepetitionTable :=
  ((List.range (t.bucketCount * bucketSize)).map t.tab).foldl move ⟨fun _ => 0, t.bucketCount * 2⟩

/-- The loop of `insert`. A table of 64-bit keys cannot grow more than `turns`
times. -/
def insertLoop (board : BoardHash) : (turns : Nat) → RepetitionTable → Option RepetitionTable
  | 0, _ => none
  | turns + 1, t =>
    match t.find board 0 with
    | some i => some (t.write i board)
    | none => insertLoop board turns t.grow

/-- Tells whether the board is new to the table. -/
def insert (t : RepetitionTable) (board : BoardHash) : Option (Bool × RepetitionTable) :=
  if t.has board then some (false, t) else (insertLoop board 64 t).map fun t => (true, t)

def erase (t : RepetitionTable) (board : BoardHash) : RepetitionTable :=
  match t.find board board with
  | some i => t.write i 0
  | none => t

section Slots

variable {t t' : RepetitionTable} {k val : BoardHash} {i j e : Nat}

theorem find_eq_some (h : t.find k val = some i) :
    t.tab i = val ∧ t.idx k ≤ i ∧ i < t.idx k + bucketSize := by
  obtain ⟨j, hj, rfl⟩ := Option.map_eq_some_iff.mp h
  have hmem := List.mem_of_find?_eq_some hj
  have hval := List.find?_some hj
  exact ⟨by simpa using hval, by omega, by simpa using hmem⟩

theorem find_eq_none : t.find k val = none ↔ ∀ i < bucketSize, t.tab (t.idx k + i) ≠ val := by
  simp [find]

/-- The keys of a table, found wherever they are. -/
def Holds (t : RepetitionTable) (k : BoardHash) : Prop :=
  ∃ i < t.bucketCount * bucketSize, t.tab i = k

/-- A table of `2 ^ e` buckets, in which each key stands in its own bucket and
nowhere else. -/
structure Sound (e : Nat) (t : RepetitionTable) : Prop where
  count : t.bucketCount = 2 ^ e
  home : ∀ i < t.bucketCount * bucketSize, t.tab i ≠ 0 →
    t.idx (t.tab i) ≤ i ∧ i < t.idx (t.tab i) + bucketSize
  distinct : ∀ i < t.bucketCount * bucketSize, ∀ j < t.bucketCount * bucketSize, t.tab i ≠ 0 →
    t.tab i = t.tab j → i = j

theorem idx_eq (hc : t.bucketCount = 2 ^ e) (he : e ≤ 62) (k : BoardHash) :
    t.idx k = k.toNat / 4 % 2 ^ e * 4 := by
  have hpow : (2 ^ e - 1) * 4 < 2 ^ 64 := by
    have := Nat.pow_le_pow_right (show 0 < 2 by omega) he
    omega
  rw [idx, mask, hc, BitVec.toNat_and, BitVec.toNat_ofNat, bucketSize, Nat.mod_eq_of_lt hpow]
  apply Nat.eq_of_testBit_eq
  intro i
  have h4 : (2 : Nat) ^ 2 = 4 := rfl
  rw [← h4, Nat.testBit_and, Nat.testBit_mul_two_pow, Nat.testBit_mul_two_pow,
    Nat.testBit_two_pow_sub_one, Nat.testBit_mod_two_pow, Nat.testBit_div_two_pow]
  by_cases hi : 2 ≤ i
  · rw [Nat.sub_add_cancel hi]
    simp [hi, Bool.and_comm]
  · simp [hi]

theorem idx_lt (hc : t.bucketCount = 2 ^ e) (he : e ≤ 62) (k : BoardHash) :
    t.idx k + bucketSize ≤ t.bucketCount * bucketSize := by
  rw [idx_eq hc he, hc, bucketSize]
  have := Nat.mod_lt (k.toNat / 4) (Nat.two_pow_pos e)
  omega

theorem Sound.empty : Sound 5 empty where
  count := rfl
  home := fun _ _ h => absurd rfl h
  distinct := fun _ _ _ _ h _ => absurd rfl h

theorem Sound.has_iff (h : Sound e t) (he : e ≤ 62) (hk : k ≠ 0) : t.has k = true ↔ t.Holds k := by
  rw [has, Option.isSome_iff_exists]
  constructor
  · intro hi
    obtain ⟨i, hi⟩ := hi
    obtain ⟨hval, -, hlt⟩ := find_eq_some hi
    have := idx_lt h.count he k
    exact ⟨i, by omega, hval⟩
  · intro hi
    obtain ⟨i, hi, hval⟩ := hi
    rw [← Option.ne_none_iff_exists', Ne, find_eq_none]
    intro hnone
    obtain ⟨hle, hlt⟩ := h.home i hi (by rw [hval]; exact hk)
    rw [hval] at hle hlt
    have := hnone (i - t.idx k) (by omega)
    rw [Nat.add_sub_cancel' hle] at this
    exact this hval

/-- A new key in a free slot of its bucket. -/
theorem Sound.write (h : Sound e t) (he : e ≤ 62) (hnew : ¬t.Holds k)
    (hi : t.find k 0 = some i) :
    Sound e (t.write i k) ∧ ∀ x, x ≠ 0 → ((t.write i k).Holds x ↔ x = k ∨ t.Holds x) := by
  obtain ⟨hfree, hle, hlt⟩ := find_eq_some hi
  have hsize := idx_lt h.count he k
  have hidx : ∀ x, (t.write i k).idx x = t.idx x := fun _ => rfl
  have htab : ∀ j, (t.write i k).tab j = if j = i then k else t.tab j := fun j =>
    Function.update_apply t.tab i k j
  have hcount : (t.write i k).bucketCount = t.bucketCount := rfl
  refine ⟨⟨h.count, ?_, ?_⟩, ?_⟩
  · intro j hj
    rw [htab, hidx]
    split
    · rename_i hji
      subst hji
      exact fun _ => ⟨hle, hlt⟩
    · exact h.home j hj
  · intro a ha b hb
    rw [htab, htab]
    split
    · rename_i hai
      split
      · rename_i hbi
        exact fun _ _ => hai.trans hbi.symm
      · exact fun _ heq => absurd ⟨b, hb, heq.symm⟩ hnew
    · split
      · exact fun _ heq => absurd ⟨a, ha, heq⟩ hnew
      · exact h.distinct a ha b hb
  · intro x hx
    simp only [Holds, htab, hcount]
    constructor
    · intro hj
      obtain ⟨j, hj, hval⟩ := hj
      split at hval
      · exact Or.inl hval.symm
      · exact Or.inr ⟨j, hj, hval⟩
    · intro hor
      cases hor with
      | inl heq => exact ⟨i, by omega, by simp [heq]⟩
      | inr hj =>
        obtain ⟨j, hj, hval⟩ := hj
        refine ⟨j, hj, ?_⟩
        rw [if_neg, hval]
        rintro rfl
        exact hx (hval.symm.trans hfree)

theorem idx_of_grown (hc : t.bucketCount = 2 ^ e) (hc' : t'.bucketCount = 2 ^ (e + 1)) (he : e < 62)
    {x y : BoardHash} (h : t'.idx x = t'.idx y) : t.idx x = t.idx y := by
  rw [idx_eq hc' (by omega), idx_eq hc' (by omega)] at h
  rw [idx_eq hc (by omega), idx_eq hc (by omega)]
  have hmod : ∀ n : Nat, n % 2 ^ (e + 1) % 2 ^ e = n % 2 ^ e := fun n =>
    Nat.mod_mod_of_dvd n ⟨2, by rw [Nat.pow_succ]⟩
  rw [← hmod (x.toNat / 4), ← hmod (y.toNat / 4), Nat.eq_of_mul_eq_mul_right (by omega) h]

theorem idx_of_slot (h : Sound e t) (he : e ≤ 62) (hi : i < bucketSize)
    (hne : t.tab (t.idx k + i) ≠ 0) : t.idx (t.tab (t.idx k + i)) = t.idx k := by
  have hsize := idx_lt h.count he k
  obtain ⟨hle, hlt⟩ := h.home (t.idx k + i) (by omega) hne
  rw [idx_eq h.count he] at hle hlt ⊢
  rw [idx_eq h.count he] at hle hlt ⊢
  unfold bucketSize at hlt hi
  omega

/-- What `grow` has done after the slots below `n`. -/
def grown (t : RepetitionTable) (n : Nat) : RepetitionTable :=
  ((List.range n).map t.tab).foldl move ⟨fun _ => 0, t.bucketCount * 2⟩

theorem grown_succ (t : RepetitionTable) (n : Nat) : t.grown (n + 1) = (t.grown n).move (t.tab n) := by
  simp [grown, List.range_succ]

/-- There is room for a key in the larger table: its bucket there only takes keys
from its bucket in the smaller one. -/
theorem exists_room (h : Sound e t) (he : e < 62) {n : Nat} (hn : n < t.bucketCount * bucketSize)
    (hg : Sound (e + 1) (t.grown n))
    (hkeys : ∀ x, x ≠ 0 → ((t.grown n).Holds x ↔ ∃ j < n, t.tab j = x)) (hne : t.tab n ≠ 0) :
    ∃ i, (t.grown n).find (t.tab n) 0 = some i := by
  rw [← Option.ne_none_iff_exists', Ne, find_eq_none]
  intro hfull
  have hsize := idx_lt hg.count (by omega) (t.tab n)
  have horigin : ∀ i < bucketSize, ∃ j < n,
      t.tab j = (t.grown n).tab ((t.grown n).idx (t.tab n) + i) ∧
        t.idx (t.tab n) ≤ j ∧ j < t.idx (t.tab n) + bucketSize := by
    intro i hi
    obtain ⟨j, hj, hval⟩ := (hkeys _ (hfull i hi)).mp ⟨_, by omega, rfl⟩
    have hidx := idx_of_grown h.count hg.count he (idx_of_slot hg (by omega) hi (hfull i hi))
    have hhome := h.home j (by omega) (by rw [hval]; exact hfull i hi)
    rw [hval, hidx] at hhome
    exact ⟨j, hj, hval, hhome⟩
  have hdistinct : ∀ {i i' j : Nat}, i < bucketSize → i' < bucketSize →
      t.tab j = (t.grown n).tab ((t.grown n).idx (t.tab n) + i) →
      t.tab j = (t.grown n).tab ((t.grown n).idx (t.tab n) + i') → i = i' := by
    intro i i' j hi hi' hval hval'
    have := hg.distinct _ (by omega) _ (by omega) (hfull i hi) (hval.symm.trans hval')
    omega
  obtain ⟨hlo, hhi⟩ := h.home n hn hne
  obtain ⟨a, ha, hva, hla, hua⟩ := horigin 0 (by decide)
  obtain ⟨b, hb, hvb, hlb, hub⟩ := horigin 1 (by decide)
  obtain ⟨c, hc, hvc, hlc, huc⟩ := horigin 2 (by decide)
  obtain ⟨d, hd, hvd, hld, hud⟩ := horigin 3 (by decide)
  have hab : a ≠ b := by
    rintro rfl
    exact absurd (hdistinct (by decide) (by decide) hva hvb) (by decide)
  have hac : a ≠ c := by
    rintro rfl
    exact absurd (hdistinct (by decide) (by decide) hva hvc) (by decide)
  have had : a ≠ d := by
    rintro rfl
    exact absurd (hdistinct (by decide) (by decide) hva hvd) (by decide)
  have hbc : b ≠ c := by
    rintro rfl
    exact absurd (hdistinct (by decide) (by decide) hvb hvc) (by decide)
  have hbd : b ≠ d := by
    rintro rfl
    exact absurd (hdistinct (by decide) (by decide) hvb hvd) (by decide)
  have hcd : c ≠ d := by
    rintro rfl
    exact absurd (hdistinct (by decide) (by decide) hvc hvd) (by decide)
  unfold bucketSize at hua hub huc hud hhi
  omega

theorem grown_spec (h : Sound e t) (he : e < 62) (n : Nat) (hn : n ≤ t.bucketCount * bucketSize) :
    Sound (e + 1) (t.grown n) ∧
      ∀ x, x ≠ 0 → ((t.grown n).Holds x ↔ ∃ j < n, t.tab j = x) := by
  induction n with
  | zero =>
    refine ⟨⟨?_, fun _ _ h => absurd rfl h, fun _ _ _ _ h _ => absurd rfl h⟩, fun x hx => ?_⟩
    · change t.bucketCount * 2 = _
      rw [h.count, Nat.pow_succ]
    · constructor
      · rintro ⟨j, -, hval⟩
        exact absurd hval.symm hx
      · rintro ⟨j, hj, -⟩
        omega
  | succ n ih =>
    obtain ⟨hg, hkeys⟩ := ih (by omega)
    have hsplit : ∀ x, (∃ j < n + 1, t.tab j = x) ↔ t.tab n = x ∨ ∃ j < n, t.tab j = x := by
      intro x
      constructor
      · rintro ⟨j, hj, hval⟩
        by_cases hjn : j = n
        · exact Or.inl (hjn ▸ hval)
        · exact Or.inr ⟨j, by omega, hval⟩
      · rintro (hval | ⟨j, hj, hval⟩)
        · exact ⟨n, by omega, hval⟩
        · exact ⟨j, by omega, hval⟩
    rw [grown_succ, move]
    split
    · rename_i hzero
      refine ⟨hg, fun x hx => ?_⟩
      rw [hkeys x hx, hsplit]
      refine (or_iff_right ?_).symm
      rw [hzero]
      exact Ne.symm hx
    · rename_i hne
      obtain ⟨i, hi⟩ := exists_room h he (by omega) hg hkeys hne
      have hnew : ¬(t.grown n).Holds (t.tab n) := by
        rw [hkeys _ hne]
        rintro ⟨j, hj, hval⟩
        have := h.distinct j (by omega) n (by omega) (by rw [hval]; exact hne) hval
        omega
      obtain ⟨hw, hwkeys⟩ := hg.write (by omega) hnew hi
      rw [hi]
      refine ⟨hw, fun x hx => ?_⟩
      rw [hwkeys x hx, hkeys x hx, hsplit, eq_comm]

theorem Sound.grow (h : Sound e t) (he : e < 62) :
    Sound (e + 1) t.grow ∧ ∀ x, x ≠ 0 → (t.grow.Holds x ↔ t.Holds x) :=
  grown_spec h he _ le_rfl

/-- A table of the largest size has a bucket for every four keys. -/
theorem exists_free (h : Sound 62 t) (hnew : k ≠ 0 → ¬t.Holds k) : ∃ i, t.find k 0 = some i := by
  rw [← Option.ne_none_iff_exists', Ne, find_eq_none]
  intro hfull
  have hsize := idx_lt h.count le_rfl k
  have hslot : ∀ i < bucketSize, (t.tab (t.idx k + i)).toNat / 4 = k.toNat / 4 ∧
      t.tab (t.idx k + i) ≠ k := by
    intro i hi
    have hidx := idx_of_slot h le_rfl hi (hfull i hi)
    have hlt : ∀ x : BoardHash, x.toNat / 4 < 2 ^ 62 := fun x => by
      have := x.isLt
      omega
    have hx := idx_eq h.count le_rfl (t.tab (t.idx k + i))
    have hy := idx_eq h.count le_rfl k
    rw [Nat.mod_eq_of_lt (hlt _)] at hx hy
    refine ⟨by omega, fun hval => ?_⟩
    by_cases hk : k = 0
    · exact hfull i hi (hval.trans hk)
    · exact hnew hk ⟨_, by omega, hval⟩
  have hdistinct : ∀ i < bucketSize, ∀ j < bucketSize, i ≠ j →
      (t.tab (t.idx k + i)).toNat ≠ (t.tab (t.idx k + j)).toNat := by
    intro i hi j hj hij heq
    have := h.distinct _ (by omega) _ (by omega) (hfull i hi) (BitVec.eq_of_toNat_eq heq)
    omega
  have hne : ∀ i < bucketSize, (t.tab (t.idx k + i)).toNat ≠ k.toNat := fun i hi heq =>
    (hslot i hi).2 (BitVec.eq_of_toNat_eq heq)
  have h01 := hdistinct 0 (by decide) 1 (by decide) (by decide)
  have h02 := hdistinct 0 (by decide) 2 (by decide) (by decide)
  have h03 := hdistinct 0 (by decide) 3 (by decide) (by decide)
  have h12 := hdistinct 1 (by decide) 2 (by decide) (by decide)
  have h13 := hdistinct 1 (by decide) 3 (by decide) (by decide)
  have h23 := hdistinct 2 (by decide) 3 (by decide) (by decide)
  have := (hslot 0 (by decide)).1
  have := (hslot 1 (by decide)).1
  have := (hslot 2 (by decide)).1
  have := (hslot 3 (by decide)).1
  have := hne 0 (by decide)
  have := hne 1 (by decide)
  have := hne 2 (by decide)
  have := hne 3 (by decide)
  omega

/-- A new key finds its slot, after as many steps of growth as it takes. -/
theorem insertLoop_spec (turns : Nat) (h : Sound e t) (he : e ≤ 62) (hturns : 62 - e < turns)
    (hnew : k ≠ 0 → ¬t.Holds k) :
    ∃ t' e', insertLoop k turns t = some t' ∧ Sound e' t' ∧ e' ≤ 62 ∧
      ∀ x, x ≠ 0 → (t'.Holds x ↔ x = k ∨ t.Holds x) := by
  induction turns generalizing t e with
  | zero => omega
  | succ turns ih =>
    rw [insertLoop]
    cases hi : t.find k 0 with
    | some i =>
      by_cases hk : k = 0
      · have hsame : t.write i k = t := by
          rw [RepetitionTable.write, hk, ← (find_eq_some hi).1, Function.update_eq_self]
        refine ⟨_, e, rfl, ?_⟩
        rw [hsame]
        exact ⟨h, he, fun x hx => (or_iff_right (hk ▸ hx)).symm⟩
      · obtain ⟨hw, hkeys⟩ := h.write he (hnew hk) hi
        exact ⟨_, e, rfl, hw, he, hkeys⟩
    | none =>
      have hlt : e < 62 := by
        by_contra hge
        obtain rfl : e = 62 := by omega
        obtain ⟨i, hi'⟩ := exists_free h hnew
        rw [hi] at hi'
        cases hi'
      obtain ⟨hg, hgkeys⟩ := h.grow hlt
      obtain ⟨t', e', ht', hs, he', hkeys⟩ := ih hg (by omega) (by omega)
        (fun hk => by rw [hgkeys k hk]; exact hnew hk)
      exact ⟨t', e', ht', hs, he', fun x hx => by rw [hkeys x hx, hgkeys x hx]⟩

theorem insert_spec (h : Sound e t) (he : e ≤ 62) (k : BoardHash) :
    ∃ t' e', t.insert k = some (!t.has k, t') ∧ Sound e' t' ∧ e' ≤ 62 ∧
      ∀ x, x ≠ 0 → (t'.Holds x ↔ x = k ∨ t.Holds x) := by
  rw [insert]
  split
  · rename_i hhas
    refine ⟨t, e, by rw [hhas]; rfl, h, he, fun x hx => (or_iff_right_of_imp ?_).symm⟩
    rintro rfl
    exact (h.has_iff he hx).mp hhas
  · rename_i hhas
    have hnew : k ≠ 0 → ¬t.Holds k := fun hk hx => hhas ((h.has_iff he hk).mpr hx)
    obtain ⟨t', e', ht', hs, he', hkeys⟩ := insertLoop_spec 64 h he (by omega) hnew
    exact ⟨t', e', by rw [ht', Bool.not_eq_true _ |>.mp hhas]; rfl, hs, he', hkeys⟩

/-- Erasing a board takes its key away and no other. -/
theorem Sound.erase (h : Sound e t) (he : e ≤ 62) (k : BoardHash) :
    Sound e (t.erase k) ∧ ∀ x, x ≠ 0 → ((t.erase k).Holds x ↔ x ≠ k ∧ t.Holds x) := by
  rw [RepetitionTable.erase]
  cases hi : t.find k k with
  | none =>
    refine ⟨h, fun x hx => (and_iff_right_of_imp fun hh => ?_).symm⟩
    rintro rfl
    rw [← h.has_iff he hx, has, hi] at hh
    cases hh
  | some i =>
    obtain ⟨hval, -, hlt⟩ := find_eq_some hi
    have hsize := idx_lt h.count he k
    have htab : ∀ j, (t.write i 0).tab j = if j = i then 0 else t.tab j := fun j =>
      Function.update_apply t.tab i 0 j
    refine ⟨⟨h.count, fun j hj => ?_, fun a ha b hb => ?_⟩, fun x hx => ?_⟩
    · rw [htab]
      split
      · exact fun hne => absurd rfl hne
      · exact h.home j hj
    · rw [htab, htab]
      split
      · exact fun hne => absurd rfl hne
      · split
        · exact fun hne heq => absurd heq hne
        · exact h.distinct a ha b hb
    · constructor
      · rintro ⟨j, hj, hj'⟩
        rw [htab] at hj'
        split at hj'
        · exact absurd hj'.symm hx
        · rename_i hji
          refine ⟨?_, j, hj, hj'⟩
          rintro rfl
          exact hji (h.distinct j hj i (by omega) (by rwa [hj']) (hj'.trans hval.symm))
      · rintro ⟨hxk, j, hj, hj'⟩
        refine ⟨j, hj, ?_⟩
        rw [htab, if_neg, hj']
        rintro rfl
        exact hxk (hj'.symm.trans hval)

end Slots

end RepetitionTable

end SoFCheck.Search.Tables
