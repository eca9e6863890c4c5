import SoFCheck.Search.TableResize

namespace SoFCheck.Search.TableKeys

open SoFCheck.Util.Parallel SoFCheck.Util.Transition
open SoFCheck.Core.Types SoFCheck.Core.Moves SoFCheck.Search.TableData
open SoFCheck.Search.TranspositionTable SoFCheck.Search.TableResize

section Invariant

/-- What `store` writes. -/
def stored (key : BoardHash) (d : Data) (epoch : BitVec 8) : Entry :=
  ⟨{ d with epoch_ := epoch }, key ^^^ ({ d with epoch_ := epoch } : Data).asUint⟩

/-- An entry in slot `i` is empty, or it was stored under a key of this slot. -/
def Filed (stores : List (BoardHash × Data × BitVec 8)) (size i : Nat) (e : Entry) : Prop :=
  e = Entry.cleared ∨
    ∃ key d epoch, (key, d, epoch) ∈ stores ∧ key.toNat % size = i ∧ e = stored key d epoch

/-- The number of entries is a power of two, and each of them is where it
belongs. -/
structure Tidy (s : State) : Prop where
  size : ∃ e ≤ 58, s.table.size = 2 ^ e
  filed : ∀ i < s.table.size, Filed s.stores s.table.size i (s.table.entries i)

/-- The entry of slot zero is to stay in slot zero, and there are empty entries,
which the larger table takes for entries of the key zero. -/
def Clash (t : Table) (newSize : Nat) : Prop :=
  (t.entries 0).value ≠ Data.zero ∧ slot newSize (t.entries 0).boardKey = 0 ∧
    ∃ i, 0 < i ∧ i < t.size ∧ t.entries i = Entry.cleared

/-- A growing table is rebuilt by one worker, or there is no clash for several
workers to race over. -/
def Untorn (s : State) : Action → Prop
  | .resize maxSize clearTable jobs _ =>
    clearTable = false → jobs = 1 ∨ ∀ newSize, newEntries maxSize = some newSize →
      s.table.size < newSize → ¬Clash s.table newSize
  | _ => True

@[simp] theorem boardKey_cleared : Entry.cleared.boardKey = 0 := by decide

@[simp] theorem boardKey_stored (key : BoardHash) (d : Data) (epoch : BitVec 8) :
    (stored key d epoch).boardKey = key := by
  rw [Entry.boardKey, stored, BitVec.xor_assoc, BitVec.xor_self, BitVec.xor_zero]

variable {s : State} {stores : List (BoardHash × Data × BitVec 8)} {size newSize i j : Nat}

theorem load_eq (t : Table) (key : BoardHash) : load t key =
    if (t.entries (slot t.size key)).boardKey = key then (t.entries (slot t.size key)).value
    else Data.zero := by
  rw [load]
  split
  · rename_i h
    exact (if_neg h).symm
  · rename_i h
    exact (if_pos (not_not.mp h)).symm

theorem Filed.mono {stores' : List (BoardHash × Data × BitVec 8)} {e : Entry}
    (h : Filed stores size i e) (hsub : ∀ x ∈ stores, x ∈ stores') : Filed stores' size i e := by
  cases h with
  | inl h => exact Or.inl h
  | inr h =>
    obtain ⟨key, d, epoch, hmem, hi, he⟩ := h
    exact Or.inr ⟨key, d, epoch, hsub _ hmem, hi, he⟩

theorem Filed.key {e : Entry} (h : Filed stores size i e) :
    e = Entry.cleared ∨ e.boardKey.toNat % size = i := by
  cases h with
  | inl h => exact Or.inl h
  | inr h =>
    obtain ⟨key, d, epoch, -, hi, rfl⟩ := h
    exact Or.inr (by rwa [boardKey_stored])

theorem Filed.fold {e : Entry} (h : Filed stores size i e) (hdvd : newSize ∣ size) :
    Filed stores newSize (i % newSize) e := by
  cases h with
  | inl h => exact Or.inl h
  | inr h =>
    obtain ⟨key, d, epoch, hmem, rfl, he⟩ := h
    exact Or.inr ⟨key, d, epoch, hmem, (Nat.mod_mod_of_dvd _ hdvd).symm, he⟩

theorem Filed.move {e : Entry} (h : Filed stores size i e) :
    Filed stores newSize (e.boardKey.toNat % newSize) e := by
  cases h with
  | inl h => exact Or.inl h
  | inr h =>
    obtain ⟨key, d, epoch, hmem, -, rfl⟩ := h
    exact Or.inr ⟨key, d, epoch, hmem, by rw [boardKey_stored], rfl⟩

end Invariant

section Growing

variable {s : State} {newSize i j idx e : Nat}

theorem target_eq (hnew : newSize = 2 ^ e) (he : e ≤ 58) :
    target s.table newSize i = (s.table.entries i).boardKey.toNat % newSize := by
  rw [target, hnew, slot_two_pow (by omega)]

/-- Two entries that go to one slot are the same, or both of them are empty. -/
theorem same_target (h : Tidy s) (hnew : newSize = 2 ^ e) (he : e ≤ 58)
    (hdvd : s.table.size ∣ newSize) (hclash : ¬Clash s.table newSize) (hi : i < s.table.size)
    (hj : j < s.table.size) (heq : target s.table newSize i = target s.table newSize j) :
    s.table.entries i = s.table.entries j ∨
      (s.table.entries i).value = Data.zero ∧ (s.table.entries j).value = Data.zero := by
  have hhome : ∀ {i}, i < s.table.size → s.table.entries i = Entry.cleared ∨
      target s.table newSize i % s.table.size = i := by
    intro i hi
    refine (h.filed i hi).key.imp_right fun hk => ?_
    rw [target_eq hnew he, Nat.mod_mod_of_dvd _ hdvd, hk]
  have hzero : ∀ {i}, s.table.entries i = Entry.cleared → target s.table newSize i = 0 := by
    intro i hi
    rw [target, hi, boardKey_cleared]
    exact Nat.zero_and _
  -- An empty entry only meets the entry of slot zero.
  have hmeet : ∀ {i j}, i < s.table.size → j < s.table.size →
      target s.table newSize i = target s.table newSize j → s.table.entries i = Entry.cleared →
      s.table.entries j ≠ Entry.cleared → (s.table.entries j).value = Data.zero := by
    intro i j hi hj heq hci hcj
    rw [hzero hci] at heq
    have hj0 := (hhome hj).resolve_left hcj
    rw [← heq, Nat.zero_mod] at hj0
    subst hj0
    by_contra hv
    refine hclash ⟨hv, heq.symm, i, ?_, hi, hci⟩
    refine Nat.pos_of_ne_zero ?_
    rintro rfl
    exact hcj hci
  by_cases hci : s.table.entries i = Entry.cleared <;>
    by_cases hcj : s.table.entries j = Entry.cleared
  · exact Or.inl (hci.trans hcj.symm)
  · exact Or.inr ⟨congrArg Entry.value hci, hmeet hi hj heq hci hcj⟩
  · exact Or.inr ⟨hmeet hj hi heq.symm hcj hci, congrArg Entry.value hcj⟩
  · left
    rw [← (hhome hi).resolve_left hci, ← (hhome hj).resolve_left hcj, heq]

/-- The memory of the table after it has grown. -/
def grown (t : Table) (newSize jobs : Nat) (sched : Schedule) : Nat → Entry :=
  writeAll (doClear sched.junk newSize jobs sched.clearing)
    (interleave ((segments 0 t.size jobs).map (growSegment t newSize)) sched.moving)

variable {jobs : Nat} {sched : Schedule}

theorem grown_untouched (hjobs : 0 < jobs) (hidx : idx < newSize)
    (h : ∀ i < s.table.size, target s.table newSize i ≠ idx) :
    grown s.table newSize jobs sched idx = Entry.cleared := by
  rw [grown, grow_untouched hjobs h, doClear_eq hjobs hidx]

variable (sched) in
theorem grown_cases (h : Tidy s) (hnew : newSize = 2 ^ e) (he : e ≤ 58)
    (hdvd : s.table.size ∣ newSize) (hjobs : 0 < jobs) (hidx : idx < newSize)
    (huntorn : jobs = 1 ∨ ¬Clash s.table newSize) :
    grown s.table newSize jobs sched idx = Entry.cleared ∨
      ∃ i < s.table.size, target s.table newSize i = idx ∧
        grown s.table newSize jobs sched idx = s.table.entries i := by
  by_cases hex : ∃ i < s.table.size, target s.table newSize i = idx
  · cases huntorn with
    | inl hone =>
      right
      obtain ⟨i, hi, hti⟩ := hex
      rw [grown, grow_sequential hjobs (Or.inl hone)]
      refine writeAll_of_mem (w := (target s.table newSize i, fun _ => s.table.entries i))
        (P := fun x : Entry => ∃ i < s.table.size, target s.table newSize i = idx ∧
          x = s.table.entries i) ?_ ?_ hti fun _ => ⟨i, hi, hti, rfl⟩
      · intro w hw hwi x hx
        obtain ⟨j, hj, rfl⟩ := List.mem_map.mp hw
        exact ⟨j, by simpa using hj, hwi, rfl⟩
      · exact List.mem_map.mpr ⟨i, by simpa using hi, rfl⟩
    | inr hclash =>
      obtain ⟨i, hi, j, hj, hti, htj, heq⟩ := grow_words
        (doClear sched.junk newSize jobs sched.clearing) sched.moving hjobs hex
      rw [grown, heq]
      cases same_target h hnew he hdvd hclash hi hj (hti.trans htj.symm) with
      | inl hsame => exact Or.inr ⟨i, hi, hti, by rw [← hsame]⟩
      | inr hzero => exact Or.inr ⟨j, hj, htj, by rw [hzero.1, ← hzero.2]⟩
  · exact Or.inl (grown_untouched hjobs hidx fun i hi hti => hex ⟨i, hi, hti⟩)

theorem filed_grown (h : Tidy s) (hnew : newSize = 2 ^ e) (he : e ≤ 58)
    (hdvd : s.table.size ∣ newSize) (hjobs : 0 < jobs) (hidx : idx < newSize)
    (huntorn : jobs = 1 ∨ ¬Clash s.table newSize) :
    Filed s.stores newSize idx (grown s.table newSize jobs sched idx) := by
  cases grown_cases sched h hnew he hdvd hjobs hidx huntorn with
  | inl hc => exact Or.inl hc
  | inr hex =>
    obtain ⟨i, hi, rfl, heq⟩ := hex
    rw [heq, target_eq hnew he]
    exact (h.filed i hi).move

/-- Without a clash each key finds what it found before. -/
theorem load_grown (h : Tidy s) (hnew : newSize = 2 ^ e) (he : e ≤ 58)
    (hdvd : s.table.size ∣ newSize) (hjobs : 0 < jobs) (hclash : ¬Clash s.table newSize)
    (key : BoardHash) :
    load { s.table with entries := grown s.table newSize jobs sched, size := newSize } key =
      load s.table key := by
  have hpos : 0 < newSize := by rw [hnew]; exact Nat.two_pow_pos e
  obtain ⟨e₀, he₀, hsize⟩ := h.size
  have hslot : ∀ k, slot s.table.size k = k.toNat % s.table.size := fun k => by
    rw [hsize, slot_two_pow (by omega)]
  have hslot' : ∀ k, slot newSize k = k.toNat % newSize := fun k => by
    rw [hnew, slot_two_pow (by omega)]
  have hlt : slot s.table.size key < s.table.size := by
    rw [hslot, hsize]
    exact Nat.mod_lt _ (Nat.two_pow_pos e₀)
  rw [load_eq, load_eq]
  simp only
  have hidx : slot newSize key < newSize := by
    rw [hslot']
    exact Nat.mod_lt _ hpos
  by_cases hhit : (s.table.entries (slot s.table.size key)).boardKey = key
  · rw [if_pos hhit]
    have htarget : target s.table newSize (slot s.table.size key) = slot newSize key := by
      rw [target, hhit]
    obtain ⟨i, hi, j, hj, hti, htj, heq⟩ := grow_words
      (doClear sched.junk newSize jobs sched.clearing) sched.moving hjobs ⟨_, hlt, htarget⟩
    change grown s.table newSize jobs sched (slot newSize key) = _ at heq
    have hsi := same_target h hnew he hdvd hclash hi hlt (hti.trans htarget.symm)
    have hsj := same_target h hnew he hdvd hclash hj hlt (htj.trans htarget.symm)
    rw [heq]
    by_cases hv : (s.table.entries (slot s.table.size key)).value = Data.zero
    · have hvi : (s.table.entries i).value = Data.zero := by
        cases hsi with
        | inl hsame => rw [hsame, hv]
        | inr hzero => exact hzero.1
      rw [hvi, hv, ite_self]
    · have hsame := hsi.resolve_right fun hz => hv hz.2
      have hsame' := hsj.resolve_right fun hz => hv hz.2
      rw [hsame, hsame', if_pos hhit]
  · rw [if_neg hhit]
    cases grown_cases sched h hnew he hdvd hjobs hidx (Or.inr hclash) with
    | inl hc =>
      rw [hc]
      exact ite_self _
    | inr hex =>
      obtain ⟨i, hi, hti, heq⟩ := hex
      rw [heq, ite_eq_right_iff]
      intro hkey
      cases (h.filed i hi).key with
      | inl hc => rw [hc]; rfl
      | inr hki =>
        refine absurd ?_ hhit
        rw [hslot, ← hkey, hki]

variable (sched) in
/-- An empty entry that is moved after the entry of slot zero wipes it out. -/
theorem lost_of_clash (h : Tidy s) (hnew : newSize = 2 ^ e) (he : e ≤ 58)
    (hdvd : s.table.size ∣ newSize) (hjobs : 0 < jobs) (hclash : Clash s.table newSize)
    (hseq : jobs = 1 ∨ sched.moving = []) :
    load { s.table with entries := grown s.table newSize jobs sched, size := newSize }
        (s.table.entries 0).boardKey ≠ load s.table (s.table.entries 0).boardKey := by
  obtain ⟨hv, hzero, i, h0, hi, hc⟩ := hclash
  obtain ⟨e₀, he₀, hsize⟩ := h.size
  have hzero' : slot s.table.size (s.table.entries 0).boardKey = 0 := by
    rw [hnew, slot_two_pow (by omega), ← hnew] at hzero
    rw [hsize, slot_two_pow (by omega), ← hsize, ← Nat.mod_mod_of_dvd _ hdvd, hzero, Nat.zero_mod]
  have hempty : grown s.table newSize jobs sched 0 = Entry.cleared := by
    have hrange : List.range' 0 s.table.size = 0 :: List.range' 1 (s.table.size - 1) := by
      obtain ⟨n, hn⟩ : ∃ n, s.table.size = n + 1 := ⟨s.table.size - 1, by omega⟩
      rw [hn]
      rfl
    rw [grown, grow_sequential hjobs hseq, hrange, List.map_cons, writeAll_cons]
    refine writeAll_of_mem (w := (target s.table newSize i, fun _ => s.table.entries i))
      (P := fun x : Entry => x = Entry.cleared) ?_ ?_ ?_ fun _ => hc
    · intro w hw hwi x _
      obtain ⟨j, hj, rfl⟩ := List.mem_map.mp hw
      rw [List.mem_range'_1] at hj
      cases (h.filed j (by omega)).key with
      | inl hcj => exact hcj
      | inr hkj =>
        have htj : target s.table newSize j = 0 := hwi
        rw [target_eq hnew he] at htj
        rw [← Nat.mod_mod_of_dvd _ hdvd, htj, Nat.zero_mod] at hkj
        omega
    · exact List.mem_map.mpr ⟨i, List.mem_range'_1.mpr ⟨by omega, by omega⟩, rfl⟩
    · rw [target, hc, boardKey_cleared]
      exact Nat.zero_and _
  rw [load_eq, load_eq]
  simp only
  rw [hzero, hzero', if_pos rfl, hempty]
  intro heq
  apply hv
  rw [← heq]
  exact ite_self _

end Growing

section Runs

variable {junk : Nat → Entry} {s s' : State} {a : Action}

theorem create_size : (create junk).size = 2 ^ 21 := by
  simp only [create, clear, defaultSize]
  norm_num

theorem create_entries {i : Nat} (hi : i < 2 ^ 21) : (create junk).entries i = Entry.cleared := by
  simp only [create, clear]
  refine doClear_eq Nat.one_pos ?_
  rw [defaultSize]
  omega

theorem tidy_create : Tidy ⟨create junk, []⟩ where
  size := ⟨21, by omega, create_size⟩
  filed _ hi := Or.inl (create_entries (create_size ▸ hi))

theorem resize_cases {t t' : Table} {maxSize : BitVec 64} {clearTable : Bool} {jobs : Nat}
    {sched : Schedule} (h : resize t maxSize clearTable jobs sched = some t') :
    ∃ newSize, newEntries maxSize = some newSize ∧ t'.size = newSize ∧ t'.epoch = t.epoch ∧
      ((newSize = t.size ∧ clearTable = false ∧ t' = t) ∨
        (clearTable = true ∧ ∃ table, t'.entries = doClear table newSize jobs sched.clearing) ∨
        (t.size < newSize ∧ clearTable = false ∧ t'.entries = grown t newSize jobs sched) ∨
        (newSize < t.size ∧ clearTable = false ∧ t'.entries = writeAll sched.junk
          (interleave ((segments 0 newSize jobs).map (shrinkSegment t newSize)) sched.moving))) := by
  obtain ⟨newSize, hnew, rfl⟩ := Option.map_eq_some_iff.mp h
  refine ⟨newSize, hnew, ?_⟩
  by_cases hsize : newSize = t.size
  · subst hsize
    cases clearTable with
    | false => simp
    | true =>
      simp only [if_true]
      exact ⟨rfl, rfl, Or.inr (Or.inl ⟨trivial, t.entries, rfl⟩)⟩
  · rw [if_neg hsize]
    refine ⟨rfl, rfl, ?_⟩
    cases clearTable with
    | true => exact Or.inr (Or.inl ⟨rfl, sched.junk, rfl⟩)
    | false =>
      by_cases hgt : t.size < newSize
      · refine Or.inr (Or.inr (Or.inl ⟨hgt, rfl, ?_⟩))
        simp [hgt, grown]
      · refine Or.inr (Or.inr (Or.inr ⟨by omega, rfl, ?_⟩))
        simp [hgt]

theorem two_pow_dvd_of_lt {m n e e' : Nat} (hm : m = 2 ^ e) (hn : n = 2 ^ e') (h : m < n) : m ∣ n := by
  subst hm hn
  exact Nat.pow_dvd_pow 2 (Nat.le_of_lt ((Nat.pow_lt_pow_iff_right (show 1 < 2 by omega)).mp h))

theorem tidy_resize {maxSize : BitVec 64} {clearTable : Bool} {jobs : Nat} {sched : Schedule}
    {t' : Table} (h : Tidy s) (hjobs : 0 < jobs)
    (huntorn : Untorn s (.resize maxSize clearTable jobs sched))
    (hr : resize s.table maxSize clearTable jobs sched = some t') :
    Tidy ⟨t', if clearTable then [] else s.stores⟩ := by
  obtain ⟨newSize, hnew, hsize, -, hcases⟩ := resize_cases hr
  obtain ⟨e, -, he, hpow, -⟩ := newEntries_eq hnew
  obtain ⟨e₀, -, hpow₀⟩ := h.size
  refine ⟨⟨e, he, hsize.trans hpow⟩, fun i hi => ?_⟩
  simp only at hi ⊢
  rw [hsize] at hi ⊢
  rcases hcases with ⟨heq, rfl, rfl⟩ | ⟨rfl, table, htable⟩ | ⟨hlt, rfl, htable⟩ | ⟨hlt, rfl, htable⟩
  · rw [heq] at hi ⊢
    exact h.filed i hi
  · rw [htable]
    exact Or.inl (doClear_eq hjobs hi)
  · rw [htable]
    exact filed_grown h hpow he (two_pow_dvd_of_lt hpow₀ hpow hlt) hjobs hi
      ((huntorn rfl).imp_right fun hc => hc newSize hnew hlt)
  · have hdvd := two_pow_dvd_of_lt hpow hpow₀ hlt
    obtain ⟨⟨j, hj, hji, hentry⟩, -⟩ := shrink_spec sched.junk
      sched.moving hjobs hi hdvd (by omega)
    rw [htable, hentry, ← hji]
    exact (h.filed j hj).fold hdvd

theorem tidy_store (h : Tidy s) (key : BoardHash) (d : Data) :
    Tidy ⟨store s.table key d, (key, d, s.table.epoch) :: s.stores⟩ := by
  have hkeep : ∀ i < s.table.size,
      Filed ((key, d, s.table.epoch) :: s.stores) s.table.size i (s.table.entries i) := fun i hi =>
    (h.filed i hi).mono fun _ hx => List.mem_cons_of_mem _ hx
  obtain ⟨e, he, hsize⟩ := h.size
  rw [store]
  split
  · exact ⟨⟨e, he, hsize⟩, hkeep⟩
  · refine ⟨⟨e, he, hsize⟩, fun i hi => ?_⟩
    simp only at hi ⊢
    by_cases hslot : i = slot s.table.size key
    · subst hslot
      rw [Function.update_self]
      refine Or.inr ⟨key, d, s.table.epoch, List.mem_cons_self, ?_, rfl⟩
      rw [hsize, slot_two_pow (by omega)]
    · rw [Function.update_of_ne hslot]
      exact hkeep i hi

theorem tidy_step (h : Tidy s) (huntorn : Untorn s a) (hs : step s a = some s') : Tidy s' := by
  cases a with
  | store key value =>
    cases hs
    exact tidy_store h key value
  | clear jobs order =>
    simp only [step, Option.ite_none_left_eq_some] at hs
    obtain ⟨hjobs, hs⟩ := hs
    cases hs
    exact ⟨h.size, fun i hi => Or.inl (doClear_eq (by omega) hi)⟩
  | resize maxSize clearTable jobs sched =>
    simp only [step, Option.ite_none_left_eq_some, Option.map_eq_some_iff] at hs
    obtain ⟨hjobs, t', hr, rfl⟩ := hs
    exact tidy_resize h (by omega) huntorn hr
  | growEpoch amount =>
    cases hs
    exact ⟨h.size, h.filed⟩
  | resetEpoch =>
    cases hs
    exact ⟨h.size, h.filed⟩

theorem tidy_of_reach (h : (system junk).Reach Untorn s) : Tidy s :=
  h.invariant tidy_create fun _ _ _ ht hc hs => tidy_step ht hc hs

theorem reach_resize {C : State → Action → Prop} {maxSize : BitVec 64} {jobs : Nat}
    {sched : Schedule} {t' : Table} (h : (system junk).Reach C s)
    (hC : C s (.resize maxSize false jobs sched)) (hjobs : 0 < jobs)
    (hr : resize s.table maxSize false jobs sched = some t') :
    (system junk).Reach C ⟨t', s.stores⟩ := by
  refine h.step hC ?_
  change (if jobs = 0 then none else _) = _
  rw [if_neg (Nat.ne_of_gt hjobs), hr]
  rfl

end Runs

section Growth

variable {junk : Nat → Entry} {s : State} {maxSize : BitVec 64} {newSize jobs : Nat}

variable (jobs) in
theorem resize_grown (hnew : newEntries maxSize = some newSize) (hlt : s.table.size < newSize)
    (sched : Schedule) : resize s.table maxSize false jobs sched =
      some { s.table with entries := grown s.table newSize jobs sched, size := newSize } := by
  rw [resize, hnew, Option.map_some, if_neg (Nat.ne_of_gt hlt), if_neg (by decide), if_pos hlt]
  rfl

/-- A table in which nothing has been stored yet. -/
def fresh : State := ⟨create fun _ => Entry.cleared, []⟩

theorem weight_cleared (epoch : BitVec 8) : weight Entry.cleared.value epoch = -2 ^ 31 := rfl

theorem le_weight (d : Data) (epoch : BitVec 8) : -2 ^ 31 ≤ weight d epoch := by
  have hage := (epoch - d.epoch_).isLt
  rw [weight]
  split
  · exact le_rfl
  · simp only [Data.depth]
    split <;> omega

theorem store_empty {t : Table} {key : BoardHash} (d : Data)
    (h : t.entries (slot t.size key) = Entry.cleared) :
    store t key d = { t with
      entries := Function.update t.entries (slot t.size key) (stored key d t.epoch) } := by
  rw [store, h, weight_cleared, if_neg (not_lt.mpr (le_weight _ _))]
  rfl

/-- The first entry of a table, in slot zero. -/
def single (key : BoardHash) (d : Data) : State :=
  ⟨store fresh.table key d, [(key, d, 0)]⟩

variable (key : BoardHash) (d : Data)

theorem reach_single (C : State → Action → Prop) (h : C fresh (.store key d)) :
    (system fun _ => Entry.cleared).Reach C (single key d) :=
  .step (s := fresh) .init h rfl

theorem single_spec (hkey : slot (2 ^ 21) key = 0) :
    (single key d).table.size = 2 ^ 21 ∧ (single key d).table.entries 0 = stored key d 0 ∧
      ∀ i, 0 < i → i < 2 ^ 21 → (single key d).table.entries i = Entry.cleared := by
  have hsize : fresh.table.size = 2 ^ 21 := by rw [fresh, create_size]
  have hslot : slot fresh.table.size key = 0 := by rw [hsize, hkey]
  have hempty : fresh.table.entries 0 = Entry.cleared := create_entries (by omega)
  have htable : (single key d).table = { fresh.table with
      entries := Function.update fresh.table.entries 0 (stored key d 0) } := by
    rw [single, store_empty d (by rw [hslot, hempty]), hslot]
    rfl
  rw [htable]
  refine ⟨hsize, by simp only [Function.update_self], fun i h0 hi => ?_⟩
  simp only [Function.update_of_ne (Nat.ne_of_gt h0)]
  exact create_entries hi

theorem clash_single (hkey : slot (2 ^ 22) key = 0) (hkey' : slot (2 ^ 21) key = 0)
    (hd : ({ d with epoch_ := 0 } : Data) ≠ Data.zero) : Clash (single key d).table (2 ^ 22) := by
  obtain ⟨hsize, hzero, hempty⟩ := single_spec _ d hkey'
  refine ⟨?_, ?_, 1, by omega, by rw [hsize]; omega, hempty 1 (by omega) (by omega)⟩
  · rw [hzero]
    exact hd
  · rw [hzero, boardKey_stored, hkey]

/-- An entry that is lost. -/
def pawnMoves : Data := Data.of ⟨.pawnDoubleMove, 52, 36, 0⟩ 20 3 .exact

/-- An entry whose number is a multiple of the sizes of all tables. -/
def marked : Data := Data.of Move.null 0 0 .exact

/-- One more entry. -/
def put (s : State) (key : BoardHash) (d : Data) : State :=
  ⟨store s.table key d, (key, d, s.table.epoch) :: s.stores⟩

theorem reach_put {C : State → Action → Prop} (h : (system junk).Reach C s)
    (hC : C s (.store key d)) : (system junk).Reach C (put s key d) := .step h hC rfl

theorem put_size (s : State) : (put s key d).table.size = s.table.size := by
  rw [put, store]
  split
  · rfl
  · rfl

variable {key}

theorem put_entries {i : Nat} (h : slot s.table.size key ≠ i) :
    (put s key d).table.entries i = s.table.entries i := by
  rw [put, store]
  split
  · rfl
  · exact Function.update_of_ne h.symm _ _

/-- The entry of slot zero goes to another slot when the table grows. -/
def several : State := put (put (single 2097152 pawnMoves) 5 marked) 4611686018427387911 pawnMoves

theorem several_spec : several.table.size = 2 ^ 21 ∧
    several.table.entries 0 = stored 2097152 pawnMoves 0 := by
  obtain ⟨hsize, hzero, -⟩ := single_spec 2097152 pawnMoves (by decide)
  have hsize' : (put (single 2097152 pawnMoves) 5 marked).table.size = 2 ^ 21 :=
    (put_size 5 marked _).trans hsize
  refine ⟨(put_size _ pawnMoves _).trans hsize', ?_⟩
  rw [several, put_entries _ (by rw [hsize']; decide), put_entries _ (by rw [hsize]; decide), hzero]

/-- A table that grows keeps every entry, unless the entry of slot zero is to stay
there and empty entries are moved on top of it. -/
theorem grow_keeps_iff (h : (system junk).Reach Untorn s) (hjobs : 0 < jobs)
    (hnew : newEntries maxSize = some newSize) (hlt : s.table.size < newSize) :
    (∀ sched t', resize s.table maxSize false jobs sched = some t' →
      ∀ key, load t' key = load s.table key) ↔ ¬Clash s.table newSize := by
  have htidy := tidy_of_reach h
  obtain ⟨e, -, he, hpow, -⟩ := newEntries_eq hnew
  obtain ⟨e₀, -, hpow₀⟩ := htidy.size
  have hdvd := two_pow_dvd_of_lt hpow₀ hpow hlt
  constructor
  · intro hkeeps hclash
    exact lost_of_clash ⟨junk, [], []⟩ htidy hpow he hdvd hjobs hclash (Or.inr rfl)
      (hkeeps _ _ (resize_grown _ hnew hlt _) _)
  · intro hclash sched t' hr key
    rw [resize_grown _ hnew hlt] at hr
    cases hr
    exact load_grown htidy hpow he hdvd hjobs hclash key

theorem grow_keeps_iff_several : (load several.table 2097152).isValid = true ∧
    ∀ sched t', resize several.table 67108864 false 4 sched = some t' →
      ∀ key, load t' key = load several.table key := by
  obtain ⟨hsize, hzero⟩ := several_spec
  have hfirst : (system fun _ => Entry.cleared).Reach Untorn (single 2097152 pawnMoves) :=
    reach_single _ _ Untorn trivial
  have hreach : (system fun _ => Entry.cleared).Reach Untorn several :=
    reach_put _ _ (reach_put _ _ hfirst trivial) trivial
  have hclash : ¬Clash several.table (2 ^ 22) := by
    intro h
    have hslot := h.2.1
    rw [hzero, boardKey_stored] at hslot
    exact absurd hslot (by decide)
  have hlt : several.table.size < 2 ^ 22 := by
    rw [hsize]
    decide
  constructor
  · have hslot : slot (2 ^ 21) 2097152 = 0 := by decide
    rw [load_eq, hsize, hslot, hzero, boardKey_stored, if_pos rfl]
    decide
  · exact (grow_keeps_iff hreach (by decide) (by decide) hlt).mpr hclash

theorem not_grow_keeps : ¬∀ s, (system fun _ => Entry.cleared).Reachable s →
    ∀ maxSize newSize jobs, 0 < jobs → newEntries maxSize = some newSize → s.table.size < newSize →
      ∀ sched t', resize s.table maxSize false jobs sched = some t' →
        ∀ key, load t' key = load s.table key := by
  intro h
  have hreach := reach_single 1099511627776 pawnMoves (fun _ _ => True) trivial
  have hsize : (single 1099511627776 pawnMoves).table.size = 2 ^ 21 := (single_spec _ _ (by decide)).1
  have htidy := tidy_of_reach (reach_single 1099511627776 pawnMoves Untorn trivial)
  have hlt : (single 1099511627776 pawnMoves).table.size < 2 ^ 22 := by rw [hsize]; omega
  refine lost_of_clash ⟨fun _ => Entry.cleared, [], []⟩ htidy rfl (by omega)
    (two_pow_dvd_of_lt hsize rfl hlt) Nat.one_pos
    (clash_single _ _ (by decide) (by decide) (by decide)) (Or.inl rfl) ?_
  have hnew : newEntries 67108864 = some (2 ^ 22) := by decide
  exact h _ hreach 67108864 (2 ^ 22) 1 Nat.one_pos hnew hlt _ _ (resize_grown _ hnew hlt _) _

end Growth

section Origin

variable {junk : Nat → Entry} {s : State}

/-- Whatever a table returns has been stored under the key, and a table that
shrinks keeps heaviest entries. -/
theorem load_is_stored (h : (system junk).Reach Untorn s) :
    (∀ key, (load s.table key).isValid = true → ∃ d epoch, (key, d, epoch) ∈ s.stores ∧
      load s.table key = { d with epoch_ := epoch }) ∧
    ∀ maxSize jobs sched t', 0 < jobs → resize s.table maxSize false jobs sched = some t' →
      t'.size < s.table.size → ∀ i < t'.size,
        (∃ j < s.table.size, j % t'.size = i ∧ t'.entries i = s.table.entries j) ∧
        ∀ j < s.table.size, j % t'.size = i →
          weight (s.table.entries j).value s.table.epoch ≤
            weight (t'.entries i).value s.table.epoch := by
  have htidy := tidy_of_reach h
  obtain ⟨e, he, hsize⟩ := htidy.size
  constructor
  · intro key hv
    have hlt : slot s.table.size key < s.table.size := by
      rw [hsize, slot_two_pow (by omega)]
      exact Nat.mod_lt _ (Nat.two_pow_pos e)
    rw [load_eq] at hv ⊢
    split at hv
    · rename_i hkey
      rw [if_pos hkey]
      rcases htidy.filed _ hlt with hc | ⟨key', d, epoch, hmem, -, hst⟩
      · rw [hc] at hv
        exact absurd hv (by decide)
      · rw [hst, boardKey_stored] at hkey
        subst hkey
        exact ⟨d, epoch, hmem, by rw [hst]; rfl⟩
    · exact absurd hv (by decide)
  · intro maxSize jobs sched t' hjobs hr hlt i hi
    obtain ⟨newSize, hnew, rfl, -, hcases⟩ := resize_cases hr
    obtain ⟨e', -, -, hpow, -⟩ := newEntries_eq hnew
    rcases hcases with ⟨heq, -⟩ | ⟨hfalse, -⟩ | ⟨hgt, -⟩ | ⟨-, -, htable⟩
    · omega
    · cases hfalse
    · omega
    · rw [htable]
      exact shrink_spec _ _ hjobs hi (two_pow_dvd_of_lt hpow hsize hlt) (by omega)

theorem load_is_stored_single :
    (∀ key, (load (single 5 pawnMoves).table key).isValid = true → ∃ d epoch,
      (key, d, epoch) ∈ (single 5 pawnMoves).stores ∧
      load (single 5 pawnMoves).table key = { d with epoch_ := epoch }) ∧
    ∀ maxSize jobs sched t', 0 < jobs →
      resize (single 5 pawnMoves).table maxSize false jobs sched = some t' →
      t'.size < (single 5 pawnMoves).table.size → ∀ i < t'.size,
        (∃ j < (single 5 pawnMoves).table.size, j % t'.size = i ∧
          t'.entries i = (single 5 pawnMoves).table.entries j) ∧
        ∀ j < (single 5 pawnMoves).table.size, j % t'.size = i →
          weight ((single 5 pawnMoves).table.entries j).value (single 5 pawnMoves).table.epoch ≤
            weight (t'.entries i).value (single 5 pawnMoves).table.epoch :=
  load_is_stored (reach_single _ _ Untorn trivial)

/-- With a worker for each slot the two words of slot zero may come from different
entries. -/
theorem exists_torn {t : Table} {newSize n : Nat} (hsize : t.size = n + 2)
    (h0 : target t newSize 0 = 0) (h1 : target t newSize 1 = 0)
    (hempty : t.entries 1 = Entry.cleared) :
    ∃ sched, grown t newSize (n + 2) sched 0 = ⟨(t.entries 0).value, 0⟩ := by
  have hfirst : growSegment t newSize [0] = [(0, Entry.storeValue (t.entries 0).value),
      (0, Entry.storeKey (t.entries 0).key)] := by
    rw [growSegment_eq, List.flatMap_singleton, h0]
    rfl
  have hsecond : growSegment t newSize [1] =
      [(0, Entry.storeValue Data.zero), (0, Entry.storeKey 0)] := by
    rw [growSegment_eq, List.flatMap_singleton, h1, hempty]
    rfl
  have hrace : Interleaved [growSegment t newSize [0], growSegment t newSize [1]]
      [(0, Entry.storeValue Data.zero), (0, Entry.storeValue (t.entries 0).value),
        (0, Entry.storeKey (t.entries 0).key), (0, Entry.storeKey 0)] := by
    rw [hfirst, hsecond]
    refine .step [_] (.step [] (.step [] (.step [_] (.done ?_))))
    simp
  have hall := (interleaved_iff.mpr ⟨[], rfl⟩ : Interleaved
    ((blocks 1 0 n 2 2).map (growSegment t newSize)) _).append hrace
  have hworkers : (segments 0 t.size (n + 2)).map (growSegment t newSize) =
      [growSegment t newSize [0], growSegment t newSize [1]] ++
        (blocks 1 0 n 2 2).map (growSegment t newSize) := by
    rw [hsize, segments_singles]
    rfl
  rw [← hworkers] at hall
  obtain ⟨order, horder⟩ := interleaved_iff.mp hall
  refine ⟨⟨fun _ => Entry.cleared, [], order⟩, ?_⟩
  rw [grown, horder, writeAll_append]
  simp [writeAll, Entry.storeValue, Entry.storeKey]

theorem not_load_is_stored : ¬∀ s, (system fun _ => Entry.cleared).Reachable s →
    ∀ key, (load s.table key).isValid = true → ∃ d epoch, (key, d, epoch) ∈ s.stores ∧
      load s.table key = { d with epoch_ := epoch } := by
  intro h
  obtain ⟨hsize, hzero, hempty⟩ := single_spec 0 marked (by decide)
  have hone := hempty 1 (by omega) (by omega)
  have h0 : target (single 0 marked).table (2 ^ 22) 0 = 0 := by
    rw [target, hzero, boardKey_stored]
    decide
  have h1 : target (single 0 marked).table (2 ^ 22) 1 = 0 := by
    rw [target, hone, boardKey_cleared]
    decide
  obtain ⟨sched, htorn⟩ := exists_torn (n := 2 ^ 21 - 2) (by omega) h0 h1 hone
  have hnew : newEntries 67108864 = some (2 ^ 22) := by decide
  have hlt : (single 0 marked).table.size < 2 ^ 22 := by omega
  have hreach := reach_resize (reach_single 0 marked (fun _ _ => True) trivial)
    trivial (by omega) (resize_grown (2 ^ 21 - 2 + 2) hnew hlt sched)
  have hslot : slot (2 ^ 22) marked.asUint = 0 := by decide
  have hload : load { (single 0 marked).table with
      entries := grown (single 0 marked).table (2 ^ 22) (2 ^ 21 - 2 + 2) sched
      size := 2 ^ 22 } marked.asUint = marked := by
    rw [load_eq]
    simp only
    rw [hslot, htorn, hzero]
    rfl
  obtain ⟨d, epoch, hmem, -⟩ := h _ hreach marked.asUint (by rw [hload]; decide)
  simp only [single, List.mem_singleton, Prod.mk.injEq] at hmem
  exact absurd hmem.1 (by decide)

end Origin

end SoFCheck.Search.TableKeys
