import SoFCheck.Search.TableKeys

namespace SoFCheck.Search.TableEpochs

open SoFCheck.Util.Parallel SoFCheck.Util.Transition
open SoFCheck.Core.Types SoFCheck.Core.Moves SoFCheck.Search.TableData
open SoFCheck.Search.TranspositionTable SoFCheck.Search.TableResize SoFCheck.Search.TableKeys

section Model

def isCurrentEpoch (t : Table) (data : Data) : Bool := data.epoch_ == t.epoch

/-- A table, with what has been written to it since the epoch last advanced. -/
structure Aged where
  base : State
  recent : List (BoardHash × Data)

/-- The entry that is already there outweighs the new one. -/
def Rejects (t : Table) (key : BoardHash) (value : Data) : Prop :=
  weight (t.entries (slot t.size key)).value t.epoch > weight { value with epoch_ := t.epoch } t.epoch

instance (t : Table) (key : BoardHash) (value : Data) : Decidable (Rejects t key value) :=
  inferInstanceAs (Decidable (_ > _))

def recentAfter (s : Aged) : Action → List (BoardHash × Data)
  | .store key value =>
    if Rejects s.base.table key value then s.recent
    else (key, { value with epoch_ := s.base.table.epoch }) :: s.recent
  | .growEpoch amount => if amount = 0 then s.recent else []
  | .resetEpoch => []
  | .clear .. | .resize .. => s.recent

def step (s : Aged) (a : Action) : Option Aged :=
  (TranspositionTable.step s.base a).map fun base => ⟨base, recentAfter s a⟩

def system (junk : Nat → Entry) : System Aged Action := ⟨⟨⟨create junk, []⟩, []⟩, step⟩

/-- A valid entry of the current epoch has been written in this epoch. -/
def Current (s : Aged) : Prop :=
  ∀ key, (load s.base.table key).isValid = true →
    isCurrentEpoch s.base.table (load s.base.table key) = true →
      (key, load s.base.table key) ∈ s.recent

/-- No valid entry of the table is from `epoch`. -/
def Unused (t : Table) (epoch : BitVec 8) : Prop :=
  ∀ i < t.size, (t.entries i).value.isValid = true → (t.entries i).value.epoch_ ≠ epoch

/-- An epoch does not begin with a number that an old entry still has. -/
def Advances (s : Aged) : Action → Prop
  | .growEpoch amount => amount ≠ 0 → Unused s.base.table (s.base.table.epoch + amount)
  | .resetEpoch => Unused s.base.table (s.base.table.epoch + 19)
  | _ => True

end Model

section Moving

variable {s : State} {t t' : Table} {maxSize : BitVec 64} {clearTable : Bool} {jobs : Nat}
  {sched : Schedule} {i : Nat}

theorem value_of_resize (hsize : ∃ e ≤ 58, t.size = 2 ^ e) (hjobs : 0 < jobs)
    (hr : resize t maxSize clearTable jobs sched = some t') (hi : i < t'.size) :
    (t'.entries i).value = Data.zero ∨ ∃ j < t.size, (t'.entries i).value = (t.entries j).value := by
  obtain ⟨newSize, hnew, hsize', -, hcases⟩ := resize_cases hr
  obtain ⟨e, -, he, hpow, -⟩ := newEntries_eq hnew
  obtain ⟨e₀, -, hpow₀⟩ := hsize
  rw [hsize'] at hi
  rcases hcases with ⟨heq, -, rfl⟩ | ⟨-, table, htable⟩ | ⟨hlt, -, htable⟩ | ⟨hlt, -, htable⟩
  · exact Or.inr ⟨i, heq ▸ hi, rfl⟩
  · exact Or.inl (by rw [htable, doClear_eq hjobs hi]; rfl)
  · rw [htable, grown]
    by_cases hex : ∃ j < t.size, target t newSize j = i
    · obtain ⟨j, hj, j', hj', hji, hji', heq⟩ := grow_words
        (doClear sched.junk newSize jobs sched.clearing) sched.moving hjobs hex
      exact Or.inr ⟨j, hj, by rw [heq]⟩
    · refine Or.inl ?_
      rw [grow_untouched hjobs fun j hj hji => hex ⟨j, hj, hji⟩, doClear_eq hjobs hi]
      rfl
  · obtain ⟨⟨j, hj, -, hentry⟩, -⟩ := shrink_spec sched.junk sched.moving hjobs hi
      (two_pow_dvd_of_lt hpow hpow₀ hlt) (by omega)
    exact Or.inr ⟨j, hj, by rw [htable, hentry]⟩

theorem entry_of_resize (h : Tidy s) (hjobs : 0 < jobs)
    (huntorn : Untorn s (.resize maxSize clearTable jobs sched))
    (hr : resize s.table maxSize clearTable jobs sched = some t') (hi : i < t'.size) :
    t'.entries i = Entry.cleared ∨ ∃ j < s.table.size, t'.entries i = s.table.entries j := by
  obtain ⟨newSize, hnew, hsize', -, hcases⟩ := resize_cases hr
  obtain ⟨e, -, he, hpow, -⟩ := newEntries_eq hnew
  obtain ⟨e₀, -, hpow₀⟩ := h.size
  rw [hsize'] at hi
  rcases hcases with ⟨heq, -, rfl⟩ | ⟨-, table, htable⟩ | ⟨hlt, rfl, htable⟩ | ⟨hlt, -, htable⟩
  · exact Or.inr ⟨i, heq ▸ hi, rfl⟩
  · exact Or.inl (by rw [htable, doClear_eq hjobs hi])
  · rw [htable]
    refine (grown_cases sched h hpow he (two_pow_dvd_of_lt hpow₀ hpow hlt) hjobs hi
      ((huntorn rfl).imp_right fun hc => hc newSize hnew hlt)).imp_right fun hex => ?_
    obtain ⟨j, hj, -, heq⟩ := hex
    exact ⟨j, hj, heq⟩
  · obtain ⟨⟨j, hj, -, hentry⟩, -⟩ := shrink_spec sched.junk sched.moving hjobs hi
      (two_pow_dvd_of_lt hpow hpow₀ hlt) (by omega)
    exact Or.inr ⟨j, hj, by rw [htable, hentry]⟩

end Moving

section Invariant

variable {junk : Nat → Entry} {s s' : Aged} {a : Action}

/-- The entries of the current epoch have a property that depends on what has been
written in it. -/
def Dated (D : List (BoardHash × Data) → Entry → Prop) (s : Aged) : Prop :=
  ∀ i < s.base.table.size, (s.base.table.entries i).value.isValid = true →
    (s.base.table.entries i).value.epoch_ = s.base.table.epoch →
      D s.recent (s.base.table.entries i)

def ValueIn (recent : List (BoardHash × Data)) (e : Entry) : Prop := ∃ key, (key, e.value) ∈ recent

def EntryIn (recent : List (BoardHash × Data)) (e : Entry) : Prop := (e.boardKey, e.value) ∈ recent

theorem size_step {s s' : State} (h : ∃ e ≤ 58, s.table.size = 2 ^ e)
    (hs : TranspositionTable.step s a = some s') : ∃ e ≤ 58, s'.table.size = 2 ^ e := by
  cases a with
  | store key value =>
    cases hs
    simp only [store]
    split <;> exact h
  | clear jobs order =>
    simp only [TranspositionTable.step, Option.ite_none_left_eq_some] at hs
    obtain ⟨-, hs⟩ := hs
    cases hs
    exact h
  | resize maxSize clearTable jobs sched =>
    simp only [TranspositionTable.step, Option.ite_none_left_eq_some, Option.map_eq_some_iff] at hs
    obtain ⟨-, t', hr, rfl⟩ := hs
    obtain ⟨newSize, hnew, hsize, -⟩ := resize_cases hr
    obtain ⟨e, -, he, hpow, -⟩ := newEntries_eq hnew
    exact ⟨e, he, hsize.trans hpow⟩
  | growEpoch | resetEpoch =>
    cases hs
    exact h

/-- A step keeps the entries dated, if a resize does. -/
theorem dated_step {D : List (BoardHash × Data) → Entry → Prop}
    (hmono : ∀ recent x e, D recent e → D (x :: recent) e)
    (hstored : ∀ recent key d epoch,
      D ((key, { d with epoch_ := epoch }) :: recent) (stored key d epoch))
    (h : Dated D s) (hadv : Advances s a) (hs : step s a = some s')
    (hresize : ∀ maxSize clearTable jobs sched t', a = .resize maxSize clearTable jobs sched →
      0 < jobs → resize s.base.table maxSize clearTable jobs sched = some t' → t'.epoch = s.base.table.epoch ∧
        ∀ i < t'.size, (t'.entries i).value = Data.zero ∨ ∃ j < s.base.table.size,
          (t'.entries i).value = (s.base.table.entries j).value ∧
            (D s.recent (s.base.table.entries j) → D s.recent (t'.entries i))) :
    Dated D s' := by
  obtain ⟨base, hbase, rfl⟩ := Option.map_eq_some_iff.mp hs
  cases a with
  | store key value =>
    cases hbase
    by_cases hrej : Rejects s.base.table key value
    · have hstore : store s.base.table key value = s.base.table := if_pos hrej
      rw [recentAfter, hstore, if_pos hrej]
      exact h
    · have hstore : store s.base.table key value = { s.base.table with
          entries := Function.update s.base.table.entries (slot s.base.table.size key)
            (stored key value s.base.table.epoch) } := if_neg hrej
      rw [recentAfter, hstore, if_neg hrej]
      intro i hi hv he
      simp only at hi hv he ⊢
      by_cases hslot : i = slot s.base.table.size key
      · subst hslot
        rw [Function.update_self]
        exact hstored s.recent key value s.base.table.epoch
      · rw [Function.update_of_ne hslot] at hv he ⊢
        exact hmono _ _ _ (h i hi hv he)
  | clear jobs order =>
    simp only [TranspositionTable.step, Option.ite_none_left_eq_some] at hbase
    obtain ⟨hjobs, hbase⟩ := hbase
    cases hbase
    intro i hi hv
    rw [show (clear s.base.table jobs order).entries i = Entry.cleared from
      doClear_eq (by omega) hi] at hv
    exact absurd hv (by decide)
  | resize maxSize clearTable jobs sched =>
    simp only [TranspositionTable.step, Option.ite_none_left_eq_some, Option.map_eq_some_iff] at hbase
    obtain ⟨hjobs, t', hr, rfl⟩ := hbase
    obtain ⟨hepoch, hcases⟩ := hresize _ _ _ _ _ rfl (by omega) hr
    intro i hi hv he
    cases hcases i hi with
    | inl hzero =>
      rw [hzero] at hv
      exact absurd hv (by decide)
    | inr hex =>
      obtain ⟨j, hj, hvalue, hD⟩ := hex
      rw [hvalue] at hv he
      exact hD (h j hj hv (he.trans hepoch))
  | growEpoch amount =>
    cases hbase
    intro i hi hv he
    simp only [recentAfter]
    by_cases hzero : amount = 0
    · subst hzero
      rw [if_pos rfl]
      exact h i hi hv (he.trans (BitVec.add_zero _))
    · exact absurd he (hadv hzero i hi hv)
  | resetEpoch =>
    cases hbase
    intro i hi hv he
    exact absurd he (hadv i hi hv)

theorem dated_create (D : List (BoardHash × Data) → Entry → Prop) :
    Dated D ⟨⟨create junk, []⟩, []⟩ := by
  intro i hi hv
  rw [show (create junk).entries i = Entry.cleared from create_entries (create_size ▸ hi)] at hv
  exact absurd hv (by decide)

theorem valueIn_of_reach (h : (system junk).Reach Advances s) :
    (∃ e ≤ 58, s.base.table.size = 2 ^ e) ∧ Dated ValueIn s := by
  refine h.invariant (I := fun s => (∃ e ≤ 58, s.base.table.size = 2 ^ e) ∧ Dated ValueIn s)
    ⟨⟨21, by omega, create_size⟩, dated_create _⟩ ?_
  intro s a s' hinv hadv hs
  obtain ⟨hsize, hdated⟩ := hinv
  refine ⟨?_, dated_step ?_ ?_ hdated hadv hs ?_⟩
  · obtain ⟨base, hbase, rfl⟩ := Option.map_eq_some_iff.mp hs
    exact size_step hsize hbase
  · rintro recent x e ⟨key, hkey⟩
    exact ⟨key, List.mem_cons_of_mem _ hkey⟩
  · exact fun recent key d epoch => ⟨key, List.mem_cons_self⟩
  · intro maxSize clearTable jobs sched t' _ hjobs hr
    obtain ⟨_, -, -, hepoch, -⟩ := resize_cases hr
    refine ⟨hepoch, fun i hi => (value_of_resize hsize hjobs hr hi).imp_right fun hex => ?_⟩
    obtain ⟨j, hj, hvalue⟩ := hex
    exact ⟨j, hj, hvalue, fun hD => by rwa [ValueIn, hvalue]⟩

theorem entryIn_of_reach (h : (system junk).Reach (fun s a => Advances s a ∧ Untorn s.base a) s) :
    Tidy s.base ∧ Dated EntryIn s := by
  refine h.invariant (I := fun s => Tidy s.base ∧ Dated EntryIn s) ⟨tidy_create, dated_create _⟩ ?_
  intro s a s' hinv hadv hs
  obtain ⟨htidy, hdated⟩ := hinv
  obtain ⟨hadv, huntorn⟩ := hadv
  refine ⟨?_, dated_step ?_ ?_ hdated hadv hs ?_⟩
  · obtain ⟨base, hbase, rfl⟩ := Option.map_eq_some_iff.mp hs
    exact tidy_step htidy huntorn hbase
  · exact fun recent x e he => List.mem_cons_of_mem _ he
  · intro recent key d epoch
    rw [EntryIn, boardKey_stored]
    exact List.mem_cons_self
  · rintro maxSize clearTable jobs sched t' rfl hjobs hr
    obtain ⟨_, -, -, hepoch, -⟩ := resize_cases hr
    refine ⟨hepoch, fun i hi => ?_⟩
    cases entry_of_resize htidy hjobs huntorn hr hi with
    | inl hc => exact Or.inl (by rw [hc]; rfl)
    | inr hex =>
      obtain ⟨j, hj, heq⟩ := hex
      exact Or.inr ⟨j, hj, by rw [heq], fun hD => by rwa [heq]⟩

end Invariant

section Epochs

variable {junk : Nat → Entry} {s s' : Aged} {a : Action}

theorem slot_lt {t : Table} (hsize : ∃ e ≤ 58, t.size = 2 ^ e) (key : BoardHash) :
    slot t.size key < t.size := by
  obtain ⟨e, he, hsize⟩ := hsize
  rw [hsize, slot_two_pow (by omega)]
  exact Nat.mod_lt _ (Nat.two_pow_pos e)

theorem entry_of_load {t : Table} {key : BoardHash} (h : (load t key).isValid = true) :
    (t.entries (slot t.size key)).boardKey = key ∧
      load t key = (t.entries (slot t.size key)).value := by
  rw [load_eq] at h ⊢
  split at h
  · rename_i hkey
    exact ⟨hkey, if_pos hkey⟩
  · exact absurd h (by decide)

/-- Unless an epoch begins with a number that is still in use, a valid entry of the
current epoch has been written in it; and under its key, if no entry has been torn. -/
theorem current_of_reach (h : (system junk).Reach Advances s) :
    (∀ key, (load s.base.table key).isValid = true →
      isCurrentEpoch s.base.table (load s.base.table key) = true →
        ∃ key', (key', load s.base.table key) ∈ s.recent) ∧
    ((system junk).Reach (fun s a => Advances s a ∧ Untorn s.base a) s → Current s) := by
  constructor
  · intro key hv he
    obtain ⟨hsize, hdated⟩ := valueIn_of_reach h
    obtain ⟨-, hload⟩ := entry_of_load hv
    rw [hload] at hv he ⊢
    exact hdated _ (slot_lt hsize key) hv (eq_of_beq he)
  · intro huntorn key hv he
    obtain ⟨htidy, hdated⟩ := entryIn_of_reach huntorn
    obtain ⟨hkey, hload⟩ := entry_of_load hv
    rw [hload] at hv he ⊢
    have hentry := hdated _ (slot_lt htidy.size key) hv (eq_of_beq he)
    rwa [EntryIn, hkey] at hentry

theorem advances_of_current (h : Tidy s.base) (hs : step s a = some s') (hc : Current s')
    (hnew : recentAfter s a = []) : Advances s a := by
  obtain ⟨base, hbase, rfl⟩ := Option.map_eq_some_iff.mp hs
  have hunused : ∀ epoch, base.table = { s.base.table with epoch := epoch } →
      Unused s.base.table epoch := by
    intro epoch htable i hi hv he
    obtain hc' | ⟨key, d, e, -, hkey, hentry⟩ := h.filed i hi
    · rw [hc'] at hv
      exact absurd hv (by decide)
    · obtain ⟨n, hn, hsize⟩ := h.size
      have hslot : slot s.base.table.size key = i := by
        rw [hsize, slot_two_pow (by omega), ← hsize, hkey]
      have hload : load base.table key = (s.base.table.entries i).value := by
        rw [htable, load_eq, hslot, hentry, boardKey_stored, if_pos rfl]
      have hmem := hc key (by rw [hload]; exact hv)
        (by rw [hload, htable]; exact beq_iff_eq.mpr he)
      rw [hnew] at hmem
      cases hmem
  cases a with
  | growEpoch amount =>
    cases hbase
    exact fun _ => hunused _ rfl
  | resetEpoch =>
    cases hbase
    exact hunused _ rfl
  | store | clear | resize => exact trivial

theorem load_growEpoch (t : Table) (amount : BitVec 8) (key : BoardHash) :
    load (growEpoch t amount) key = load t key := rfl

theorem reach_growEpoch {C : Aged → Action → Prop} (amount : BitVec 8)
    (h : (system junk).Reach C s) (hC : C s (.growEpoch amount)) (hne : amount ≠ 0) :
    (system junk).Reach C ⟨⟨growEpoch s.base.table amount, s.base.stores⟩, []⟩ := by
  refine h.step hC ?_
  change some (⟨_, if amount = 0 then _ else _⟩ : Aged) = _
  rw [if_neg hne]

/-- A table with one entry, of the current epoch. -/
def stamped : Aged := ⟨single 1099511627776 pawnMoves, [(1099511627776, pawnMoves)]⟩

theorem reach_stamped (C : Aged → Action → Prop)
    (hC : C ⟨fresh, []⟩ (.store 1099511627776 pawnMoves)) :
    (system fun _ => Entry.cleared).Reach C stamped := by
  refine .step (s := ⟨fresh, []⟩) .init hC ?_
  have hsize : fresh.table.size = 2 ^ 21 := by rw [fresh, create_size]
  have hrej : ¬Rejects fresh.table 1099511627776 pawnMoves := by
    have hslot : slot (2 ^ 21) 1099511627776 = 0 := by decide
    rw [Rejects, hsize, hslot, show fresh.table.entries 0 = Entry.cleared from
      create_entries (by omega), weight_cleared]
    exact not_lt.mpr (le_weight _ _)
  have hstep : (system fun _ => Entry.cleared).step ⟨fresh, []⟩ (.store 1099511627776 pawnMoves) =
      some ⟨single 1099511627776 pawnMoves,
        recentAfter ⟨fresh, []⟩ (.store 1099511627776 pawnMoves)⟩ := rfl
  have hepoch : fresh.table.epoch = 0 := rfl
  rw [hstep, recentAfter, if_neg hrej, hepoch]
  rfl

theorem current_of_reach_stamped :
    (∀ key, (load stamped.base.table key).isValid = true →
      isCurrentEpoch stamped.base.table (load stamped.base.table key) = true →
        ∃ key', (key', load stamped.base.table key) ∈ stamped.recent) ∧
    ((system fun _ => Entry.cleared).Reach (fun s a => Advances s a ∧ Untorn s.base a) stamped →
      Current stamped) :=
  current_of_reach (reach_stamped Advances trivial)

/-- After 256 single steps of the epoch, or two as here, an old entry looks current. -/
theorem not_current : ¬∀ s, (system fun _ => Entry.cleared).Reachable s → Current s := by
  intro h
  have hlater := reach_growEpoch 1 (reach_growEpoch 255 (reach_stamped (fun _ _ => True) trivial)
    trivial (by decide)) trivial (by decide)
  obtain ⟨hsize, hzero, -⟩ := single_spec 1099511627776 pawnMoves (by decide)
  have hslot : slot (2 ^ 21) 1099511627776 = 0 := by decide
  have hload : load (growEpoch (growEpoch stamped.base.table 255) 1) 1099511627776 = pawnMoves := by
    have hbase : stamped.base = single 1099511627776 pawnMoves := rfl
    rw [load_growEpoch, load_growEpoch, hbase, load_eq, hsize, hslot, hzero, boardKey_stored, if_pos rfl]
    rfl
  have hepoch : stamped.base.table.epoch = 0 := by
    have hempty : fresh.table.entries (slot fresh.table.size 1099511627776) = Entry.cleared := by
      rw [show fresh.table.size = 2 ^ 21 from by rw [fresh, create_size], hslot]
      exact create_entries (by omega)
    rw [stamped, single, store_empty pawnMoves hempty]
    rfl
  have hmem := h _ hlater 1099511627776 (by rw [hload]; decide)
    (by rw [hload, isCurrentEpoch, growEpoch, growEpoch, hepoch]; decide)
  cases hmem

end Epochs

end SoFCheck.Search.TableEpochs
