import SoFCheck.Search.TranspositionTable

namespace SoFCheck.Search.TableRaces

open SoFCheck.Util.Transition
open SoFCheck.Core.Types SoFCheck.Search.TableData SoFCheck.Search.TranspositionTable

section Model

/-- A pair of a key and an entry, the latter already marked with the epoch. -/
abbrev Pair := BoardHash × Data

/-- Where a thread is between the accesses to the two words of an entry. -/
inductive Phase where
  | idle
  /-- In `store`, before the weight of the old entry is read. -/
  | weighing (p : Pair)
  | writingValue (p : Pair)
  | writingKey (p : Pair)
  | readingValue (key : BoardHash)
  | readingKey (key : BoardHash) (entryData : Data)

inductive Action where
  | store (thread : Nat) (key : BoardHash) (value : Data)
  | load (thread : Nat) (key : BoardHash)
  /-- The next access of a thread that is at work. -/
  | access (thread : Nat)

/-- The table and the threads, and for the record: the pairs that were stored, those
whose words were written to each slot, and what the loads have returned. -/
structure State where
  table : Table
  threads : Nat → Phase
  stores : List Pair
  valueWrites : Nat → List Pair
  keyWrites : Nat → List Pair
  results : List Pair

namespace State

def goto (s : State) (thread : Nat) (phase : Phase) : State :=
  { s with threads := Function.update s.threads thread phase }

def modifyEntry (s : State) (i : Nat) (f : Entry → Entry) : State :=
  { s with table := { s.table with
      entries := Function.update s.table.entries i (f (s.table.entries i)) } }

def logValue (s : State) (i : Nat) (p : Pair) : State :=
  { s with valueWrites := Function.update s.valueWrites i (p :: s.valueWrites i) }

def logKey (s : State) (i : Nat) (p : Pair) : State :=
  { s with keyWrites := Function.update s.keyWrites i (p :: s.keyWrites i) }

def finish (s : State) (p : Pair) : State := { s with results := p :: s.results }

end State

/-- One access of a thread to the shared memory. -/
def access (s : State) (thread : Nat) : Option State :=
  match s.threads thread with
  | .idle => none
  | .weighing p =>
    let entry := s.table.entries (slot s.table.size p.1)
    if weight entry.value s.table.epoch > weight p.2 s.table.epoch then some (s.goto thread .idle)
    else some (s.goto thread (.writingValue p))
  | .writingValue p =>
    let i := slot s.table.size p.1
    some (((s.modifyEntry i (Entry.storeValue p.2)).logValue i p).goto thread (.writingKey p))
  | .writingKey p =>
    let i := slot s.table.size p.1
    some (((s.modifyEntry i (Entry.storeKey (p.1 ^^^ p.2.asUint))).logKey i p).goto thread .idle)
  | .readingValue key =>
    let entryData := (s.table.entries (slot s.table.size key)).value
    some (s.goto thread (.readingKey key entryData))
  | .readingKey key entryData =>
    let entryKey := (s.table.entries (slot s.table.size key)).key ^^^ entryData.asUint
    some ((s.finish (key, if entryKey ≠ key then Data.zero else entryData)).goto thread .idle)

def step (s : State) : Action → Option State
  | .store thread key value =>
    match s.threads thread with
    | .idle =>
      let p := (key, { value with epoch_ := s.table.epoch })
      some ({ s with stores := p :: s.stores }.goto thread (.weighing p))
    | _ => none
  | .load thread key =>
    match s.threads thread with
    | .idle => some (s.goto thread (.readingValue key))
    | _ => none
  | .access thread => access s thread

/-- Any number of threads on a cleared table. -/
def system (size : Nat) (epoch : BitVec 8) : System State Action where
  init := ⟨⟨size, fun _ => Entry.cleared, epoch⟩, fun _ => .idle, [], fun _ => [], fun _ => [], []⟩
  step := step

end Model

section Invariant

variable {s s' : State} {thread : Nat} {a : Action}

/-- The value word of a slot comes from a store or from the initial clear. -/
def ValueFrom (s : State) (i : Nat) (d : Data) : Prop :=
  d = Data.zero ∨ ∃ key, (key, d) ∈ s.valueWrites i

def KeyFrom (s : State) (i : Nat) (word : BoardHash) : Prop :=
  ∃ p : Pair, (p ∈ s.keyWrites i ∨ p = (0, Data.zero)) ∧ word = p.1 ^^^ p.2.asUint

/-- What a thread has in hand. -/
def Justified (s : State) : Phase → Prop
  | .idle | .readingValue _ => True
  | .weighing p | .writingValue p | .writingKey p => p ∈ s.stores
  | .readingKey key entryData => ValueFrom s (slot s.table.size key) entryData

/-- A result that is not valid, or one for which each word has been written. -/
def Explained (s : State) (p : Pair) : Prop :=
  p.2.isValid = true → ∃ (key₁ : BoardHash) (q : Pair),
    (key₁, p.2) ∈ s.valueWrites (slot s.table.size p.1) ∧
    (q ∈ s.keyWrites (slot s.table.size p.1) ∨ q = (0, Data.zero)) ∧
    p.1 = q.1 ^^^ q.2.asUint ^^^ p.2.asUint

structure Inv (s : State) : Prop where
  value : ∀ i, ValueFrom s i (s.table.entries i).value
  key : ∀ i, KeyFrom s i (s.table.entries i).key
  valueWrites : ∀ i, ∀ p ∈ s.valueWrites i, p ∈ s.stores ∧ slot s.table.size p.1 = i
  keyWrites : ∀ i, ∀ p ∈ s.keyWrites i, p ∈ s.stores ∧ slot s.table.size p.1 = i
  threads : ∀ thread, Justified s (s.threads thread)
  results : ∀ p ∈ s.results, Explained s p

/-- The records of `s'` are those of `s` and maybe more. -/
structure Extends (s s' : State) : Prop where
  size : s'.table.size = s.table.size
  stores : ∀ p ∈ s.stores, p ∈ s'.stores
  valueWrites : ∀ i, ∀ p ∈ s.valueWrites i, p ∈ s'.valueWrites i
  keyWrites : ∀ i, ∀ p ∈ s.keyWrites i, p ∈ s'.keyWrites i

theorem ValueFrom.extends {i : Nat} {d : Data} (h : ValueFrom s i d) (hs : Extends s s') :
    ValueFrom s' i d := by
  cases h with
  | inl h => exact Or.inl h
  | inr h =>
    obtain ⟨key, hmem⟩ := h
    exact Or.inr ⟨key, hs.valueWrites i _ hmem⟩

theorem KeyFrom.extends {i : Nat} {word : BoardHash} (h : KeyFrom s i word) (hs : Extends s s') :
    KeyFrom s' i word := by
  obtain ⟨p, hp, hw⟩ := h
  exact ⟨p, hp.imp_left (hs.keyWrites i p), hw⟩

theorem Justified.extends {phase : Phase} (h : Justified s phase) (hs : Extends s s') :
    Justified s' phase := by
  cases phase with
  | idle | readingValue key => trivial
  | weighing p | writingValue p | writingKey p => exact hs.stores p h
  | readingKey key entryData =>
    rw [Justified, hs.size]
    exact ValueFrom.extends h hs

theorem Explained.extends {p : Pair} (h : Explained s p) (hs : Extends s s') : Explained s' p := by
  intro hv
  obtain ⟨key₁, q, hvalue, hkey, heq⟩ := h hv
  refine ⟨key₁, q, ?_, ?_, heq⟩
  · rw [hs.size]
    exact hs.valueWrites _ _ hvalue
  · rw [hs.size]
    exact hkey.imp_left (hs.keyWrites _ q)

theorem Inv.goto (h : Inv s) {phase : Phase} (hp : Justified s phase) :
    Inv (s.goto thread phase) where
  value := h.value
  key := h.key
  valueWrites := h.valueWrites
  keyWrites := h.keyWrites
  threads t := by
    by_cases ht : t = thread
    · subst ht
      simp only [State.goto, Function.update_self]
      cases phase <;> exact hp
    · simp only [State.goto, Function.update_of_ne ht]
      have := h.threads t
      cases hphase : s.threads t <;> rw [hphase] at this <;> exact this
  results := h.results

theorem Inv.begin (h : Inv s) (p : Pair) : Inv { s with stores := p :: s.stores } := by
  have hs : Extends s { s with stores := p :: s.stores } :=
    ⟨rfl, fun _ hq => List.mem_cons_of_mem _ hq, fun _ _ hq => hq, fun _ _ hq => hq⟩
  refine ⟨h.value, h.key, fun i q hq => ?_, fun i q hq => ?_, fun t => (h.threads t).extends hs,
    h.results⟩
  · exact (h.valueWrites i q hq).imp_left (hs.stores q)
  · exact (h.keyWrites i q hq).imp_left (hs.stores q)

theorem mem_update {i j : Nat} {p q : Pair} {l : Nat → List Pair} :
    q ∈ Function.update l i (p :: l i) j ↔ q ∈ l j ∨ j = i ∧ q = p := by
  by_cases h : j = i
  · subst h
    simp [or_comm]
  · simp [h]

theorem Inv.writeValue (h : Inv s) {p : Pair} (hp : p ∈ s.stores) :
    Inv ((s.modifyEntry (slot s.table.size p.1) (Entry.storeValue p.2)).logValue
      (slot s.table.size p.1) p) := by
  have hs : Extends s ((s.modifyEntry (slot s.table.size p.1) (Entry.storeValue p.2)).logValue
      (slot s.table.size p.1) p) :=
    ⟨rfl, fun _ hq => hq, fun i q hq => mem_update.mpr (Or.inl hq), fun _ _ hq => hq⟩
  refine ⟨fun i => ?_, fun i => ?_, fun i q hq => ?_, h.keyWrites,
    fun t => (h.threads t).extends hs, fun q hq => (h.results q hq).extends hs⟩
  · by_cases hi : i = slot s.table.size p.1
    · subst hi
      simp only [State.logValue, State.modifyEntry, Function.update_self]
      exact Or.inr ⟨p.1, mem_update.mpr (Or.inr ⟨rfl, rfl⟩)⟩
    · simp only [State.logValue, State.modifyEntry, Function.update_of_ne hi]
      exact (h.value i).extends hs
  · have hkey : (Function.update s.table.entries (slot s.table.size p.1)
        (Entry.storeValue p.2 (s.table.entries (slot s.table.size p.1))) i).key =
        (s.table.entries i).key := by
      by_cases hi : i = slot s.table.size p.1
      · subst hi
        rw [Function.update_self]
        rfl
      · rw [Function.update_of_ne hi]
    simp only [State.logValue, State.modifyEntry, hkey]
    exact (h.key i).extends hs
  · cases mem_update.mp hq with
    | inl hold => exact h.valueWrites i q hold
    | inr hnew =>
      obtain ⟨rfl, rfl⟩ := hnew
      exact ⟨hp, rfl⟩

theorem Inv.writeKey (h : Inv s) {p : Pair} (hp : p ∈ s.stores) :
    Inv ((s.modifyEntry (slot s.table.size p.1) (Entry.storeKey (p.1 ^^^ p.2.asUint))).logKey
      (slot s.table.size p.1) p) := by
  have hs : Extends s ((s.modifyEntry (slot s.table.size p.1)
      (Entry.storeKey (p.1 ^^^ p.2.asUint))).logKey (slot s.table.size p.1) p) :=
    ⟨rfl, fun _ hq => hq, fun _ _ hq => hq, fun i q hq => mem_update.mpr (Or.inl hq)⟩
  refine ⟨fun i => ?_, fun i => ?_, h.valueWrites, fun i q hq => ?_,
    fun t => (h.threads t).extends hs, fun q hq => (h.results q hq).extends hs⟩
  · have hvalue : (Function.update s.table.entries (slot s.table.size p.1)
        (Entry.storeKey (p.1 ^^^ p.2.asUint) (s.table.entries (slot s.table.size p.1))) i).value =
        (s.table.entries i).value := by
      by_cases hi : i = slot s.table.size p.1
      · subst hi
        rw [Function.update_self]
        rfl
      · rw [Function.update_of_ne hi]
    simp only [State.logKey, State.modifyEntry, hvalue]
    exact (h.value i).extends hs
  · by_cases hi : i = slot s.table.size p.1
    · subst hi
      simp only [State.logKey, State.modifyEntry, Function.update_self]
      exact ⟨p, Or.inl (mem_update.mpr (Or.inr ⟨rfl, rfl⟩)), rfl⟩
    · simp only [State.logKey, State.modifyEntry, Function.update_of_ne hi]
      exact (h.key i).extends hs
  · cases mem_update.mp hq with
    | inl hold => exact h.keyWrites i q hold
    | inr hnew =>
      obtain ⟨rfl, rfl⟩ := hnew
      exact ⟨hp, rfl⟩

theorem Inv.finish (h : Inv s) {p : Pair} (hp : Explained s p) : Inv (s.finish p) := by
  refine ⟨h.value, h.key, h.valueWrites, h.keyWrites, h.threads, fun q hq => ?_⟩
  cases List.mem_cons.mp hq with
  | inl he => exact he ▸ hp
  | inr hold => exact h.results q hold

theorem explained_load (h : Inv s) {key : BoardHash} {entryData : Data}
    (hd : ValueFrom s (slot s.table.size key) entryData) :
    Explained s (key, if (s.table.entries (slot s.table.size key)).key ^^^ entryData.asUint ≠ key
      then Data.zero else entryData) := by
  have hinvalid : ¬Data.zero.isValid = true := by decide
  intro hv
  split at hv
  · exact absurd hv hinvalid
  · rename_i heq
    rw [if_neg heq]
    obtain ⟨q, hq, hword⟩ := h.key (slot s.table.size key)
    cases hd with
    | inl hzero =>
      rw [hzero] at hv
      exact absurd hv hinvalid
    | inr hmem =>
      obtain ⟨key₁, hmem⟩ := hmem
      refine ⟨key₁, q, hmem, hq, ?_⟩
      rw [← hword]
      exact (not_not.mp heq).symm

theorem inv_access (h : Inv s) (hs : access s thread = some s') : Inv s' := by
  have hj := h.threads thread
  rw [access] at hs
  cases hphase : s.threads thread with
  | idle => simp [hphase] at hs
  | weighing p =>
    rw [hphase] at hj hs
    simp only at hs
    split at hs
    · cases hs
      exact h.goto trivial
    · cases hs
      exact h.goto hj
  | writingValue p =>
    rw [hphase] at hj hs
    cases hs
    exact (h.writeValue hj).goto hj
  | writingKey p =>
    rw [hphase] at hj hs
    cases hs
    exact (h.writeKey hj).goto trivial
  | readingValue key =>
    rw [hphase] at hs
    cases hs
    exact h.goto (h.value _)
  | readingKey key entryData =>
    rw [hphase] at hj hs
    cases hs
    exact (h.finish (explained_load h hj)).goto trivial

theorem inv_step (h : Inv s) (hs : step s a = some s') : Inv s' := by
  cases a with
  | store thread key value =>
    rw [step] at hs
    split at hs
    · cases hs
      exact (h.begin _).goto List.mem_cons_self
    · cases hs
  | load thread key =>
    rw [step] at hs
    split at hs
    · cases hs
      exact h.goto trivial
    · cases hs
  | access thread => exact inv_access h hs

theorem inv_init (size : Nat) (epoch : BitVec 8) : Inv (system size epoch).init where
  value _ := Or.inl rfl
  key _ := ⟨(0, Data.zero), Or.inr rfl, (by decide : (0 : BoardHash) = 0 ^^^ Data.zero.asUint)⟩
  valueWrites _ _ h := absurd h List.not_mem_nil
  keyWrites _ _ h := absurd h List.not_mem_nil
  threads _ := trivial
  results _ h := absurd h List.not_mem_nil

end Invariant

section Results

variable {size : Nat} {epoch : BitVec 8} {s : State}

theorem size_of_reachable (h : (system size epoch).Reachable s) : s.table.size = size := by
  refine h.invariant (I := fun s => s.table.size = size) rfl fun s a s' hsize _ hs => ?_
  cases a with
  | store thread key value =>
    simp only [system, step] at hs
    split at hs
    · cases hs
      exact hsize
    · cases hs
  | load thread key =>
    simp only [system, step] at hs
    split at hs
    · cases hs
      exact hsize
    · cases hs
  | access thread =>
    simp only [system, step, access] at hs
    split at hs
    all_goals first
      | (cases hs; exact hsize)
      | cases hs
      | (split at hs <;> (cases hs; exact hsize))

/-- Whatever a load returns as valid is made of words that were written to its slot;
it is a stored pair if one of the two stores was under its key. -/
theorem load_explained (h : (system size epoch).Reachable s) :
    ∀ key d, (key, d) ∈ s.results → d.isValid = true →
      ∃ (key₁ key₂ : BoardHash) (d₂ : Data),
        ((key₁, d) ∈ s.valueWrites (slot size key) ∧ (key₁, d) ∈ s.stores ∧
          slot size key₁ = slot size key) ∧
        ((key₂, d₂) ∈ s.keyWrites (slot size key) ∧ (key₂, d₂) ∈ s.stores ∧
            slot size key₂ = slot size key ∨ key₂ = 0 ∧ d₂ = Data.zero) ∧
        key = key₂ ^^^ d₂.asUint ^^^ d.asUint ∧
        (key = key₁ ∨ key = key₂ → (key, d) ∈ s.stores) := by
  have hinv : Inv s := h.invariant (inv_init size epoch) fun _ _ _ hi _ hs => inv_step hi hs
  have hsize := size_of_reachable h
  intro key d hmem hv
  obtain ⟨key₁, ⟨key₂, d₂⟩, hvalue, hkey, heq⟩ := hinv.results _ hmem hv
  simp only [hsize] at hvalue hkey heq
  have hstored := hinv.valueWrites _ _ hvalue
  rw [hsize] at hstored
  have hstored₂ : (key₂, d₂) ∈ s.keyWrites (slot size key) →
      (key₂, d₂) ∈ s.stores ∧ slot size key₂ = slot size key := by
    intro hw
    have := hinv.keyWrites _ _ hw
    rwa [hsize] at this
  refine ⟨key₁, key₂, d₂, ⟨hvalue, hstored⟩, ?_, heq, fun hor => ?_⟩
  · refine hkey.imp (fun hw => ⟨hw, hstored₂ hw⟩) fun hw => ?_
    exact ⟨congrArg Prod.fst hw, congrArg Prod.snd hw⟩
  · cases hor with
    | inl h₁ => exact h₁ ▸ hstored.1
    | inr h₂ =>
      subst h₂
      have hxor : d₂.asUint = d.asUint := by
        rw [BitVec.xor_assoc] at heq
        have hzero : d₂.asUint ^^^ d.asUint = 0 := by
          have := congrArg (key ^^^ ·) heq
          simpa [← BitVec.xor_assoc] using this.symm
        exact BitVec.xor_eq_zero_iff.mp hzero
      have hdata := Data.asUint_injective hxor
      subst hdata
      cases hkey with
      | inl hw => exact (hstored₂ hw).1
      | inr hw =>
        have hzero : d₂ = Data.zero := congrArg Prod.snd hw
        rw [hzero] at hv
        exact absurd hv (by decide)

/-- One thread stores an entry and another one finds it. -/
def exchange : List Action :=
  [.store 0 5 (Data.of ⟨.simple, 1, 2, 0⟩ 0 1 .exact), .access 0, .access 0, .access 0, .load 1 5,
    .access 1, .access 1]

theorem load_explained_exchange : ∃ s, (system 65536 0).run (system 65536 0).init exchange = some s ∧
    (5, Data.of ⟨.simple, 1, 2, 0⟩ 0 1 .exact) ∈ s.results ∧
    ∀ key d, (key, d) ∈ s.results → d.isValid = true →
      ∃ (key₁ key₂ : BoardHash) (d₂ : Data),
        ((key₁, d) ∈ s.valueWrites (slot 65536 key) ∧ (key₁, d) ∈ s.stores ∧
          slot 65536 key₁ = slot 65536 key) ∧
        ((key₂, d₂) ∈ s.keyWrites (slot 65536 key) ∧ (key₂, d₂) ∈ s.stores ∧
            slot 65536 key₂ = slot 65536 key ∨ key₂ = 0 ∧ d₂ = Data.zero) ∧
        key = key₂ ^^^ d₂.asUint ^^^ d.asUint ∧
        (key = key₁ ∨ key = key₂ → (key, d) ∈ s.stores) :=
  ⟨_, rfl, List.mem_singleton.mpr (by decide),
    load_explained (System.reachable_of_run (S := system 65536 0) exchange .init rfl)⟩

end Results

end SoFCheck.Search.TableRaces
