import SoFCheck.Search.TranspositionTable

namespace SoFCheck.Search.TableResize

open SoFCheck.Util.Parallel SoFCheck.Util.Transition
open SoFCheck.Core.Types SoFCheck.Core.Moves SoFCheck.Search.TableData
open SoFCheck.Search.TranspositionTable

section Words

variable {f : Nat → Nat} {e : Nat → Entry} {is : List Nat} {w : Nat × (Entry → Entry)}

theorem mem_assignAll :
    w ∈ is.flatMap (fun i => assignRelaxed (f i) (e i).value (e i).key) ↔
      ∃ i ∈ is, w = (f i, Entry.storeValue (e i).value) ∨
        w = (f i, Entry.storeKey (e i).key) := by
  simp only [assignRelaxed, List.mem_flatMap, List.mem_cons, List.not_mem_nil, or_false]

theorem writeAll_assignAll (m : Nat → Entry) :
    writeAll m (is.flatMap fun i => assignRelaxed (f i) (e i).value (e i).key) =
      writeAll m (is.map fun i => (f i, fun _ => e i)) := by
  induction is generalizing m with
  | nil => rfl
  | cons i is ih =>
    rw [List.flatMap_cons, writeAll_append, ih, List.map_cons, writeAll_cons]
    simp [assignRelaxed, writeAll, Entry.storeValue, Entry.storeKey]

variable {m : Nat → Entry} {l : List (Nat × (Entry → Entry))} {idx : Nat}

/-- Each word of an entry comes from one of the entries stored there. -/
theorem words_of_stores
    (hl : ∀ w, w ∈ l ↔ w ∈ is.flatMap fun i => assignRelaxed (f i) (e i).value (e i).key)
    (h : ∃ i ∈ is, f i = idx) :
    ∃ i ∈ is, ∃ j ∈ is, f i = idx ∧ f j = idx ∧
      writeAll m l idx = ⟨(e i).value, (e j).key⟩ := by
  obtain ⟨i₀, hi₀, hidx⟩ := h
  have hvalue : ∃ i ∈ is, f i = idx ∧ (writeAll m l idx).value = (e i).value := by
    refine writeAll_of_mem (P := fun x : Entry => ∃ i ∈ is, f i = idx ∧ x.value = (e i).value)
      (w := (f i₀, Entry.storeValue (e i₀).value)) ?_ ?_ hidx
      fun x => ⟨i₀, hi₀, hidx, rfl⟩
    · intro w hw hwi x hx
      obtain ⟨i, hi, rfl | rfl⟩ := mem_assignAll.mp ((hl w).mp hw)
      · exact ⟨i, hi, hwi, rfl⟩
      · exact hx
    · exact (hl _).mpr (mem_assignAll.mpr ⟨i₀, hi₀, Or.inl rfl⟩)
  have hkey : ∃ j ∈ is, f j = idx ∧ (writeAll m l idx).key = (e j).key := by
    refine writeAll_of_mem (P := fun x : Entry => ∃ j ∈ is, f j = idx ∧ x.key = (e j).key)
      (w := (f i₀, Entry.storeKey (e i₀).key)) ?_ ?_ hidx
      fun x => ⟨i₀, hi₀, hidx, rfl⟩
    · intro w hw hwi x hx
      obtain ⟨i, hi, rfl | rfl⟩ := mem_assignAll.mp ((hl w).mp hw)
      · exact hx
      · exact ⟨i, hi, hwi, rfl⟩
    · exact (hl _).mpr (mem_assignAll.mpr ⟨i₀, hi₀, Or.inr rfl⟩)
  obtain ⟨i, hi, hfi, hv⟩ := hvalue
  obtain ⟨j, hj, hfj, hk⟩ := hkey
  refine ⟨i, hi, j, hj, hfi, hfj, ?_⟩
  rw [← hv, ← hk]

theorem no_stores
    (hl : ∀ w, w ∈ l ↔ w ∈ is.flatMap fun i => assignRelaxed (f i) (e i).value (e i).key)
    (h : ∀ i ∈ is, f i ≠ idx) : writeAll m l idx = m idx := by
  refine writeAll_keeps (P := fun x => x = m idx) (fun w hw hwi => ?_) rfl
  obtain ⟨i, hi, rfl | rfl⟩ := mem_assignAll.mp ((hl w).mp hw)
  · exact absurd hwi (h i hi)
  · exact absurd hwi (h i hi)

end Words

section Loops

variable {t : Table} {table : Nat → Entry} {size newSize jobs : Nat} {order : List Nat} {i idx : Nat}

variable (order) in
theorem mem_workers {body : Nat → List (Nat × (Entry → Entry))} (hjobs : 0 < jobs)
    (w : Nat × (Entry → Entry)) :
    w ∈ interleave ((segments 0 size jobs).map fun is => is.flatMap body) order ↔
      w ∈ (List.range' 0 size).flatMap body := by
  have hseg := flatten_segments 0 size hjobs
  rw [Nat.sub_zero] at hseg
  rw [mem_interleave, ← hseg]
  simp only [List.mem_map, List.mem_flatMap, List.mem_flatten]
  constructor
  · rintro ⟨l, ⟨is, his, rfl⟩, hw⟩
    obtain ⟨i, hi, hw⟩ := List.mem_flatMap.mp hw
    exact ⟨i, ⟨is, his, hi⟩, hw⟩
  · rintro ⟨i, ⟨is, his, hi⟩, hw⟩
    exact ⟨_, ⟨is, his, rfl⟩, List.mem_flatMap.mpr ⟨i, hi, hw⟩⟩

theorem doClear_eq (hjobs : 0 < jobs) (hi : i < size) :
    doClear table size jobs order i = Entry.cleared := by
  have hmem : ∃ j ∈ List.range' 0 size, j = i := ⟨i, by simpa using hi, rfl⟩
  obtain ⟨_, -, _, -, -, -, heq⟩ := words_of_stores (m := table) (f := id)
    (e := fun _ => Entry.cleared) (mem_workers order hjobs) hmem
  exact heq

/-- Where an entry goes when the table grows. -/
def target (t : Table) (newSize i : Nat) : Nat := slot newSize (t.entries i).boardKey

theorem growSegment_eq (is : List Nat) : growSegment t newSize is =
    is.flatMap fun i => assignRelaxed (target t newSize i) (t.entries i).value (t.entries i).key := rfl

variable (table order) in
theorem grow_words (hjobs : 0 < jobs) (h : ∃ i < t.size, target t newSize i = idx) :
    ∃ i < t.size, ∃ j < t.size, target t newSize i = idx ∧ target t newSize j = idx ∧
      writeAll table (interleave ((segments 0 t.size jobs).map (growSegment t newSize)) order) idx =
        ⟨(t.entries i).value, (t.entries j).key⟩ := by
  have hmem : ∃ i ∈ List.range' 0 t.size, target t newSize i = idx := by
    obtain ⟨i, hi, hidx⟩ := h
    exact ⟨i, by simpa using hi, hidx⟩
  obtain ⟨i, hi, j, hj, hfi, hfj, heq⟩ := words_of_stores (m := table) (f := target t newSize)
    (e := t.entries) (mem_workers order hjobs) hmem
  exact ⟨i, by simpa using hi, j, by simpa using hj, hfi, hfj, heq⟩

theorem grow_untouched (hjobs : 0 < jobs) (h : ∀ i < t.size, target t newSize i ≠ idx) :
    writeAll table (interleave ((segments 0 t.size jobs).map (growSegment t newSize)) order) idx =
      table idx :=
  no_stores (f := target t newSize) (e := t.entries) (mem_workers order hjobs)
    fun i hi => h i (by simpa using hi)

theorem grow_sequential (hjobs : 0 < jobs) (hseq : jobs = 1 ∨ order = []) :
    writeAll table (interleave ((segments 0 t.size jobs).map (growSegment t newSize)) order) =
      writeAll table ((List.range' 0 t.size).map fun i => (target t newSize i, fun _ => t.entries i)) := by
  have hflat : interleave ((segments 0 t.size jobs).map (growSegment t newSize)) order =
      ((segments 0 t.size jobs).map (growSegment t newSize)).flatten := by
    cases hseq with
    | inl h =>
      subst h
      exact interleave_eq_flatten (by simpa using length_segments_one 0 t.size) order
    | inr h =>
      subst h
      rfl
  have hall : ((segments 0 t.size jobs).map (growSegment t newSize)).flatten =
      growSegment t newSize (List.range' 0 t.size) := by
    have hseg := flatten_segments 0 t.size hjobs
    rw [Nat.sub_zero] at hseg
    rw [← hseg, ← List.flatMap_def, ← List.flatMap_id, growSegment_eq, List.flatMap_assoc]
    rfl
  rw [hflat, hall]
  exact writeAll_assignAll table

end Loops

section Shrinking

theorem filter_flatMap_self {g : Nat → List (Nat × (Entry → Entry))} (hg : ∀ j, ∀ w ∈ g j, w.1 = j)
    {is : List Nat} (hnodup : is.Nodup) {i : Nat} :
    (is.flatMap g).filter (fun w => decide (w.1 = i)) = if i ∈ is then g i else [] := by
  have hself : ∀ j, (g j).filter (fun w => decide (w.1 = i)) = if j = i then g j else [] := by
    intro j
    split
    · rename_i h
      exact List.filter_eq_self.mpr fun w hw => by simp [hg j w hw, h]
    · rename_i h
      exact List.filter_eq_nil_iff.mpr fun w hw => by simp [hg j w hw, h]
  induction is with
  | nil => rfl
  | cons j is ih =>
    obtain ⟨hj, hnodup⟩ := List.nodup_cons.mp hnodup
    rw [List.flatMap_cons, List.filter_append, ih hnodup, hself]
    by_cases h : j = i
    · subst h
      simp [hj]
    · simp [h, Ne.symm h]

variable {t : Table} {table : Nat → Entry} {newSize jobs : Nat} {order : List Nat} {i : Nat}

/-- Keep the old entry if it weighs more. -/
def heavier (t : Table) (oldEntry newEntry : Entry) : Entry :=
  if weight oldEntry.value t.epoch > weight newEntry.value t.epoch then oldEntry else newEntry

theorem filter_shrinkSegment {is : List Nat} (hnodup : is.Nodup) :
    (shrinkSegment t newSize is).filter (fun w => decide (w.1 = i)) =
      if i ∈ is then assignRelaxed i (t.entries i).value (t.entries i).key ++
        (offsets newSize t.size).map fun offset => (i, heavier t (t.entries (i + offset)))
      else [] := by
  have hcopy : ∀ j, ∀ w ∈ assignRelaxed j (t.entries j).value (t.entries j).key, w.1 = j := by
    intro j w hw
    simp only [assignRelaxed, List.mem_cons, List.not_mem_nil, or_false] at hw
    rcases hw with rfl | rfl <;> rfl
  have hfold : ∀ offset j, ∀ w ∈ [((j, heavier t (t.entries (j + offset))) : Nat × (Entry → Entry))],
      w.1 = j := by
    intro offset j w hw
    rw [List.mem_singleton.mp hw]
  have hsegment : shrinkSegment t newSize is =
      (is.flatMap fun j => assignRelaxed j (t.entries j).value (t.entries j).key) ++
        (offsets newSize t.size).flatMap fun offset =>
          is.flatMap fun j => [(j, heavier t (t.entries (j + offset)))] := by
    simp only [← List.map_eq_flatMap]
    rfl
  rw [hsegment, List.filter_append, filter_flatMap_self hcopy hnodup, List.filter_flatMap]
  simp only [filter_flatMap_self (hfold _) hnodup]
  split
  · rw [← List.map_eq_flatMap]
  · simp

/-- What a slot of the smaller table ends up with. -/
theorem shrink_eq (hjobs : 0 < jobs) (hi : i < newSize) :
    writeAll table (interleave ((segments 0 newSize jobs).map (shrinkSegment t newSize)) order) i =
      (offsets newSize t.size).foldl (fun x offset => heavier t (t.entries (i + offset)) x)
        (t.entries i) := by
  have hseg := flatten_segments 0 newSize hjobs
  rw [Nat.sub_zero] at hseg
  have hnodup : (segments 0 newSize jobs).flatten.Nodup := by
    rw [hseg]
    exact List.nodup_range'
  obtain ⟨hsegs, hdisjoint⟩ := List.nodup_flatten.mp hnodup
  have hmem : i ∈ (segments 0 newSize jobs).flatten := by
    rw [hseg]
    simpa using hi
  obtain ⟨is, his, hiis⟩ := List.mem_flatten.mp hmem
  obtain ⟨xs, ys, hsplit⟩ := List.append_of_mem his
  rw [hsplit] at hsegs hdisjoint ⊢
  have hothers : ∀ js ∈ xs ++ ys, i ∉ js ∧ js.Nodup := by
    intro js hjs
    rw [List.pairwise_append, List.pairwise_cons] at hdisjoint
    obtain ⟨-, ⟨hys, -⟩, hxs⟩ := hdisjoint
    cases List.mem_append.mp hjs with
    | inl h =>
      exact ⟨fun hi => hxs js h is List.mem_cons_self hi hiis,
        hsegs js (List.mem_append_left _ h)⟩
    | inr h =>
      exact ⟨fun hi => hys js h hiis hi,
        hsegs js (List.mem_append_right _ (List.mem_cons_of_mem _ h))⟩
  rw [writeAll_apply, List.map_append, List.map_cons, filter_interleave, filter_shrinkSegment,
    if_pos hiis, List.foldl_append, List.foldl_map]
  · rfl
  · exact hsegs is (List.mem_append_right _ List.mem_cons_self)
  · intro x hx
    rw [← List.map_append] at hx
    obtain ⟨js, hjs, rfl⟩ := List.mem_map.mp hx
    obtain ⟨hni, hn⟩ := hothers js hjs
    rw [filter_shrinkSegment hn, if_neg hni]

theorem heavier_cases (t : Table) (x y : Entry) :
    (heavier t x y = x ∨ heavier t x y = y) ∧
      weight x.value t.epoch ≤ weight (heavier t x y).value t.epoch ∧
      weight y.value t.epoch ≤ weight (heavier t x y).value t.epoch := by
  unfold heavier
  split
  · rename_i h
    exact ⟨Or.inl rfl, le_rfl, le_of_lt h⟩
  · rename_i h
    exact ⟨Or.inr rfl, not_lt.mp h, le_rfl⟩

theorem foldl_heavier (t : Table) (l : List Entry) (x : Entry) :
    (l.foldl (fun x y => heavier t y x) x = x ∨ l.foldl (fun x y => heavier t y x) x ∈ l) ∧
      weight x.value t.epoch ≤ weight (l.foldl (fun x y => heavier t y x) x).value t.epoch ∧
      ∀ y ∈ l, weight y.value t.epoch ≤
        weight (l.foldl (fun x y => heavier t y x) x).value t.epoch := by
  induction l generalizing x with
  | nil => exact ⟨Or.inl rfl, le_rfl, fun _ h => absurd h List.not_mem_nil⟩
  | cons y l ih =>
    obtain ⟨hmem, hle, hall⟩ := ih (heavier t y x)
    obtain ⟨hcases, hy, hx⟩ := heavier_cases t y x
    rw [List.foldl_cons]
    refine ⟨?_, hx.trans hle, fun z hz => ?_⟩
    · cases hmem with
      | inl h =>
        rw [h]
        exact hcases.symm.imp_right fun h => by rw [h]; exact List.mem_cons_self
      | inr h => exact Or.inr (List.mem_cons_of_mem _ h)
    · cases List.mem_cons.mp hz with
      | inl h => exact h ▸ hy.trans hle
      | inr h => exact hall z h

theorem mem_offsets {size offset : Nat} (hpos : 0 < newSize) :
    offset ∈ offsets newSize size ↔ newSize ∣ offset ∧ 0 < offset ∧ offset < size := by
  rw [offsets, List.mem_range']
  constructor
  · rintro ⟨q, hq, rfl⟩
    have hle : newSize * (q + 1) ≤ size - 1 :=
      (Nat.mul_le_mul_left newSize hq).trans (Nat.mul_div_le (size - 1) newSize)
    rw [Nat.mul_succ] at hle
    exact ⟨⟨q + 1, by rw [Nat.mul_succ, Nat.add_comm]⟩, by omega, by omega⟩
  · rintro ⟨⟨q, rfl⟩, h0, hlt⟩
    obtain ⟨q, rfl⟩ : ∃ p, q = p + 1 := by
      refine ⟨q - 1, ?_⟩
      have : q ≠ 0 := by
        rintro rfl
        simp at h0
      omega
    refine ⟨q, ?_, by rw [Nat.mul_succ, Nat.add_comm]⟩
    rw [Nat.lt_iff_add_one_le, Nat.le_div_iff_mul_le hpos, Nat.mul_comm]
    omega

variable (table order) in
/-- Each slot keeps a heaviest one of the entries that compete for it. -/
theorem shrink_spec (hjobs : 0 < jobs) (hi : i < newSize) (hdvd : newSize ∣ t.size)
    (hpos : 0 < t.size) :
    (∃ j < t.size, j % newSize = i ∧
      writeAll table (interleave ((segments 0 newSize jobs).map (shrinkSegment t newSize)) order) i =
        t.entries j) ∧
    ∀ j < t.size, j % newSize = i → weight (t.entries j).value t.epoch ≤
      weight (writeAll table
        (interleave ((segments 0 newSize jobs).map (shrinkSegment t newSize)) order) i).value
        t.epoch := by
  have hfold := foldl_heavier t ((offsets newSize t.size).map fun offset => t.entries (i + offset))
    (t.entries i)
  have hle := Nat.le_of_dvd hpos hdvd
  rw [List.foldl_map] at hfold
  rw [shrink_eq hjobs hi]
  obtain ⟨hmem, hself, hall⟩ := hfold
  constructor
  · cases hmem with
    | inl h => exact ⟨i, by omega, Nat.mod_eq_of_lt hi, h⟩
    | inr h =>
      obtain ⟨offset, ho, he⟩ := List.mem_map.mp h
      obtain ⟨⟨q, rfl⟩, -, hlt⟩ := (mem_offsets (by omega)).mp ho
      obtain ⟨p, hp⟩ := hdvd
      refine ⟨i + newSize * q, ?_, by rw [Nat.add_mul_mod_self_left, Nat.mod_eq_of_lt hi], he.symm⟩
      have hqp : q + 1 ≤ p := by
        rw [hp] at hlt
        exact Nat.lt_of_mul_lt_mul_left hlt
      have := Nat.mul_le_mul_left newSize hqp
      rw [Nat.mul_succ, ← hp] at this
      omega
  · intro j hj hji
    by_cases hlt : j < newSize
    · rw [Nat.mod_eq_of_lt hlt] at hji
      rwa [hji]
    · refine hall _ (List.mem_map.mpr ⟨newSize * (j / newSize), (mem_offsets (by omega)).mpr
        ⟨⟨_, rfl⟩, ?_, ?_⟩, ?_⟩)
      · exact Nat.mul_pos (by omega) (Nat.div_pos (by omega) (by omega))
      · exact (Nat.mul_div_le j newSize).trans_lt hj
      · rw [← hji, Nat.mod_add_div]

end Shrinking

end SoFCheck.Search.TableResize
