import SoFCheck.Search.Tables
import SoFCheck.Util.Refinement

namespace SoFCheck.Search.RepetitionSet

open SoFCheck.Core.Types SoFCheck.Core.Moves SoFCheck.Search.Tables SoFCheck.Util.Refinement

/-- What can be done with a repetition table. -/
inductive Op where
  | insert (board : BoardHash)
  | has (board : BoardHash)
  | erase (board : BoardHash)

namespace Op

def perform : Op → RepetitionTable → Option (Option Bool × RepetitionTable)
  | insert board, t => (t.insert board).map fun r => (some r.1, r.2)
  | has board, t => some (some (t.has board), t)
  | erase board, t => some (none, t.erase board)

/-- The same for a set of keys. -/
def spec : Op → Finset BoardHash → Option Bool × Finset BoardHash
  | insert board, keys => (some (decide (board ∉ keys)), Insert.insert board keys)
  | has board, keys => (some (decide (board ∈ keys)), keys)
  | erase board, keys => (none, keys.erase board)

/-- Zero marks a free slot, and only what is present may be erased. -/
def Fits : Op → Finset BoardHash → Prop
  | insert board, _ => board ≠ 0
  | has board, _ => board ≠ 0
  | erase board, keys => board ≠ 0 ∧ board ∈ keys

instance : (op : Op) → (keys : Finset BoardHash) → Decidable (op.Fits keys)
  | insert board, _ => inferInstanceAs (Decidable (board ≠ 0))
  | has board, _ => inferInstanceAs (Decidable (board ≠ 0))
  | erase board, keys => inferInstanceAs (Decidable (board ≠ 0 ∧ board ∈ keys))

end Op

/-- The table holds the keys of a set, each of them in one slot. -/
def Represents (t : RepetitionTable) (keys : Finset BoardHash) : Prop :=
  ∃ e ≤ 62, t.Sound e ∧ ∀ k, k ≠ 0 → (t.Holds k ↔ k ∈ keys)

theorem represents_empty : Represents RepetitionTable.empty ∅ := by
  refine ⟨5, by omega, .empty, fun k hk => ?_⟩
  rw [iff_false_right (Finset.notMem_empty k)]
  rintro ⟨i, -, hi⟩
  exact hk hi.symm

theorem Represents.has {t : RepetitionTable} {keys : Finset BoardHash} {k : BoardHash}
    (h : Represents t keys) (hk : k ≠ 0) : t.has k = decide (k ∈ keys) := by
  obtain ⟨e, he, hs, hkeys⟩ := h
  rw [Bool.eq_iff_iff, decide_eq_true_iff, hs.has_iff he hk, hkeys k hk]

theorem Represents.insert {t : RepetitionTable} {keys : Finset BoardHash} {k : BoardHash}
    (h : Represents t keys) (hk : k ≠ 0) :
    ∃ t', t.insert k = some (decide (k ∉ keys), t') ∧ Represents t' (Insert.insert k keys) := by
  have hhas := h.has hk
  obtain ⟨e, he, hs, hkeys⟩ := h
  obtain ⟨t', e', ht', hs', he', hkeys'⟩ := RepetitionTable.insert_spec hs he k
  refine ⟨t', ?_, e', he', hs', fun k' hk' => ?_⟩
  · rw [ht', hhas, decide_not]
  · rw [hkeys' k' hk', hkeys k' hk', Finset.mem_insert]

theorem perform_refines (op : Op) (t : RepetitionTable) (keys : Finset BoardHash)
    (h : Represents t keys) (hop : op.Fits keys) :
    ∃ t', op.perform t = some ((op.spec keys).1, t') ∧ Represents t' (op.spec keys).2 := by
  cases op with
  | insert board =>
    obtain ⟨t', ht', h'⟩ := h.insert hop
    exact ⟨t', by rw [Op.perform, ht']; rfl, h'⟩
  | has board => exact ⟨t, by rw [Op.perform, h.has hop, Op.spec], h⟩
  | erase board =>
    obtain ⟨e, he, hs, hkeys⟩ := h
    obtain ⟨hs', hkeys'⟩ := hs.erase he board
    refine ⟨t.erase board, rfl, e, he, hs', fun k hk => ?_⟩
    rw [hkeys' k hk, hkeys k hk, Op.spec, Finset.mem_erase]

/-- A repetition table answers as a set does, whatever is done with it, and never stores
a key twice. -/
theorem refines_set (ops : List Op) (h : Allowed Op.spec Op.Fits ops ∅) :
    ∃ t, runAll Op.perform ops RepetitionTable.empty = some ((specAll Op.spec ops ∅).1, t) ∧
      (∀ k, k ≠ 0 → (t.Holds k ↔ k ∈ (specAll Op.spec ops ∅).2)) ∧
      ∀ i < t.bucketCount * bucketSize, ∀ j < t.bucketCount * bucketSize, t.tab i ≠ 0 →
        t.tab i = t.tab j → i = j := by
  obtain ⟨t, ht, e, he, hs, hkeys⟩ := refines perform_refines ops represents_empty h
  exact ⟨t, ht, hkeys, hs.distinct⟩

/-- Five keys of one bucket make the table grow. -/
def crowding : List Op :=
  [.insert 4, .insert 132, .insert 260, .insert 388, .insert 516, .insert 4, .erase 132, .has 132,
    .has 516]

theorem refines_set_crowding :
    ∃ t, runAll Op.perform crowding RepetitionTable.empty =
        some ((specAll Op.spec crowding ∅).1, t) ∧
      (∀ k, k ≠ 0 → (t.Holds k ↔ k ∈ (specAll Op.spec crowding ∅).2)) ∧
      ∀ i < t.bucketCount * bucketSize, ∀ j < t.bucketCount * bucketSize, t.tab i ≠ 0 →
        t.tab i = t.tab j → i = j :=
  refines_set crowding (by decide)

example : (specAll Op.spec crowding ∅).1 = [some true, some true, some true, some true, some true,
    some false, none, some false, some true] := by decide

end SoFCheck.Search.RepetitionSet
