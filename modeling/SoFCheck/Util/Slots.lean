import Mathlib

namespace SoFCheck.Util.Slots

/-- Parts that each own a slice of a shared vector: the size of the slice, how a part is
filled from the vector, how it is written into the vector, and the places it names. The
operations fail when they leave the vector. -/
structure Slot (P W : Type*) where
  count : P → Nat
  apply : P → List W → Option P
  extract : P → List W → Option (List W)
  positions : P → List Nat

/-- The laws of the parts that stand at an offset under a label; `read` is what they keep. -/
structure Lawful {P W L : Type*} (slot : Slot P W) (Stands : L → Nat → P → Prop)
    (read : P → List W) : Prop where
  length_read : ∀ {l : L} {p : P} {offset : Nat}, Stands l offset p →
    (read p).length = slot.count p
  apply_slice : ∀ {l : L} {p : P} {before values : List W} (after : List W),
    Stands l before.length p → values.length = slot.count p →
      ∃ q, slot.apply p (before ++ values ++ after) = some q ∧ Stands l before.length q ∧
        read q = values
  apply_read : ∀ {l : L} {p : P} {before : List W} (after : List W), Stands l before.length p →
    slot.apply p (before ++ read p ++ after) = some p
  extract_slice : ∀ {l : L} {p : P} {before values : List W} (after : List W),
    Stands l before.length p → values.length = slot.count p →
      slot.extract p (before ++ values ++ after) = some (before ++ read p ++ after)
  positions_eq : ∀ {l : L} {p : P} {offset : Nat}, Stands l offset p →
    slot.positions p = List.range' offset (slot.count p)

variable {P W L : Type*} {slot : Slot P W} {Stands : L → Nat → P → Prop} {read : P → List W}

section Entries

/-- Assignment to an entry of a vector. -/
def write (weights : List W) (idx : Nat) (value : W) : Option (List W) :=
  if idx < weights.length then some (weights.set idx value) else none

theorem write_append (before after : List W) (old value : W) :
    write (before ++ old :: after) before.length value = some (before ++ value :: after) := by
  have hlt : before.length < (before ++ old :: after).length := by simp
  rw [write, if_pos hlt, List.set_append_right before.length value (Nat.le_refl _), Nat.sub_self,
    List.set_cons_zero]

theorem mapM_read_eq (before values after : List W) :
    (List.range values.length).mapM (fun idx => (before ++ values ++ after)[idx + before.length]?)
      = some values := by
  induction values generalizing before with
  | nil => rfl
  | cons value values ih =>
    have hhead : (before ++ value :: values ++ after)[0 + before.length]? = some value := by
      simp
    have htail : ((List.range values.length).map Nat.succ).mapM
        (fun idx => (before ++ value :: values ++ after)[idx + before.length]?) = some values := by
      rw [List.mapM_map]
      have hstep := ih (before ++ [value])
      simp only [List.append_assoc, List.singleton_append, List.length_append,
        List.length_singleton] at hstep
      rw [← hstep]
      apply congrArg (fun f => List.mapM f (List.range values.length))
      funext idx
      rw [List.append_assoc, List.cons_append, Nat.add_comm before.length 1, ← Nat.add_assoc]
      rfl
    rw [List.length_cons, List.range_succ_eq_map, List.mapM_cons, hhead, htail]
    rfl

theorem foldlM_write_eq (offset start : Nat) (before values old after : List W)
    (hstart : before.length = start + offset) (hlen : old.length = values.length) :
    (values.zipIdx start).foldlM (fun weights entry => write weights (entry.2 + offset) entry.1)
      (before ++ old ++ after) = some (before ++ values ++ after) := by
  induction values generalizing before old start with
  | nil =>
    rw [List.length_eq_zero_iff.1 hlen]
    rfl
  | cons value values ih =>
    obtain ⟨first, old, rfl⟩ : ∃ first rest, old = first :: rest :=
      List.exists_cons_of_length_eq_add_one hlen
    have hnext := ih (start + 1) (before ++ [value]) old
      (by rw [List.length_append, hstart, List.length_singleton]; omega) (Nat.succ.inj hlen)
    rw [List.zipIdx_cons, List.foldlM_cons, List.append_assoc, List.cons_append, ← hstart,
      write_append]
    simpa using hnext

end Entries

section Lines

/-- Parts visited one after another. -/
def Slot.list (slot : Slot P W) : Slot (List P) W where
  count parts := (parts.map slot.count).sum
  apply parts weights := parts.mapM fun part => slot.apply part weights
  extract parts weights := parts.foldlM (fun weights part => slot.extract part weights) weights
  positions parts := parts.flatMap slot.positions

/-- The parts stand one behind another, each under its label. -/
inductive InLine (slot : Slot P W) (Stands : L → Nat → P → Prop) : List L → Nat → List P → Prop
  | nil (offset : Nat) : InLine slot Stands [] offset []
  | cons {l : L} {labels : List L} {offset : Nat} {p : P} {parts : List P}
      (head : Stands l offset p)
      (tail : InLine slot Stands labels (offset + slot.count p) parts) :
      InLine slot Stands (l :: labels) offset (p :: parts)

theorem InLine.length_eq {labels : List L} {offset : Nat} {parts : List P}
    (h : InLine slot Stands labels offset parts) : parts.length = labels.length := by
  induction h with
  | nil => rfl
  | cons head tail ih => exact congrArg (· + 1) ih

theorem list_count_cons (p : P) (parts : List P) :
    slot.list.count (p :: parts) = slot.count p + slot.list.count parts := rfl

theorem list_apply_cons {p q : P} {parts filled : List P} {weights : List W}
    (hp : slot.apply p weights = some q) (hparts : slot.list.apply parts weights = some filled) :
    slot.list.apply (p :: parts) weights = some (q :: filled) := by
  change List.mapM (fun part => slot.apply part weights) parts = some filled at hparts
  change List.mapM (fun part => slot.apply part weights) (p :: parts) = some (q :: filled)
  rw [List.mapM_cons, hp, hparts]
  rfl

theorem list_extract_cons {p : P} {weights next : List W} (parts : List P)
    (hp : slot.extract p weights = some next) :
    slot.list.extract (p :: parts) weights = slot.list.extract parts next := by
  change List.foldlM (fun weights part => slot.extract part weights) weights (p :: parts) =
    List.foldlM (fun weights part => slot.extract part weights) next parts
  rw [List.foldlM_cons, hp]
  rfl

theorem list_positions_cons (p : P) (parts : List P) :
    slot.list.positions (p :: parts) = slot.positions p ++ slot.list.positions parts :=
  List.flatMap_cons

theorem exists_split {p : P} {parts : List P} {values : List W}
    (hlen : values.length = slot.list.count (p :: parts)) :
    ∃ own rest, values = own ++ rest ∧ own.length = slot.count p ∧
      rest.length = slot.list.count parts := by
  rw [list_count_cons] at hlen
  refine ⟨values.take (slot.count p), values.drop (slot.count p),
    (List.take_append_drop _ _).symm, List.length_take_of_le (by omega), ?_⟩
  rw [List.length_drop]
  omega

variable (law : Lawful slot Stands read)
include law

theorem Lawful.length_flatMap {labels : List L} {offset : Nat} {parts : List P}
    (h : InLine slot Stands labels offset parts) :
    (parts.flatMap read).length = slot.list.count parts := by
  induction h with
  | nil => rfl
  | cons head tail ih =>
    rw [List.flatMap_cons, List.length_append, law.length_read head, ih, list_count_cons]

theorem Lawful.list_apply_slice {labels : List L} {parts : List P} {before values : List W}
    (after : List W) (h : InLine slot Stands labels before.length parts)
    (hlen : values.length = slot.list.count parts) :
    ∃ filled, slot.list.apply parts (before ++ values ++ after) = some filled ∧
      InLine slot Stands labels before.length filled ∧ filled.flatMap read = values := by
  generalize hoffset : before.length = offset at h
  induction h generalizing before values with
  | nil offset => exact ⟨[], rfl, InLine.nil offset, (List.length_eq_zero_iff.1 hlen).symm⟩
  | cons head tail ih =>
    subst hoffset
    obtain ⟨own, rest, rfl, hown, hrest⟩ := exists_split hlen
    obtain ⟨q, hq, hstands, hread⟩ := law.apply_slice (rest ++ after) head hown
    have hcount : slot.count q = own.length := by rw [← law.length_read hstands, hread]
    obtain ⟨filled, hfilled, hline, hvalues⟩ := @ih (before ++ own) rest hrest
      (by rw [List.length_append, hown])
    rw [← List.append_assoc] at hq
    rw [← List.append_assoc]
    refine ⟨q :: filled, list_apply_cons hq hfilled, InLine.cons hstands ?_, ?_⟩
    · rw [hcount, hown]
      exact hline
    · rw [List.flatMap_cons, hread, hvalues]

theorem Lawful.list_apply_read {labels : List L} {parts : List P} {before : List W}
    (after : List W) (h : InLine slot Stands labels before.length parts) :
    slot.list.apply parts (before ++ parts.flatMap read ++ after) = some parts := by
  generalize hoffset : before.length = offset at h
  induction h generalizing before with
  | nil => rfl
  | @cons l labels offset p parts head tail ih =>
    subst hoffset
    have hp := law.apply_read (parts.flatMap read ++ after) head
    have hparts := @ih (before ++ read p)
      (by rw [List.length_append, law.length_read head])
    rw [← List.append_assoc] at hp
    rw [List.flatMap_cons, ← List.append_assoc]
    exact list_apply_cons hp hparts

theorem Lawful.list_extract_slice {labels : List L} {parts : List P} {before values : List W}
    (after : List W) (h : InLine slot Stands labels before.length parts)
    (hlen : values.length = slot.list.count parts) :
    slot.list.extract parts (before ++ values ++ after) =
      some (before ++ parts.flatMap read ++ after) := by
  generalize hoffset : before.length = offset at h
  induction h generalizing before values with
  | nil =>
    rw [List.length_eq_zero_iff.1 hlen]
    rfl
  | @cons l labels offset p parts head tail ih =>
    subst hoffset
    obtain ⟨own, rest, rfl, hown, hrest⟩ := exists_split hlen
    have hp := law.extract_slice (rest ++ after) head hown
    rw [← List.append_assoc, ← List.append_assoc] at hp
    rw [← List.append_assoc, list_extract_cons parts hp, List.flatMap_cons, ← List.append_assoc]
    exact ih hrest (by rw [List.length_append, law.length_read head])

theorem Lawful.list_positions_eq {labels : List L} {offset : Nat} {parts : List P}
    (h : InLine slot Stands labels offset parts) :
    slot.list.positions parts = List.range' offset (slot.list.count parts) := by
  induction h with
  | nil => rfl
  | cons head tail ih =>
    rw [list_positions_cons, law.positions_eq head, ih, list_count_cons, List.range'_append_1]

theorem Lawful.list : Lawful slot.list (InLine slot Stands) (fun parts => parts.flatMap read) where
  length_read := law.length_flatMap
  apply_slice := law.list_apply_slice
  apply_read := law.list_apply_read
  extract_slice := law.list_extract_slice
  positions_eq := law.list_positions_eq

end Lines

section Whole

variable {l : L} {p : P} (law : Lawful slot Stands read) (h : Stands l 0 p)
include law h

theorem Lawful.extract_apply {values blank : List W} (hlen : values.length = slot.count p)
    (hblank : blank.length = slot.count p) :
    ∃ q, slot.apply p values = some q ∧ Stands l 0 q ∧ slot.count q = slot.count p ∧
      slot.extract q blank = some values := by
  obtain ⟨q, hq, hstands, hread⟩ := @Lawful.apply_slice P W L slot Stands read law l p [] values [] h hlen
  have hcount : slot.count q = slot.count p := by
    rw [← law.length_read hstands, hread, hlen]
  have hout := @Lawful.extract_slice P W L slot Stands read law l q [] blank [] hstands
    (hblank.trans hcount.symm)
  rw [List.nil_append, List.append_nil] at hq hout
  rw [List.nil_append, List.append_nil, hread] at hout
  exact ⟨q, hq, hstands, hcount, hout⟩

theorem Lawful.apply_extract {blank : List W} (hblank : blank.length = slot.count p) :
    ∃ values, slot.extract p blank = some values ∧ values.length = slot.count p ∧
      slot.apply p values = some p := by
  have hout := @Lawful.extract_slice P W L slot Stands read law l p [] blank [] h hblank
  have hin := @Lawful.apply_read P W L slot Stands read law l p [] [] h
  rw [List.nil_append, List.append_nil] at hin hout
  rw [List.nil_append, List.append_nil] at hout
  exact ⟨read p, hout, law.length_read h, hin⟩

end Whole

end SoFCheck.Util.Slots
