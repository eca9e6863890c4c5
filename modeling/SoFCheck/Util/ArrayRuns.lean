import SoFCheck.Util.ValArray

namespace SoFCheck.Util.ArrayRuns

open SoFCheck.Util.ValArray

variable {ι : Type} [DecidableEq ι] {n : Nat}

/-- What the items are kept in: `std::vector`, or `SmallVector` with its capacity. -/
inductive Storage where
  | vector
  | small (capacity : Nat)
  deriving DecidableEq

def Storage.Holds : Storage → Nat → Prop
  | vector, _ => True
  | small capacity, size => size ≤ capacity

instance : (storage : Storage) → (size : Nat) → Decidable (storage.Holds size)
  | .vector, _ => isTrue trivial
  | .small capacity, size => inferInstanceAs (Decidable (size ≤ capacity))

theorem Storage.Holds.mono {storage : Storage} {size size' : Nat} (h : storage.Holds size)
    (hle : size' ≤ size) : storage.Holds size' := by
  cases storage with
  | vector => trivial
  | small capacity => exact hle.trans h

theorem Storage.holds_zero (storage : Storage) : storage.Holds 0 := by
  cases storage with
  | vector => trivial
  | small capacity => exact Nat.zero_le capacity

/-- An array whose items there is room for. -/
structure Stored (storage : Storage) (n : Nat) where
  array : SparseValArray n
  fits : storage.Holds array.storage.length

namespace Stored

variable {storage : Storage}

def clear : Stored storage n := ⟨.empty, storage.holds_zero⟩

variable (a : Stored storage n)

def size : Nat := a.array.storage.length

/-- `push_back`, whose assertion fails when there is no room. -/
def push (item : Fin n × Int) : Option (Stored storage n) :=
  if h : storage.Holds (a.array.storage ++ [item]).length then some ⟨⟨a.array.storage ++ [item]⟩, h⟩
  else none

def pushAll (items : List (Fin n × Int)) : Option (Stored storage n) := items.foldlM push a

def compactify : Option (Stored storage n) :=
  let vec := a.array.take
  pushAll clear (((List.finRange n).filter fun idx => vec idx ≠ 0).map fun idx => (idx, vec idx))

def tryCompactify : Option (Stored storage n) :=
  if a.size > 3 * n then a.compactify else some a

def add (idx : Fin n) (value : Int) : Option (Stored storage n) :=
  (a.push (idx, value)).bind tryCompactify

def addAssign (other : SparseValArray n) : Option (Stored storage n) :=
  (a.pushAll other.storage).bind tryCompactify

def mulAssign (other : Int) : Stored storage n :=
  ⟨a.array.scale other, (List.length_map _).symm ▸ a.fits⟩

def shrAssign (other : Nat) : Stored storage n :=
  ⟨a.array.shiftRight other, (List.length_map _).symm ▸ a.fits⟩

/-- The conversion from an array in another storage. -/
def convert (other : SparseValArray n) : Option (Stored storage n) :=
  pushAll clear other.storage

end Stored

/-- The variables of a program, all of them arrays of one size, each in its storage. -/
abbrev Arrays (storage : ι → Storage) (n : Nat) := (r : ι) → Stored (storage r) n

/-- The same with the arrays in their dense form. -/
abbrev Vectors (ι : Type) (n : Nat) := ι → Fin n → Int

/-- Arrays are compared in their dense form. -/
instance instBEq : BEq (SparseValArray n) where
  beq a b := decide (a.take = b.take)

variable {storage : ι → Storage}

def values (s : Arrays storage n) : Vectors ι n := fun r => (s r).array.take

/-- What can be done with the variables. -/
inductive Op (ι : Type) (n : Nat) where
  | add (r : ι) (idx : Fin n) (value : Int)
  | addAssign (r other : ι)
  | subAssign (r other : ι)
  | mulAssign (r : ι) (other : Int)
  | shrAssign (r : ι) (other : Nat)
  | negate (r other : ι)
  | convert (r other : ι)
  | compactify (r : ι)

namespace Op

/-- `+=` walks over the storage it pushes to when both sides are one variable. Pushing to a
`std::vector` meanwhile is undefined, unless there is nothing to walk over; the items of a
`SmallVector` stay where they are. -/
def perform (op : Op ι n) (s : Arrays storage n) : Option (Arrays storage n) :=
  match op with
  | add r idx value => ((s r).add idx value).map (Function.update s r)
  | addAssign r other =>
    if r = other ∧ storage r = .vector ∧ (s r).array.storage ≠ [] then none
    else ((s r).addAssign (s other).array).map (Function.update s r)
  | subAssign r other => ((s r).addAssign (-(s other).array)).map (Function.update s r)
  | mulAssign r other => some (Function.update s r ((s r).mulAssign other))
  | shrAssign r other => some (Function.update s r ((s r).shrAssign other))
  | negate r other => (Stored.convert (-(s other).array)).map (Function.update s r)
  | convert r other => (Stored.convert (s other).array).map (Function.update s r)
  | compactify r => (s r).compactify.map (Function.update s r)

/-- The same on vectors, component by component. -/
def dense : Op ι n → Vectors ι n → Vectors ι n
  | add r idx value, v => Function.update v r (v r + Pi.single idx value)
  | addAssign r other, v => Function.update v r (v r + v other)
  | subAssign r other, v => Function.update v r (v r - v other)
  | mulAssign r other, v => Function.update v r fun i => v r i * other
  | shrAssign r other, v => Function.update v r fun i => Int.shiftRight (v r i) other
  | negate r other, v => Function.update v r (-v other)
  | convert r other, v => Function.update v r (v other)
  | compactify _, v => v

def isCompactify : Op ι n → Bool
  | compactify _ => true
  | _ => false

end Op

/-- The operation is defined and its result stands for the dense result. -/
def Agrees (op : Op ι n) (s : Arrays storage n) : Prop :=
  ∃ s', op.perform s = some s' ∧ values s' = op.dense (values s)

/-- What a shift drops of the items of each position, added up. -/
def dropped (a : SparseValArray n) (shift : Nat) : Fin n → Int :=
  SparseValArray.take ⟨a.storage.map fun item => (item.1, item.2 % 2 ^ shift)⟩

/-- There is room for what is pushed, no carry leaves the bits that a shift drops, and nothing in a
`std::vector` is added to itself. -/
def Fits (op : Op ι n) (s : Arrays storage n) : Prop :=
  match op with
  | .add r _ _ => (storage r).Holds ((s r).size + 1)
  | .addAssign r other => (storage r).Holds ((s r).size + (s other).size) ∧
      (r = other → storage r = .vector → (s r).array.storage = [])
  | .subAssign r other => (storage r).Holds ((s r).size + (s other).size)
  | .negate r other | .convert r other => (storage r).Holds ((s other).size)
  | .shrAssign r shift => ∀ i, dropped (s r).array shift i < 2 ^ shift
  | .mulAssign _ _ | .compactify _ => True

instance (op : Op ι n) (s : Arrays storage n) : Decidable (Fits op s) :=
  match op with
  | .add r _ _ => inferInstanceAs (Decidable ((storage r).Holds ((s r).size + 1)))
  | .addAssign r other => inferInstanceAs (Decidable ((storage r).Holds ((s r).size + (s other).size) ∧
      (r = other → storage r = .vector → (s r).array.storage = [])))
  | .subAssign r other =>
    inferInstanceAs (Decidable ((storage r).Holds ((s r).size + (s other).size)))
  | .negate r other | .convert r other => inferInstanceAs (Decidable ((storage r).Holds (s other).size))
  | .shrAssign r shift => inferInstanceAs (Decidable (∀ i, dropped (s r).array shift i < 2 ^ shift))
  | .mulAssign _ _ | .compactify _ => isTrue trivial

section Shift

variable (l : List (Fin n × Int)) (shift : Nat) (i : Fin n)

theorem shiftRight_eq (x : Int) : x.shiftRight shift = x / 2 ^ shift :=
  Int.shiftRight_eq_div_pow x shift

theorem take_split : SparseValArray.take ⟨l⟩ i =
    2 ^ shift * SparseValArray.take ⟨l.map fun item => (item.1, Int.shiftRight item.2 shift)⟩ i +
      dropped ⟨l⟩ shift i := by
  induction l with
  | nil => exact (add_zero _).symm.trans (congrArg (· + (0 : Int)) (mul_zero _).symm)
  | cons item l ih =>
    have hdropped : dropped ⟨item :: l⟩ shift i =
        (Pi.single item.1 (item.2 % 2 ^ shift) : Fin n → Int) i + dropped ⟨l⟩ shift i := by
      rw [dropped, List.map_cons, SparseValArray.take_cons]
      rfl
    rw [hdropped, List.map_cons, SparseValArray.take_cons, SparseValArray.take_cons, Pi.add_apply,
      Pi.add_apply, ih]
    by_cases hi : i = item.1
    · subst hi
      have hitem := Int.mul_ediv_add_emod item.2 (2 ^ shift)
      rw [Pi.single_eq_same, Pi.single_eq_same, Pi.single_eq_same, shiftRight_eq]
      linarith
    · rw [Pi.single_eq_of_ne hi, Pi.single_eq_of_ne hi, Pi.single_eq_of_ne hi]
      ring

theorem dropped_nonneg : 0 ≤ dropped ⟨l⟩ shift i := by
  induction l with
  | nil => exact le_refl _
  | cons item l ih =>
    rw [dropped, List.map_cons, SparseValArray.take_cons, Pi.add_apply]
    apply add_nonneg _ ih
    by_cases hi : i = item.1
    · subst hi
      rw [Pi.single_eq_same]
      exact Int.emod_nonneg _ (by positivity)
    · rw [Pi.single_eq_of_ne hi]

theorem take_shiftRight_iff (a : SparseValArray n) :
    (a.shiftRight shift).take i = Int.shiftRight (a.take i) shift ↔
      dropped a shift i < 2 ^ shift := by
  have hsplit := take_split a.storage shift i
  have hpos : (0 : Int) < 2 ^ shift := by positivity
  have hnonneg := dropped_nonneg a.storage shift i
  have hdiv : Int.shiftRight (a.take i) shift =
      (a.shiftRight shift).take i + dropped a shift i / 2 ^ shift := by
    rw [shiftRight_eq, hsplit, Int.mul_add_ediv_left _ _ hpos.ne']
    rfl
  rw [hdiv, left_eq_add]
  constructor
  · intro hzero
    by_contra hle
    have hone := Int.ediv_le_ediv hpos (not_lt.mp hle)
    rw [Int.ediv_self hpos.ne', hzero] at hone
    omega
  · intro hlt
    exact Int.ediv_eq_zero_of_lt hnonneg hlt

end Shift

section Room

variable {storage : Storage} {a b : Stored storage n} {items : List (Fin n × Int)}

theorem pushAll_eq_some : a.pushAll items = some b ↔
    storage.Holds (a.size + items.length) ∧ b.array.storage = a.array.storage ++ items := by
  induction items generalizing a with
  | nil =>
    rw [List.append_nil]
    constructor
    · intro h
      obtain rfl : a = b := Option.some.inj h
      exact ⟨a.fits, rfl⟩
    · intro h
      obtain ⟨⟨items⟩, ha⟩ := a
      obtain ⟨⟨items'⟩, hb⟩ := b
      obtain rfl : items' = items := h.2
      rfl
  | cons item items ih =>
    have hsize : (a.array.storage ++ [item]).length + items.length = a.size + (item :: items).length := by
      simp only [Stored.size, List.length_append, List.length_cons, List.length_nil]
      omega
    have hcons : a.pushAll (item :: items) = (a.push item).bind fun a => a.pushAll items := rfl
    rw [hcons, Stored.push]
    split
    · rw [Option.bind_some, ih, Stored.size, hsize, List.append_assoc, List.singleton_append]
    · rename_i hfull
      refine iff_of_false (fun h => by cases h) fun h => hfull (h.1.mono ?_)
      rw [← hsize]
      exact Nat.le_add_right _ _

theorem mem_of_take_ne_zero {l : List (Fin n × Int)} {i : Fin n}
    (h : SparseValArray.take ⟨l⟩ i ≠ 0) : i ∈ l.map Prod.fst := by
  induction l with
  | nil => exact absurd rfl h
  | cons item l ih =>
    rw [SparseValArray.take_cons, Pi.add_apply] at h
    by_cases hi : i = item.1
    · exact hi ▸ List.mem_cons_self
    · rw [Pi.single_eq_of_ne hi, zero_add] at h
      exact List.mem_cons_of_mem _ (ih h)

theorem exists_compactify (a : Stored storage n) :
    ∃ b, a.compactify = some b ∧ b.array.take = a.array.take := by
  have hnodup : ((List.finRange n).filter fun idx => a.array.take idx ≠ 0).Nodup :=
    (List.nodup_finRange n).filter _
  have hsub : ((List.finRange n).filter fun idx => a.array.take idx ≠ 0) ⊆
      a.array.storage.map Prod.fst := fun idx hidx =>
    mem_of_take_ne_zero (of_decide_eq_true (List.mem_filter.mp hidx).2)
  have hsize : a.array.compactify.storage.length ≤ a.size := by
    have hle := (hnodup.subperm hsub).length_le
    rw [List.length_map] at hle
    rw [SparseValArray.compactify, List.length_map]
    exact hle
  refine ⟨⟨a.array.compactify, a.fits.mono hsize⟩, ?_, SparseValArray.take_compactify _⟩
  refine pushAll_eq_some.mpr ⟨a.fits.mono ?_, rfl⟩
  exact (Nat.zero_add _).trans_le hsize

theorem exists_tryCompactify (a : Stored storage n) :
    ∃ b, a.tryCompactify = some b ∧ b.array.take = a.array.take := by
  rw [Stored.tryCompactify]
  split
  · exact exists_compactify a
  · exact ⟨a, rfl, rfl⟩

theorem exists_pushed {v : Fin n → Int} (hv : SparseValArray.take ⟨a.array.storage ++ items⟩ = v) :
    (∃ b, (a.pushAll items).bind Stored.tryCompactify = some b ∧ b.array.take = v) ↔
      storage.Holds (a.size + items.length) := by
  constructor
  · intro h
    obtain ⟨b, hb, -⟩ := h
    obtain ⟨c, hc, -⟩ := Option.bind_eq_some_iff.mp hb
    exact (pushAll_eq_some.mp hc).1
  · intro h
    obtain ⟨c, hc⟩ : ∃ c : Stored storage n, c.array.storage = a.array.storage ++ items :=
      ⟨⟨⟨a.array.storage ++ items⟩, h.mono List.length_append.le⟩, rfl⟩
    obtain ⟨b, hb, htake⟩ := exists_tryCompactify c
    refine ⟨b, ?_, ?_⟩
    · rw [pushAll_eq_some.mpr ⟨h, hc⟩]
      exact hb
    · rw [htake, ← hv, ← hc]

theorem exists_convert (storage : Storage) (other : SparseValArray n) :
    (∃ b : Stored storage n, Stored.convert other = some b ∧ b.array.take = other.take) ↔
      storage.Holds other.storage.length := by
  have hzero : (Stored.clear : Stored storage n).size + other.storage.length = other.storage.length :=
    Nat.zero_add _
  constructor
  · intro h
    obtain ⟨b, hb, -⟩ := h
    exact hzero ▸ (pushAll_eq_some.mp hb).1
  · intro h
    exact ⟨⟨other, h⟩, pushAll_eq_some.mpr ⟨hzero.symm ▸ h, rfl⟩, rfl⟩

end Room

theorem values_update (s : Arrays storage n) (r : ι) (a : Stored (storage r) n) :
    values (Function.update s r a) = Function.update (values s) r a.array.take := by
  funext q
  by_cases hq : q = r
  · subst hq
    rw [values, Function.update_self, Function.update_self]
  · rw [values, Function.update_of_ne hq, Function.update_of_ne hq]
    rfl

omit [DecidableEq ι] in
theorem forall_beq_iff {storage' : ι → Storage} (s : Arrays storage n) (s' : Arrays storage' n) :
    (∀ r, (s r).array == (s' r).array) ↔ values s = values s' :=
  (forall_congr' fun _ => decide_eq_true_iff).trans funext_iff.symm

theorem agrees_update {op : Op ι n} {s : Arrays storage n} {r : ι}
    {result : Option (Stored (storage r) n)} {v : Fin n → Int}
    (hop : op.perform s = result.map (Function.update s r))
    (hdense : op.dense (values s) = Function.update (values s) r v) :
    Agrees op s ↔ ∃ a, result = some a ∧ a.array.take = v := by
  rw [Agrees, hop, hdense]
  constructor
  · intro h
    obtain ⟨s', hs', hv⟩ := h
    obtain ⟨a, ha, rfl⟩ := Option.map_eq_some_iff.mp hs'
    rw [values_update] at hv
    have hr := congrFun hv r
    rw [Function.update_self, Function.update_self] at hr
    exact ⟨a, ha, hr⟩
  · intro h
    obtain ⟨a, ha, hv⟩ := h
    refine ⟨Function.update s r a, ?_, ?_⟩
    · rw [ha]
      rfl
    · rw [values_update, hv]

/-- An operation does what it does on vectors exactly if it fits. -/
theorem agrees_iff (op : Op ι n) (s : Arrays storage n) : Agrees op s ↔ Fits op s := by
  cases op with
  | add r idx value =>
    have hpush : (s r).add idx value = ((s r).pushAll [(idx, value)]).bind Stored.tryCompactify := by
      have hone : (s r).pushAll [(idx, value)] = ((s r).push (idx, value)).bind some := rfl
      rw [hone, Option.bind_fun_some]
      rfl
    refine (agrees_update rfl rfl).trans ?_
    rw [hpush]
    apply exists_pushed
    rw [SparseValArray.take_append, SparseValArray.take_cons]
    exact congrArg ((s r).array.take + ·) (add_zero _)
  | addAssign r other =>
    have htake : SparseValArray.take ⟨(s r).array.storage ++ (s other).array.storage⟩ =
        values s r + values s other := SparseValArray.take_append ..
    by_cases h : r = other ∧ storage r = .vector ∧ (s r).array.storage ≠ []
    · have hnone : (Op.addAssign r other).perform s = none := if_pos h
      rw [Agrees, hnone]
      refine iff_of_false (fun h' => ?_) fun hfits => h.2.2 (hfits.2 h.1 h.2.1)
      obtain ⟨s', hs', -⟩ := h'
      cases hs'
    · have hsome : (Op.addAssign r other).perform s =
          ((s r).addAssign (s other).array).map (Function.update s r) := if_neg h
      refine (agrees_update hsome rfl).trans ((exists_pushed htake).trans (iff_self_and.mpr ?_))
      exact fun _ hr hvector => by_contra fun hne => h ⟨hr, hvector, hne⟩
  | subAssign r other =>
    refine (agrees_update rfl rfl).trans ((exists_pushed ?_).trans ?_)
    · rw [sub_eq_add_neg, SparseValArray.take_append]
      exact congrArg (values s r + ·) (SparseValArray.take_neg _)
    · rw [show (-(s other).array).storage.length = (s other).size from List.length_map _]
      exact Iff.rfl
  | mulAssign r other =>
    have hsome : (Op.mulAssign r other).perform s =
        (some ((s r).mulAssign other)).map (Function.update s r) := rfl
    exact (agrees_update hsome rfl).trans
      (iff_true_intro ⟨_, rfl, SparseValArray.take_scale ..⟩)
  | shrAssign r shift =>
    have hsome : (Op.shrAssign r shift).perform s =
        (some ((s r).shrAssign shift)).map (Function.update s r) := rfl
    refine (agrees_update hsome rfl).trans ?_
    simp only [Option.some.injEq, exists_eq_left']
    rw [funext_iff]
    exact forall_congr' fun i => take_shiftRight_iff shift i (s r).array
  | negate r other =>
    refine (agrees_update rfl rfl).trans ?_
    have hconvert := exists_convert (storage r) (-(s other).array)
    rw [SparseValArray.take_neg] at hconvert
    refine hconvert.trans ?_
    rw [show (-(s other).array).storage.length = (s other).size from List.length_map _]
    exact Iff.rfl
  | convert r other => exact (agrees_update rfl rfl).trans (exists_convert _ _)
  | compactify r =>
    have hdense : (Op.compactify r).dense (values s) =
        Function.update (values s) r (s r).array.take := (Function.update_eq_self r (values s)).symm
    exact (agrees_update rfl hdense).trans (iff_true_intro (exists_compactify _))

section Runs

def run : List (Op ι n) → Arrays storage n → Option (Arrays storage n)
  | [], s => some s
  | op :: ops, s => (op.perform s).bind (run ops)

def denseRun (ops : List (Op ι n)) (v : Vectors ι n) : Vectors ι n :=
  ops.foldl (fun v op => op.dense v) v

/-- `P` holds of every operation of the run in the state it is carried out in. -/
def Along (P : Op ι n → Arrays storage n → Prop) : List (Op ι n) → Arrays storage n → Prop
  | [], _ => True
  | op :: ops, s => P op s ∧ ∀ s', op.perform s = some s' → Along P ops s'

instance decidableAlong (P : Op ι n → Arrays storage n → Prop) [∀ op s, Decidable (P op s)] :
    (ops : List (Op ι n)) → (s : Arrays storage n) → Decidable (Along P ops s)
  | [], _ => isTrue trivial
  | op :: ops, s =>
    match h : op.perform s with
    | none => decidable_of_iff (P op s) (by simp [Along, h])
    | some s' =>
      have := decidableAlong P ops s'
      decidable_of_iff (P op s ∧ Along P ops s') (by simp [Along, h])

variable {s : Arrays storage n}

theorem along_congr {P Q : Op ι n → Arrays storage n → Prop} (h : ∀ op s, P op s ↔ Q op s)
    (ops : List (Op ι n)) : Along P ops s ↔ Along Q ops s := by
  induction ops generalizing s with
  | nil => rfl
  | cons op ops ih => exact and_congr (h op s) (forall₂_congr fun _ _ => ih)

theorem run_values {ops : List (Op ι n)} (h : Along Agrees ops s) :
    ∃ s', run ops s = some s' ∧ values s' = denseRun ops (values s) := by
  induction ops generalizing s with
  | nil => exact ⟨s, rfl, rfl⟩
  | cons op ops ih =>
    obtain ⟨⟨s', hs', hv⟩, hops⟩ := h
    obtain ⟨t, ht, htv⟩ := ih (hops s' hs')
    refine ⟨t, ?_, ?_⟩
    · rw [run, hs']
      exact ht
    · rw [htv, hv]
      rfl

theorem denseRun_filter (ops : List (Op ι n)) (v : Vectors ι n) :
    denseRun (ops.filter fun op => !op.isCompactify) v = denseRun ops v := by
  induction ops generalizing v with
  | nil => rfl
  | cons op ops ih =>
    cases hop : op.isCompactify with
    | true =>
      have hskip : op.dense v = v := by
        cases op with
        | compactify r => rfl
        | _ => cases hop
      rw [List.filter_cons_of_neg (by rw [hop]; decide), ih]
      exact congrArg (denseRun ops) hskip.symm
    | false =>
      rw [List.filter_cons_of_pos (by rw [hop]; rfl)]
      exact ih (op.dense v)

/-- The results of a run are those of vectors exactly as long as there is room for them, no carry is
lost and no vector is added to itself. Programs with the same operations but for `compactify`, run on
arrays that compare equal, whatever they are kept in, then end in arrays that compare equal. -/
theorem agrees_along_iff (ops : List (Op ι n)) (s : Arrays storage n) :
    (Along Agrees ops s ↔ Along Fits ops s) ∧
      (Along Fits ops s → ∃ t, run ops s = some t ∧ values t = denseRun ops (values s) ∧
        ∀ (storage' : ι → Storage) (ops' : List (Op ι n)) (s' : Arrays storage' n),
          Along Fits ops' s' → (∀ r, (s' r).array == (s r).array) →
          (ops'.filter fun op => !op.isCompactify) = ops.filter (fun op => !op.isCompactify) →
          ∃ t', run ops' s' = some t' ∧ ∀ r, (t' r).array == (t r).array) := by
  refine ⟨along_congr agrees_iff ops, fun h => ?_⟩
  obtain ⟨t, ht, htv⟩ := run_values ((along_congr agrees_iff ops).mpr h)
  refine ⟨t, ht, htv, fun storage' ops' s' h' hs' hops => ?_⟩
  obtain ⟨t', ht', htv'⟩ := run_values ((along_congr agrees_iff ops').mpr h')
  refine ⟨t', ht', (forall_beq_iff t' t).mpr ?_⟩
  have hvalues : values s' = values s := (forall_beq_iff s' s).mp hs'
  rw [htv', htv, hvalues, ← denseRun_filter ops', hops, denseRun_filter]

/-- One array is kept in a `std::vector`, and one in a `SmallVector` of six items. -/
def bothStorages : Bool → Storage
  | true => .vector
  | false => .small 6

def zeros {storage : ι → Storage} : Arrays storage n := fun _ => .clear

/-- The small array is halved after it was made smaller, and added to itself; the other one takes over
its items. -/
def exchange : List (Op Bool 5) :=
  [.add false 3 4, .add false 2 (-1), .add false 3 9, .compactify false, .shrAssign false 1,
    .addAssign false false, .convert true false, .mulAssign true 3, .compactify false, .compactify true,
    .subAssign false true, .negate true false, .addAssign true false]

theorem agrees_along_iff_exchange :
    (Along Agrees exchange (zeros : Arrays bothStorages 5) ↔
        Along Fits exchange (zeros : Arrays bothStorages 5)) ∧
      ∃ t, run exchange (zeros : Arrays bothStorages 5) = some t ∧
        values t = denseRun exchange (values (zeros : Arrays bothStorages 5)) ∧
        values t false 3 = -24 := by
  obtain ⟨hiff, hrun⟩ := agrees_along_iff exchange (zeros : Arrays bothStorages 5)
  obtain ⟨t, ht, hv, -⟩ := hrun (by decide)
  refine ⟨hiff, t, ht, hv, ?_⟩
  rw [hv]
  decide

/-- Two ones at one position, halved. -/
def halving (between : List (Op Unit 1)) : List (Op Unit 1) :=
  [.add () 0 1, .add () 0 1] ++ between ++ [.shrAssign () 1]

/-- The items are halved one by one: what is left is zero without `compactify`, and one
with it. -/
theorem not_agrees_halving :
    ¬Along Agrees (halving []) (zeros : Arrays (fun _ => Storage.vector) 1) ∧
    (run (halving []) (zeros : Arrays (fun _ => Storage.vector) 1)).map (fun t => values t () 0) =
      some 0 ∧
    (run (halving [.compactify ()]) (zeros : Arrays (fun _ => Storage.vector) 1)).map
      (fun t => values t () 0) = some 1 := by
  refine ⟨?_, rfl, rfl⟩
  rw [along_congr agrees_iff]
  decide

/-- A seventh item makes the assertion of a `SmallVector` of six fail. -/
example : run (List.replicate 7 (.add () 0 1)) (zeros : Arrays (fun _ => Storage.small 6) 5) = none :=
  rfl

end Runs

end SoFCheck.Util.ArrayRuns
