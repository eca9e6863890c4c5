import Mathlib

namespace SoFCheck.Util.ValArray

/-- An array of `n` numbers, as a list of index-value pairs whose values are
added up. -/
structure SparseValArray (n : Nat) where
  storage : List (Fin n × Int)

namespace SparseValArray

variable {n : Nat}

def empty : SparseValArray n := ⟨[]⟩

/-- The value of the array in its dense form. -/
def take (a : SparseValArray n) : Fin n → Int :=
  a.storage.foldl (fun result item =>
    Function.update result item.1 (result item.1 + item.2)) fun _ => 0

def compactify (a : SparseValArray n) : SparseValArray n :=
  let vec := a.take
  ⟨((List.finRange n).filter fun idx => vec idx ≠ 0).map fun idx => (idx, vec idx)⟩

def tryCompactify (a : SparseValArray n) : SparseValArray n :=
  if a.storage.length > 3 * n then a.compactify else a

/-- Increments position `idx` by `value`. -/
def add (a : SparseValArray n) (idx : Fin n) (value : Int) : SparseValArray n :=
  tryCompactify ⟨a.storage ++ [(idx, value)]⟩

instance : Add (SparseValArray n) where
  add a b := tryCompactify ⟨a.storage ++ b.storage⟩

instance : Neg (SparseValArray n) where
  neg a := ⟨a.storage.map fun item => (item.1, -item.2)⟩

instance : Sub (SparseValArray n) where
  sub a b := a + -b

def scale (a : SparseValArray n) (coef : Int) : SparseValArray n :=
  ⟨a.storage.map fun item => (item.1, item.2 * coef)⟩

def shiftRight (a : SparseValArray n) (shift : Nat) : SparseValArray n :=
  ⟨a.storage.map fun item => (item.1, Int.shiftRight item.2 shift)⟩

/-- The sum where the items of `b` are pushed to a vector of a limited capacity;
`none` is its failed assertion. -/
def addWithin (capacity : Nat) (a b : SparseValArray n) : Option (SparseValArray n) :=
  if a.storage.length + b.storage.length ≤ capacity then some (a + b) else none

section Dense

variable (a b : SparseValArray n)

theorem foldl_update (l : List (Fin n × Int)) (v : Fin n → Int) :
    l.foldl (fun result item => Function.update result item.1 (result item.1 + item.2)) v =
      v + take ⟨l⟩ := by
  induction l generalizing v with
  | nil => exact (add_zero v).symm
  | cons item l ih =>
    have hupdate : Function.update v item.1 (v item.1 + item.2) =
        v + Function.update (fun _ => 0) item.1 (0 + item.2) := by
      funext i
      by_cases h : i = item.1
      · subst h
        simp
      · simp [h]
    have htake : take ⟨item :: l⟩ = Function.update (fun _ => 0) item.1 (0 + item.2) + take ⟨l⟩ :=
      ih _
    rw [List.foldl_cons, ih, htake, hupdate, add_assoc]

theorem take_append (l l' : List (Fin n × Int)) :
    take ⟨l ++ l'⟩ = take ⟨l⟩ + take ⟨l'⟩ := by
  rw [take, List.foldl_append, foldl_update]
  rfl

theorem take_cons (item : Fin n × Int) (l : List (Fin n × Int)) :
    take ⟨item :: l⟩ = Pi.single item.1 item.2 + take ⟨l⟩ := by
  rw [take, List.foldl_cons, foldl_update, zero_add]
  rfl

@[simp] theorem take_empty : (empty : SparseValArray n).take = 0 := rfl

theorem take_distinct (f : Fin n → Int) {l : List (Fin n)} (hl : l.Nodup) :
    take ⟨l.map fun idx => (idx, f idx)⟩ = fun i => if i ∈ l then f i else 0 := by
  induction l with
  | nil => rfl
  | cons idx l ih =>
    obtain ⟨hidx, hl⟩ := List.nodup_cons.mp hl
    rw [List.map_cons, take_cons, ih hl]
    funext i
    by_cases hi : i = idx
    · subst hi
      simp [hidx]
    · simp [hi]

theorem take_compactify : a.compactify.take = a.take := by
  rw [compactify, take_distinct _ ((List.nodup_finRange n).filter _)]
  funext i
  by_cases hi : a.take i = 0
  · simp [hi]
  · simp [hi]

theorem take_tryCompactify : a.tryCompactify.take = a.take := by
  rw [tryCompactify]
  split
  · exact take_compactify a
  · rfl

@[simp] theorem take_add : (a + b).take = a.take + b.take :=
  (take_tryCompactify _).trans (take_append a.storage b.storage)

theorem take_add_item (idx : Fin n) (value : Int) :
    (a.add idx value).take = a.take + Pi.single idx value := by
  rw [add, take_tryCompactify, take_append, take_cons]
  exact congrArg (a.take + ·) (add_zero _)

theorem take_map (l : List (Fin n × Int)) (f : Int → Int) (hf : ∀ x y, f (x + y) = f x + f y) :
    take ⟨l.map fun item => (item.1, f item.2)⟩ = fun i => f (take ⟨l⟩ i) := by
  have h0 : f 0 = 0 := by
    have := hf 0 0
    rw [add_zero] at this
    omega
  induction l with
  | nil => exact funext fun _ => h0.symm
  | cons item l ih =>
    rw [List.map_cons, take_cons, take_cons, ih]
    funext i
    rw [Pi.add_apply, Pi.add_apply, hf]
    by_cases hi : i = item.1
    · subst hi
      simp
    · simp [hi, h0]

@[simp] theorem take_neg : (-a).take = -a.take :=
  take_map a.storage (fun x => -x) neg_add

@[simp] theorem take_sub : (a - b).take = a.take - b.take := by
  have h : (a - b).take = (a + -b).take := rfl
  rw [h, take_add, take_neg, sub_eq_add_neg]

@[simp] theorem take_scale (coef : Int) : (a.scale coef).take = fun i => a.take i * coef :=
  take_map a.storage (fun x => x * coef) fun x y => add_mul x y coef

theorem addWithin_eq_some {capacity : Nat} {c : SparseValArray n} :
    addWithin capacity a b = some c ↔
      a.storage.length + b.storage.length ≤ capacity ∧ a + b = c := by
  rw [addWithin]
  split
  · rename_i h
    simp [h]
  · rename_i h
    simp [h]

end Dense

end SparseValArray

end SoFCheck.Util.ValArray
