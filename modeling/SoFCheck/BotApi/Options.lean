import Mathlib
import SoFCheck.Util.Strutil

namespace SoFCheck.BotApi.Options

open SoFCheck.Util.CString SoFCheck.Util.Strutil

/-- What a call of the client or of an observer returns. -/
inductive ApiResult where
  | ok
  | notSupported
  | invalidArgument
  | unexpectedCall
  | apiError
  | ioError
  | runtimeError
  deriving DecidableEq, Repr

inductive OptionType where
  | bool
  | int
  | string
  | enum
  | action
  deriving DecidableEq, Repr

inductive OptValue where
  | bool (value : Bool)
  | int (minValue value maxValue : Int)
  | string (value : List Byte)
  | enum (items : List (List Byte)) (index : Nat)
  | action
  deriving DecidableEq, Repr

def OptValue.type : OptValue → OptionType
  | .bool _ => .bool
  | .int _ _ _ => .int
  | .string _ => .string
  | .enum _ _ => .enum
  | .action => .action

/-- What the observer answers to an update. -/
structure OptionObserver where
  setBool : List Byte → Bool → ApiResult
  setInt : List Byte → Int → ApiResult
  setEnum : List Byte → Nat → ApiResult
  setString : List Byte → List Byte → ApiResult
  triggerAction : List Byte → ApiResult

structure OptionStorage where
  observer : Option OptionObserver
  values : List Byte → Option OptValue

def isOptionNameValid (s : List Byte) : Bool :=
  if s = [] ∨ s.head? = some (' ' : Byte) ∨ s.getLast? = some (' ' : Byte) then false
  else if s.any (fun c => c < 32 || 126 < c) then false
  else !(s.zip s.tail).any (fun p => p.1 == ' ' && p.2 == ' ')

section Storage

variable (opts : OptionStorage) (key : List Byte)

/-- `none` stands for `OptionType::None`. -/
def OptionStorage.type : Option OptionType := (opts.values key).map OptValue.type

def OptionStorage.assign (value : OptValue) : OptionStorage :=
  { opts with values := Function.update opts.values key (some value) }

/-- The observer may turn down an update. -/
def OptionStorage.observed (observe : OptionObserver → ApiResult) (updated : OptionStorage) :
    ApiResult × OptionStorage :=
  match opts.observer with
  | none => (.ok, updated)
  | some observer => if observe observer ≠ .ok then (observe observer, opts) else (.ok, updated)

def OptionStorage.setBool (value : Bool) : ApiResult × OptionStorage :=
  match opts.values key with
  | some (.bool _) => opts.observed (·.setBool key value) (opts.assign key (.bool value))
  | _ => (.invalidArgument, opts)

/-- `setEnum` with an index. -/
def OptionStorage.setEnum (index : Nat) : ApiResult × OptionStorage :=
  match opts.values key with
  | some (.enum items _) =>
    if index < items.length then
      opts.observed (·.setEnum key index) (opts.assign key (.enum items index))
    else (.invalidArgument, opts)
  | _ => (.invalidArgument, opts)

/-- `setEnum` with an item. -/
def OptionStorage.setEnumItem (value : List Byte) : ApiResult × OptionStorage :=
  match opts.values key with
  | some (.enum items _) =>
    let index := items.idxOf value
    if index = items.length then (.invalidArgument, opts)
    else opts.observed (·.setEnum key index) (opts.assign key (.enum items index))
  | _ => (.invalidArgument, opts)

def OptionStorage.setInt (value : Int) : ApiResult × OptionStorage :=
  match opts.values key with
  | some (.int minValue _ maxValue) =>
    if minValue ≤ value ∧ value ≤ maxValue then
      opts.observed (·.setInt key value) (opts.assign key (.int minValue value maxValue))
    else (.invalidArgument, opts)
  | _ => (.invalidArgument, opts)

def OptionStorage.setString (value : List Byte) : ApiResult × OptionStorage :=
  match opts.values key with
  | some (.string _) => opts.observed (·.setString key value) (opts.assign key (.string value))
  | _ => (.invalidArgument, opts)

def OptionStorage.triggerAction : ApiResult × OptionStorage :=
  match opts.values key with
  | some .action => opts.observed (·.triggerAction key) opts
  | _ => (.invalidArgument, opts)

end Storage

section Builder

variable (opts : OptionStorage) (key : List Byte)

/-- The builder panics (`none`) on a bad name and on a name that it knows. -/
def OptionStorage.addT (t : OptValue) : Option OptionStorage :=
  if !isOptionNameValid key then none
  else if (opts.values key).isSome then none
  else some (opts.assign key t)

def OptionStorage.addBool (value : Bool) : Option OptionStorage := opts.addT key (.bool value)

def hasRepetitions (vec : List (List Byte)) : Bool :=
  let vec := vec.mergeSort fun a b => decide (a ≤ b)
  (vec.zip vec.tail).any fun p => p.1 == p.2

def OptionStorage.addEnum (items : List (List Byte)) (index : Nat) : Option OptionStorage :=
  if items.length ≤ index then none
  else if items.any (fun item => !isOptionNameValid item) then none
  else if hasRepetitions items then none
  else opts.addT key (.enum items index)

def OptionStorage.addInt (min value max : Int) : Option OptionStorage :=
  if value < min ∨ max < value then none else opts.addT key (.int min value max)

def OptionStorage.addString (value : List Byte) : Option OptionStorage :=
  opts.addT key (.string value)

def OptionStorage.addAction : Option OptionStorage := opts.addT key .action

end Builder

/-- A storage that the builder has made, perhaps changed since by its setters. -/
inductive Built : OptionStorage → Prop where
  | new (observer : Option OptionObserver) : Built ⟨observer, fun _ => none⟩
  | addBool {opts opts' : OptionStorage} {key : List Byte} {value : Bool} (h : Built opts)
      (ha : opts.addBool key value = some opts') : Built opts'
  | addEnum {opts opts' : OptionStorage} {key : List Byte} {items : List (List Byte)} {index : Nat}
      (h : Built opts) (ha : opts.addEnum key items index = some opts') : Built opts'
  | addInt {opts opts' : OptionStorage} {key : List Byte} {min value max : Int} (h : Built opts)
      (ha : opts.addInt key min value max = some opts') : Built opts'
  | addString {opts opts' : OptionStorage} {key value : List Byte} (h : Built opts)
      (ha : opts.addString key value = some opts') : Built opts'
  | addAction {opts opts' : OptionStorage} {key : List Byte} (h : Built opts)
      (ha : opts.addAction key = some opts') : Built opts'
  | setBool {opts : OptionStorage} (h : Built opts) (key : List Byte) (value : Bool) :
      Built (opts.setBool key value).2
  | setEnum {opts : OptionStorage} (h : Built opts) (key : List Byte) (index : Nat) :
      Built (opts.setEnum key index).2
  | setEnumItem {opts : OptionStorage} (h : Built opts) (key value : List Byte) :
      Built (opts.setEnumItem key value).2
  | setInt {opts : OptionStorage} (h : Built opts) (key : List Byte) (value : Int) :
      Built (opts.setInt key value).2
  | setString {opts : OptionStorage} (h : Built opts) (key value : List Byte) :
      Built (opts.setString key value).2
  | triggerAction {opts : OptionStorage} (h : Built opts) (key : List Byte) :
      Built (opts.triggerAction key).2

section Invariant

/-- The items of an enumeration are names, and differ. -/
def OptValue.Good : OptValue → Prop
  | .enum items _ => (∀ item ∈ items, isOptionNameValid item = true) ∧ items.Nodup
  | _ => True

/-- What the builder checks. -/
def Checked (opts : OptionStorage) : Prop :=
  ∀ key value, opts.values key = some value → isOptionNameValid key = true ∧ value.Good

variable {opts opts' : OptionStorage} {key : List Byte} {value : OptValue}

theorem checked_assign (h : Checked opts) (hk : isOptionNameValid key = true) (hv : value.Good) :
    Checked (opts.assign key value) := by
  intro key' value' he
  rw [OptionStorage.assign] at he
  dsimp only at he
  by_cases hkey : key' = key
  · rw [hkey, Function.update_self] at he
    cases he
    rw [hkey]
    exact ⟨hk, hv⟩
  · rw [Function.update_of_ne hkey] at he
    exact h key' value' he

theorem checked_addT (h : Checked opts) (ha : opts.addT key value = some opts') (hv : value.Good) :
    Checked opts' := by
  rw [OptionStorage.addT] at ha
  split_ifs at ha with hk
  cases ha
  exact checked_assign h (by simpa using hk) hv

theorem checked_observed {updated : OptionStorage} (h : Checked opts) (h' : Checked updated)
    (observe : OptionObserver → ApiResult) : Checked (opts.observed observe updated).2 := by
  rw [OptionStorage.observed]
  split
  · exact h'
  · split_ifs
    · exact h
    · exact h'

theorem nodup_of_sorted {vec : List (List Byte)} (hs : vec.Pairwise (· ≤ ·))
    (h : (vec.zip vec.tail).any (fun p => p.1 == p.2) = false) : vec.Nodup := by
  induction vec with
  | nil => exact List.nodup_nil
  | cons a vec ih =>
    cases vec with
    | nil => exact List.nodup_singleton a
    | cons b vec =>
      simp only [List.tail_cons, List.zip_cons_cons, List.any_cons, Bool.or_eq_false_iff] at h
      obtain ⟨ha, hs'⟩ := List.pairwise_cons.mp hs
      have hab : a ≠ b := by simpa using h.1
      refine List.nodup_cons.mpr ⟨fun hmem => hab ?_, ih hs' h.2⟩
      apply List.le_antisymm (ha b List.mem_cons_self)
      obtain rfl | hmem := List.mem_cons.mp hmem
      · exact ha a List.mem_cons_self
      · exact (List.pairwise_cons.mp hs').1 a hmem

theorem nodup_of_hasRepetitions {vec : List (List Byte)} (h : hasRepetitions vec = false) :
    vec.Nodup := by
  have hsorted := @List.pairwise_mergeSort (List Byte) (fun a b => decide (a ≤ b))
    (fun a b c hab hbc => decide_eq_true
      (List.le_trans (of_decide_eq_true hab) (of_decide_eq_true hbc)))
    (fun a b => by simpa using List.le_total a b) vec
  refine (List.mergeSort_perm vec fun a b => decide (a ≤ b)).nodup_iff.mp ?_
  exact nodup_of_sorted (hsorted.imp of_decide_eq_true) h

theorem checked_of_built (h : Built opts) : Checked opts := by
  induction h with
  | new observer => nofun
  | addBool h ha ih => exact checked_addT ih ha trivial
  | addEnum h ha ih =>
    rw [OptionStorage.addEnum] at ha
    split_ifs at ha with hindex hitems hrep
    refine checked_addT ih ha ⟨fun item hitem => ?_, nodup_of_hasRepetitions (by simpa using hrep)⟩
    simp only [List.any_eq_true, not_exists, not_and] at hitems
    simpa using hitems item hitem
  | addInt h ha ih =>
    rw [OptionStorage.addInt] at ha
    split_ifs at ha
    exact checked_addT ih ha trivial
  | addString h ha ih => exact checked_addT ih ha trivial
  | addAction h ha ih => exact checked_addT ih ha trivial
  | setBool h key value ih =>
    rw [OptionStorage.setBool]
    split
    · rename_i v hv
      refine checked_observed ih (checked_assign ih (ih key _ hv).1 ?_) _
      trivial
    · exact ih
  | setEnum h key index ih =>
    rw [OptionStorage.setEnum]
    split
    · rename_i items index' hv
      split_ifs
      · refine checked_observed ih (checked_assign ih (ih key _ hv).1 ?_) _
        exact (ih key _ hv).2
      · exact ih
    · exact ih
  | setEnumItem h key value ih =>
    rw [OptionStorage.setEnumItem]
    split
    · rename_i items index' hv
      dsimp only
      split_ifs
      · exact ih
      · refine checked_observed ih (checked_assign ih (ih key _ hv).1 ?_) _
        exact (ih key _ hv).2
    · exact ih
  | setInt h key value ih =>
    rw [OptionStorage.setInt]
    split
    · rename_i hv
      split_ifs
      · refine checked_observed ih (checked_assign ih (ih key _ hv).1 ?_) _
        trivial
      · exact ih
    · exact ih
  | setString h key value ih =>
    rw [OptionStorage.setString]
    split
    · rename_i v hv
      refine checked_observed ih (checked_assign ih (ih key _ hv).1 ?_) _
      trivial
    · exact ih
  | triggerAction h key ih =>
    rw [OptionStorage.triggerAction]
    split
    · exact checked_observed ih ih _
    · exact ih

theorem setEnumItem_eq {items : List (List Byte)} {index i : Nat} {item : List Byte}
    (h : Checked opts) (hv : opts.values key = some (.enum items index))
    (hi : items[i]? = some item) : opts.setEnumItem key item = opts.setEnum key i := by
  obtain ⟨hlt, hget⟩ := List.getElem?_eq_some_iff.mp hi
  have hidx : items.idxOf item = i := by
    rw [← hget]
    exact (h key _ hv).2.2.idxOf_getElem i hlt
  rw [OptionStorage.setEnumItem, OptionStorage.setEnum, hv]
  dsimp only
  rw [hidx, if_neg hlt.ne, if_pos hlt]

end Invariant

end SoFCheck.BotApi.Options
