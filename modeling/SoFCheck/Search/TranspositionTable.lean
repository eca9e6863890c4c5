import SoFCheck.Search.TableData
import SoFCheck.Core.Types
import SoFCheck.Util.Parallel
import SoFCheck.Util.Transition

namespace SoFCheck.Search.TranspositionTable

open SoFCheck.Util.Parallel SoFCheck.Util.Transition
open SoFCheck.Core.Types SoFCheck.Core.Moves SoFCheck.Search.TableData

section Model

/-- `Data::weight`, with the smallest `int32_t` for an invalid entry. -/
def weight (d : Data) (curEpoch : BitVec 8) : Int :=
  if !d.isValid then -2 ^ 31
  else
    let age := curEpoch - d.epoch_
    let result := d.depth - 2 * age.toNat
    if d.bound = PositionCostBound.exact.toBits then result + 3 else result

/-- The two words of an entry. -/
structure Entry where
  value : Data
  key : BoardHash
  deriving DecidableEq

def Entry.cleared : Entry := ⟨Data.zero, 0⟩

/-- The key of the position that an entry is about. -/
def Entry.boardKey (e : Entry) : BoardHash := e.key ^^^ e.value.asUint

def Entry.storeValue (value : Data) (e : Entry) : Entry := { e with value := value }

def Entry.storeKey (key : BoardHash) (e : Entry) : Entry := { e with key := key }

/-- `size` is `size_`, the number of entries; `entries` is `table_`. -/
structure Table where
  size : Nat
  entries : Nat → Entry
  epoch : BitVec 8

/-- The slot of a key in a table of `size` entries. -/
def slot (size : Nat) (key : BoardHash) : Nat := (key &&& BitVec.ofNat 64 (size - 1)).toNat

/-- `Entry::assignRelaxed` stores the two words one after the other. -/
def assignRelaxed (i : Nat) (value : Data) (key : BoardHash) : List (Nat × (Entry → Entry)) :=
  [(i, Entry.storeValue value), (i, Entry.storeKey key)]

/-- What a worker of `doClear` does. -/
def clearSegment (is : List Nat) : List (Nat × (Entry → Entry)) :=
  is.flatMap fun i => assignRelaxed i Data.zero 0

def doClear (table : Nat → Entry) (size jobs : Nat) (order : List Nat) : Nat → Entry :=
  writeAll table (interleave ((segments 0 size jobs).map clearSegment) order)

/-- How a resize comes about: what the new memory holds, and whose turn it is in
each of its two parallel loops. -/
structure Schedule where
  junk : Nat → Entry
  clearing : List Nat
  moving : List Nat

def load (t : Table) (key : BoardHash) : Data :=
  let entry := t.entries (slot t.size key)
  if entry.key ^^^ entry.value.asUint ≠ key then Data.zero else entry.value

def store (t : Table) (key : BoardHash) (value : Data) : Table :=
  let idx := slot t.size key
  let value := { value with epoch_ := t.epoch }
  if weight (t.entries idx).value t.epoch > weight value t.epoch then t
  else { t with entries := Function.update t.entries idx ⟨value, key ^^^ value.asUint⟩ }

def clear (t : Table) (jobs : Nat) (order : List Nat) : Table :=
  { t with entries := doClear t.entries t.size jobs order }

/-- The loop that doubles the new size, a `size_t`. It does not end for the largest
values of `maxSize`. -/
def doubleLoop (maxSize : Nat) : (turns newSize : Nat) → Option Nat
  | 0, _ => none
  | turns + 1, newSize =>
    if newSize ≤ maxSize then doubleLoop maxSize turns (newSize * 2 % 2 ^ 64) else some newSize

/-- The size that a request is raised to. -/
def atLeastMega (maxSize : BitVec 64) : Nat := max maxSize.toNat (2 ^ 20)

/-- The number of entries after `resize`. -/
def newEntries (maxSize : BitVec 64) : Option Nat :=
  (doubleLoop (atLeastMega maxSize) 65 1).map fun newSize => newSize / 2 / 16

/-- What a worker does when the table grows. -/
def growSegment (t : Table) (newSize : Nat) (is : List Nat) : List (Nat × (Entry → Entry)) :=
  is.flatMap fun i =>
    let entry := t.entries i
    assignRelaxed (slot newSize (entry.key ^^^ entry.value.asUint)) entry.value entry.key

/-- The multiples of `newSize` below `size`. -/
def offsets (newSize size : Nat) : List Nat :=
  List.range' newSize ((size - 1) / newSize) newSize

/-- What a worker does when the table shrinks. -/
def shrinkSegment (t : Table) (newSize : Nat) (is : List Nat) : List (Nat × (Entry → Entry)) :=
  (is.flatMap fun i => assignRelaxed i (t.entries i).value (t.entries i).key) ++
    (offsets newSize t.size).flatMap fun offset => is.map fun i =>
      let oldEntry := t.entries (i + offset)
      (i, fun newEntry =>
        if weight oldEntry.value t.epoch > weight newEntry.value t.epoch then oldEntry else newEntry)

def resize (t : Table) (maxSize : BitVec 64) (clearTable : Bool) (jobs : Nat) (sched : Schedule) :
    Option Table :=
  (newEntries maxSize).map fun newSize =>
    if newSize = t.size then
      if clearTable then clear t jobs sched.clearing else t
    else
      let newData :=
        if clearTable then doClear sched.junk newSize jobs sched.clearing
        else if newSize > t.size then
          writeAll (doClear sched.junk newSize jobs sched.clearing)
            (interleave ((segments 0 t.size jobs).map (growSegment t newSize)) sched.moving)
        else
          writeAll sched.junk
            (interleave ((segments 0 newSize jobs).map (shrinkSegment t newSize)) sched.moving)
      { t with entries := newData, size := newSize }

def growEpoch (t : Table) (amount : BitVec 8) : Table := { t with epoch := t.epoch + amount }

def resetEpoch (t : Table) : Table := { t with epoch := t.epoch + 19 }

def defaultSize : Nat := 2 ^ 25

/-- The constructor, which clears the new memory. -/
def create (junk : Nat → Entry) : Table := clear ⟨defaultSize / 16, junk, 0⟩ 1 []

end Model

section Runs

inductive Action where
  | store (key : BoardHash) (value : Data)
  | clear (jobs : Nat) (order : List Nat)
  | resize (maxSize : BitVec 64) (clearTable : Bool) (jobs : Nat) (sched : Schedule)
  | growEpoch (amount : BitVec 8)
  | resetEpoch

/-- What has been stored since the last time the table was cleared, and in which
epoch. -/
structure State where
  table : Table
  stores : List (BoardHash × Data × BitVec 8)

def step (s : State) : Action → Option State
  | .store key value =>
    some ⟨store s.table key value, (key, value, s.table.epoch) :: s.stores⟩
  | .clear jobs order => if jobs = 0 then none else some ⟨clear s.table jobs order, []⟩
  | .resize maxSize clearTable jobs sched =>
    if jobs = 0 then none
    else (resize s.table maxSize clearTable jobs sched).map fun table =>
      ⟨table, if clearTable then [] else s.stores⟩
  | .growEpoch amount => some { s with table := growEpoch s.table amount }
  | .resetEpoch => some { s with table := resetEpoch s.table }

/-- The operations of one thread on a table. -/
def system (junk : Nat → Entry) : System State Action := ⟨⟨create junk, []⟩, step⟩

end Runs

section Sizes

theorem doubleLoop_zero (maxSize turns : Nat) : doubleLoop maxSize turns 0 = none := by
  induction turns with
  | zero => rfl
  | succ turns ih =>
    rw [doubleLoop, if_pos (Nat.zero_le maxSize)]
    exact ih

theorem double_two_pow {j : Nat} (hj : j ≤ 62) : 2 ^ j * 2 % 2 ^ 64 = 2 ^ (j + 1) := by
  rw [← Nat.pow_succ]
  exact Nat.mod_eq_of_lt (Nat.pow_lt_pow_right (by omega) (by omega))

theorem doubleLoop_eq {maxSize x turns j : Nat} (hj : j ≤ 63) (hpos : 0 < maxSize)
    (hle : j = 0 ∨ 2 ^ (j - 1) ≤ maxSize) (h : doubleLoop maxSize turns (2 ^ j) = some x) :
    ∃ i, i ≤ 62 ∧ x = 2 ^ (i + 1) ∧ 2 ^ i ≤ maxSize ∧ maxSize < 2 ^ (i + 1) := by
  induction turns generalizing j with
  | zero => cases h
  | succ turns ih =>
    rw [doubleLoop] at h
    split at h
    · rename_i hge
      by_cases h63 : j = 63
      · have hzero : 2 ^ 63 * 2 % 2 ^ 64 = 0 := by decide
        rw [h63, hzero, doubleLoop_zero] at h
        cases h
      · rw [double_two_pow (by omega)] at h
        exact ih (by omega) (Or.inr hge) h
    · rename_i hlt
      have hne : j ≠ 0 := by
        rintro rfl
        omega
      obtain ⟨i, rfl⟩ : ∃ i, j = i + 1 := ⟨j - 1, by omega⟩
      exact ⟨i, by omega, (Option.some_inj.mp h).symm, hle.resolve_left hne, by omega⟩

theorem doubleLoop_isSome {maxSize turns j : Nat} (hM : maxSize < 2 ^ 63) (hj : j ≤ 63)
    (hturns : 64 ≤ turns + j) : (doubleLoop maxSize turns (2 ^ j)).isSome = true := by
  induction turns generalizing j with
  | zero => omega
  | succ turns ih =>
    rw [doubleLoop]
    split
    · rename_i hge
      have hlt : j < 63 := (Nat.pow_lt_pow_iff_right (show 1 < 2 by omega)).mp (by omega)
      rw [double_two_pow (by omega)]
      exact ih (by omega) (by omega)
    · rfl

theorem newEntries_eq {maxSize : BitVec 64} {n : Nat} (h : newEntries maxSize = some n) :
    ∃ e, 16 ≤ e ∧ e ≤ 58 ∧ n = 2 ^ e ∧ n * 16 ≤ atLeastMega maxSize ∧
      atLeastMega maxSize < 2 * (n * 16) := by
  rw [newEntries] at h
  obtain ⟨x, hx, rfl⟩ := Option.map_eq_some_iff.mp h
  have hmega : 2 ^ 20 ≤ atLeastMega maxSize := le_max_right _ _
  obtain ⟨i, hi, rfl, hlo, hhi⟩ := doubleLoop_eq (j := 0) (by omega) (by omega) (Or.inl rfl) hx
  have hi20 : 20 < i + 1 := (Nat.pow_lt_pow_iff_right (show 1 < 2 by omega)).mp (by omega)
  obtain ⟨e, rfl⟩ : ∃ e, i = e + 4 := ⟨i - 4, by omega⟩
  have h4 : 2 ^ (e + 4) = 2 ^ e * 16 := Nat.pow_add 2 e 4
  have h5 : 2 ^ (e + 4 + 1) = 2 ^ e * 16 * 2 := by rw [Nat.pow_succ, h4]
  exact ⟨e, by omega, by omega, by omega, by omega, by omega⟩

theorem newEntries_isSome {maxSize : BitVec 64} (h : maxSize.toNat < 2 ^ 63) :
    (newEntries maxSize).isSome = true := by
  rw [newEntries, Option.isSome_map]
  exact doubleLoop_isSome (j := 0) (max_lt h (by omega)) (by omega) (by omega)

theorem slot_two_pow {e : Nat} (he : e ≤ 63) (key : BoardHash) :
    slot (2 ^ e) key = key.toNat % 2 ^ e := by
  have hlt : 2 ^ e - 1 < 2 ^ 64 := by
    have := Nat.pow_lt_pow_right (show 1 < 2 by omega) (show e < 64 by omega)
    omega
  rw [slot, BitVec.toNat_and, BitVec.toNat_ofNat, Nat.mod_eq_of_lt hlt, Nat.and_two_pow_sub_one_eq_mod]

end Sizes

end SoFCheck.Search.TranspositionTable
