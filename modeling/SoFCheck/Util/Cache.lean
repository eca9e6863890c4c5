import Mathlib

namespace SoFCheck.Util.Cache

variable {Key Slot Value : Type}

structure Entry (Key Value : Type) where
  key : Key
  value : Value

/-- Where the value of a key is kept, and how a value tells that it is one. -/
structure Layout (Key Slot Value : Type) where
  indexFromKey : Key → Slot
  isValid : Value → Bool

/-- What a key may be mapped to. -/
def Truthful (layout : Layout Key Slot Value) (Spec : Key → Value → Prop)
    (entries : Slot → Entry Key Value) : Prop :=
  ∀ i, layout.isValid (entries i).value = true → Spec (entries i).key (entries i).value

variable [DecidableEq Key] [DecidableEq Slot]

/-- The value that is kept for `key`; if there is none, that of `func`, which then takes the
place of whatever shares its slot. -/
def get (layout : Layout Key Slot Value) (entries : Slot → Entry Key Value) (key : Key)
    (func : Unit → Value) : Value × (Slot → Entry Key Value) :=
  let index := layout.indexFromKey key
  let entry := entries index
  if entry.key = key ∧ layout.isValid entry.value = true then (entry.value, entries)
  else
    let value := func ()
    (value, Function.update entries index ⟨key, value⟩)

variable {layout : Layout Key Slot Value} {Spec : Key → Value → Prop}
  {entries : Slot → Entry Key Value} {key : Key} {func : Unit → Value}

omit [DecidableEq Key] [DecidableEq Slot] in
theorem truthful_of_invalid (h : ∀ i, layout.isValid (entries i).value = false) :
    Truthful layout Spec entries := by
  intro i hi
  rw [h i] at hi
  cases hi

theorem get_spec (h : Truthful layout Spec entries) (hfunc : Spec key (func ())) :
    Spec key (get layout entries key func).1 := by
  rw [get]
  split
  · rename_i hhit
    have hi := h _ hhit.2
    rwa [hhit.1] at hi
  · exact hfunc

theorem truthful_get (h : Truthful layout Spec entries) (hfunc : Spec key (func ())) :
    Truthful layout Spec (get layout entries key func).2 := by
  rw [get]
  split
  · exact h
  · intro i hi
    dsimp only at hi ⊢
    by_cases hindex : i = layout.indexFromKey key
    · subst hindex
      rw [Function.update_self]
      exact hfunc
    · rw [Function.update_of_ne hindex] at hi ⊢
      exact h i hi

end SoFCheck.Util.Cache
