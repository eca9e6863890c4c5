import SoFCheck.Util.CString

namespace SoFCheck.Util.Strutil

open SoFCheck.Util.CString

def isSpace (ch : Byte) : Bool := ch == '\n' || ch == '\t' || ch == '\r' || ch == ' '

def asciiToLower (c : Byte) : Byte :=
  if ('A' : Byte) ≤ c ∧ c ≤ 'Z' then c - ('A' : Byte) + 'a' else c

section Tokens

variable {ε : Type}

def bytes (str : String) : List Byte := str.toList.map Char.toUInt8

/-- The part of a string that a pointer to its first character gives access to. -/
def cString (str : List Byte) : List Byte := str.takeWhile (· != 0)

/-- The maximal parts of a string without spaces. -/
def tokensOf (sp : Byte → Bool) (str : List Byte) : List (List Byte) :=
  (str.splitOnP sp).filter (· != [])

def scanTokenEnd : Scanner ε (List Byte) := span fun c => c != 0 && !isSpace c

def scanTokenStart : Scanner ε (List Byte) := span isSpace

/-- The characters that a token is made of. -/
def isVisible (c : Byte) : Bool := c != 0 && !isSpace c

/-- The first token, and the string from where the next one starts. -/
def scanToken (str : List Byte) : List Byte × List Byte :=
  (str.takeWhile isVisible, (str.dropWhile isVisible).dropWhile isSpace)

def trim (str : List Byte) : List Byte := (str.dropWhile isSpace).rdropWhile isSpace

end Tokens

section Words

variable {c : Byte} {w str : List Byte}

theorem not_isSpace_of_isVisible (h : isVisible c = true) : isSpace c = false := by
  rw [isVisible, Bool.and_eq_true, Bool.not_eq_true'] at h
  exact h.2

/-- What one token is made of. -/
structure Word (w : List Byte) : Prop where
  nonempty : w ≠ []
  visible : ∀ c ∈ w, isVisible c = true

instance (w : List Byte) : Decidable (Word w) :=
  decidable_of_iff (w ≠ [] ∧ ∀ c ∈ w, isVisible c = true) ⟨fun h => ⟨h.1, h.2⟩, fun h => ⟨h.1, h.2⟩⟩

/-- A string without a space on either side. -/
structure Trimmed (str : List Byte) : Prop where
  head : ∀ c ∈ str.head?, isSpace c = false
  last : ∀ c ∈ str.getLast?, isSpace c = false

theorem Word.trimmed (h : Word w) : Trimmed w where
  head c hc := not_isSpace_of_isVisible (h.visible c (List.mem_of_mem_head? hc))
  last c hc := not_isSpace_of_isVisible (h.visible c (List.mem_of_mem_getLast? hc))

theorem Trimmed.append_left (hw : Word w) (h : Trimmed str) (hne : str ≠ []) :
    Trimmed (w ++ (' ' : Byte) :: str) where
  head c hc := by
    rw [List.head?_append_of_ne_nil _ hw.nonempty] at hc
    exact hw.trimmed.head c hc
  last c hc := by
    rw [← List.singleton_append, ← List.append_assoc, List.getLast?_append_of_ne_nil _ hne] at hc
    exact h.last c hc

theorem dropWhile_isSpace (h : ∀ c ∈ str.head?, isSpace c = false) :
    str.dropWhile isSpace = str := by
  cases str with
  | nil => rfl
  | cons c str => rw [List.dropWhile_cons_of_neg (by simp [h c rfl])]

theorem Trimmed.trim_eq (h : Trimmed str) : trim str = str := by
  rw [trim, dropWhile_isSpace h.head, List.rdropWhile_eq_self_iff]
  intro hne
  simp [h.last _ (List.getLast?_eq_getLast_of_ne_nil hne)]

theorem Word.scanToken_eq (h : Word w) : scanToken w = (w, []) := by
  rw [scanToken, List.takeWhile_eq_self_iff.mpr h.visible, List.dropWhile_eq_nil_iff.mpr h.visible]
  rfl

theorem Word.scanToken_append (h : Word w) (str : List Byte) :
    scanToken (w ++ (' ' : Byte) :: str) = (w, str.dropWhile isSpace) := by
  have hsp : isVisible ' ' = false := by decide
  rw [scanToken, List.takeWhile_append_of_pos h.visible, List.dropWhile_append_of_pos h.visible,
    List.takeWhile_cons_of_neg (by simp [hsp]), List.dropWhile_cons_of_neg (by simp [hsp]),
    List.dropWhile_cons_of_pos (by decide), List.append_nil]

theorem Word.scanToken_trim (h : Word w) (hstr : Trimmed str) :
    scanToken (trim (w ++ (' ' : Byte) :: str)) = (w, str) := by
  by_cases hne : str = []
  · have htrim : trim (w ++ [(' ' : Byte)]) = trim w := by
      have hdrop : (w ++ [(' ' : Byte)]).dropWhile isSpace = w ++ [(' ' : Byte)] := by
        apply dropWhile_isSpace
        rw [List.head?_append_of_ne_nil _ h.nonempty]
        exact h.trimmed.head
      rw [trim, hdrop, List.rdropWhile_concat_pos _ _ _ (by decide), trim,
        dropWhile_isSpace h.trimmed.head]
    rw [hne, htrim, h.trimmed.trim_eq, h.scanToken_eq]
  · rw [(hstr.append_left h hne).trim_eq, h.scanToken_append, dropWhile_isSpace hstr.head]

theorem cString_eq_self (h : (0 : Byte) ∉ str) : cString str = str := by
  rw [cString, List.takeWhile_eq_self_iff]
  intro c hc
  rw [bne_iff_ne]
  exact ne_of_mem_of_not_mem hc h

theorem cString_append_zero (h : (0 : Byte) ∉ str) : cString (str ++ [0]) = str := by
  rw [cString, List.takeWhile_append_of_pos, List.takeWhile_cons_of_neg (by decide),
    List.append_nil]
  intro c hc
  rw [bne_iff_ne]
  exact ne_of_mem_of_not_mem hc h

theorem tokensOf_words {ws : List (List Byte)} (hw : Word w) (hws : ∀ w ∈ ws, Word w) :
    tokensOf isSpace (w ++ ws.flatMap fun w => (' ' : Byte) :: w) = w :: ws := by
  have hsp : ∀ c ∈ w, isSpace c = false := fun c hc => not_isSpace_of_isVisible (hw.visible c hc)
  induction ws generalizing w with
  | nil =>
    rw [List.flatMap_nil, List.append_nil, tokensOf, List.splitOnP_eq_singleton hsp]
    simp [hw.nonempty]
  | cons w' ws ih =>
    obtain ⟨hw', hws⟩ := List.forall_mem_cons.mp hws
    have ih' := ih hw' hws fun c hc => not_isSpace_of_isVisible (hw'.visible c hc)
    rw [tokensOf] at ih' ⊢
    rw [List.flatMap_cons, List.cons_append,
      List.splitOnP_append_cons_of_forall_mem hsp _ (by decide),
      List.filter_cons_of_pos (by simp [hw.nonempty]), ih']

theorem trimmed_words {ws : List (List Byte)} (hw : Word w) (hws : ∀ w ∈ ws, Word w) :
    Trimmed (w ++ ws.flatMap fun w => (' ' : Byte) :: w) := by
  induction ws generalizing w with
  | nil =>
    rw [List.flatMap_nil, List.append_nil]
    exact hw.trimmed
  | cons w' ws ih =>
    obtain ⟨hw', hws⟩ := List.forall_mem_cons.mp hws
    apply (ih hw' hws).append_left hw
    simp [hw'.nonempty]

theorem mem_words {ws : List (List Byte)} (hw : Word w) (hws : ∀ w ∈ ws, Word w)
    (hc : c ∈ w ++ ws.flatMap fun w => (' ' : Byte) :: w) : isVisible c = true ∨ c = ' ' := by
  rw [List.mem_append, List.mem_flatMap] at hc
  obtain hc | ⟨w', hw', hc⟩ := hc
  · exact Or.inl (hw.visible c hc)
  · obtain hc | hc := List.mem_cons.mp hc
    · exact Or.inr hc
    · exact Or.inl ((hws w' hw').visible c hc)

end Words

section Numbers

def isDigit (c : Byte) : Bool := ('0' : Byte) ≤ c && c ≤ '9'

def digitValue (c : Byte) : Nat := (c - ('0' : Byte)).toNat

def digitChar (d : Nat) : Byte := ('0' : Byte) + UInt8.ofNat d

/-- The number that a string of digits denotes. -/
def numeral (str : List Byte) : Nat := str.foldl (fun n c => 10 * n + digitValue c) 0

/-- `std::from_chars` for an unsigned type: the number and what follows it. It
takes no sign, and `none` is an error. -/
def fromChars (max : Nat) (str : List Byte) : Option (Nat × List Byte) :=
  let digits := str.takeWhile isDigit
  if digits = [] then none
  else if numeral digits ≤ max then some (numeral digits, str.dropWhile isDigit)
  else none

def valueFromStr (max : Nat) (str : List Byte) : Option Nat :=
  match fromChars max str with
  | some (value, []) => some value
  | _ => none

/-- `std::to_chars` for an unsigned type. -/
def toChars (n : Nat) : List Byte :=
  if n = 0 then ['0'] else (Nat.digits 10 n).reverse.map digitChar

theorem valueFromStr_eq_some {max v : Nat} {str : List Byte} : valueFromStr max str = some v ↔
    str ≠ [] ∧ (∀ c ∈ str, isDigit c = true) ∧ numeral str ≤ max ∧ v = numeral str := by
  by_cases hall : ∀ c ∈ str, isDigit c = true
  · have ht : str.takeWhile isDigit = str := List.takeWhile_eq_self_iff.mpr hall
    have hd : str.dropWhile isDigit = [] := List.dropWhile_eq_nil_iff.mpr hall
    rw [valueFromStr, fromChars, ht, hd]
    by_cases hne : str = []
    · simp [hne]
    · rw [if_neg hne]
      by_cases hm : numeral str ≤ max
      · rw [if_pos hm]
        simp only [Option.some.injEq]
        exact ⟨fun h => ⟨hne, hall, hm, h.symm⟩, fun h => h.2.2.2.symm⟩
      · rw [if_neg hm]
        simp [hm]
  · have hd : str.dropWhile isDigit ≠ [] := fun h => hall (List.dropWhile_eq_nil_iff.mp h)
    have hnone : valueFromStr max str = none := by
      rw [valueFromStr]
      split
      · rename_i v' h
        simp only [fromChars] at h
        split_ifs at h
        exact absurd (Prod.mk.inj (Option.some.inj h)).2 hd
      · rfl
    rw [hnone]
    simp [hall]

theorem digitChar_spec : ∀ d < 10, isDigit (digitChar d) = true ∧ digitValue (digitChar d) = d := by
  decide

theorem numeral_map_reverse {l : List Nat} (h : ∀ d ∈ l, d < 10) :
    numeral (l.reverse.map digitChar) = Nat.ofDigits 10 l := by
  induction l with
  | nil => rfl
  | cons d l ih =>
    rw [List.forall_mem_cons] at h
    have ih' := ih h.2
    rw [numeral] at ih' ⊢
    rw [List.reverse_cons, List.map_append, List.foldl_append, ih', Nat.ofDigits_cons]
    simp only [List.map_cons, List.map_nil, List.foldl_cons, List.foldl_nil,
      (digitChar_spec d h.1).2]
    omega

theorem numeral_toChars (n : Nat) : numeral (toChars n) = n := by
  rw [toChars]
  split
  · rename_i h
    rw [h]
    decide
  · rw [numeral_map_reverse fun d hd => Nat.digits_lt_base (by decide) hd, Nat.ofDigits_digits]

theorem toChars_ne_nil (n : Nat) : toChars n ≠ [] := by
  rw [toChars]
  split
  · simp
  · rename_i h
    simpa [Nat.digits_eq_nil_iff_eq_zero] using h

theorem isDigit_of_mem_toChars {n : Nat} {c : Byte} (h : c ∈ toChars n) : isDigit c = true := by
  rw [toChars] at h
  split at h
  · rw [List.mem_singleton.mp h]
    decide
  · obtain ⟨d, hd, rfl⟩ := List.mem_map.mp h
    exact (digitChar_spec d (Nat.digits_lt_base (by decide) (List.mem_reverse.mp hd))).1

theorem length_toChars {n k : Nat} (hk : 0 < k) (h : n < 10 ^ k) : (toChars n).length ≤ k := by
  rw [toChars]
  split
  · exact hk
  · rw [List.length_map, List.length_reverse]
    exact (Nat.digits_length_le_iff (by decide) n).mpr h

end Numbers

end SoFCheck.Util.Strutil
