import SoFCheck.Util.Strutil

namespace SoFCheck.Util.Ioutil

open SoFCheck.Util.CString SoFCheck.Util.Strutil

def bufferSize : Nat := 8192

/-- A writer over another one that accepts all data. `written` is what it was handed, and of
the memory of `buffer` the first `bufferSize` bytes belong to the writer. -/
structure BufWriter where
  written : List Byte
  buffer : Nat → Byte
  bufPos : Nat

namespace BufWriter

def new : BufWriter := ⟨[], fun _ => 0, 0⟩

/-- What the buffer holds. -/
def pending (w : BufWriter) : List Byte := (List.range w.bufPos).map w.buffer

def doWrite (w : BufWriter) (data : List Byte) : BufWriter :=
  { w with written := w.written ++ data }

/-- Hands over the first bytes of the buffer; `none` is a read behind its end. -/
def flush (w : BufWriter) : Option BufWriter :=
  if w.bufPos ≤ bufferSize then some { w.doWrite w.pending with bufPos := 0 } else none

/-- `std::memcpy` of `size` bytes to position `pos` of the buffer; `none` if it leaves the
buffer or the string. -/
def memcpy (buffer : Nat → Byte) (pos : Nat) (src : List Byte) (size : Nat) : Option (Nat → Byte) :=
  if pos + size ≤ bufferSize ∧ size ≤ src.length then
    some fun i => if pos ≤ i ∧ i < pos + size then src.getD (i - pos) 0 else buffer i
  else none

def writeStr (w : BufWriter) (value : List Byte) : Option BufWriter :=
  if value.length ≥ bufferSize then w.flush.map fun w => w.doWrite value
  else if w.bufPos + value.length ≥ bufferSize then
    let splitPos := bufferSize - w.bufPos
    (memcpy w.buffer w.bufPos value splitPos).bind fun buffer =>
      (flush { w with buffer := buffer, bufPos := bufferSize }).bind fun w =>
        (memcpy w.buffer 0 (value.drop splitPos) (value.length - splitPos)).map fun buffer =>
          { w with buffer := buffer, bufPos := value.length - splitPos }
  else
    (memcpy w.buffer w.bufPos value value.length).map fun buffer =>
      { w with buffer := buffer, bufPos := w.bufPos + value.length }

end BufWriter

/-- An integer of one of the types that can be written. -/
structure Integer where
  value : Int
  lower : -2 ^ 63 ≤ value
  upper : value < 2 ^ 64

/-- The text of `std::to_chars`. -/
def Integer.text (value : Integer) : List Byte :=
  if value.value < 0 then ('-' : Byte) :: toChars value.value.natAbs else toChars value.value.natAbs

namespace BufWriter

/-- `std::to_chars` into the rest of the buffer: the position behind the text, or nothing
and an unspecified rest of the buffer if the text does not fit. -/
def toCharsAt (w : BufWriter) (value : Integer) (junk : Nat → Byte) : Option Nat × BufWriter :=
  match memcpy w.buffer w.bufPos value.text value.text.length with
  | some buffer => (some (w.bufPos + value.text.length), { w with buffer := buffer })
  | none => (none, { w with buffer := fun i => if w.bufPos ≤ i then junk i else w.buffer i })

/-- `none` is a failed assertion. -/
def writeInt (w : BufWriter) (value : Integer) (junk : Nat → Byte) : Option BufWriter :=
  let result := w.toCharsAt value junk
  match result.1 with
  | some pos => some { result.2 with bufPos := pos }
  | none =>
    result.2.flush.bind fun w =>
      let result := w.toCharsAt value junk
      result.1.map fun pos => { result.2 with bufPos := pos }

end BufWriter

open BufWriter

inductive Call where
  | writeStr (value : List Byte)
  | writeInt (value : Integer) (junk : Nat → Byte)
  | flush

def Call.text : Call → List Byte
  | writeStr value => value
  | writeInt value _ => value.text
  | flush => []

def perform (w : BufWriter) : Call → Option BufWriter
  | .writeStr value => w.writeStr value
  | .writeInt value junk => w.writeInt value junk
  | .flush => w.flush

def run (w : BufWriter) (calls : List Call) : Option BufWriter := calls.foldlM perform w

/-- From `w` to `w'` the text was delivered to the writer or the buffer. -/
structure Delivers (w : BufWriter) (text : List Byte) (w' : BufWriter) : Prop where
  content : w'.written ++ w'.pending = w.written ++ w.pending ++ text
  fits : w'.bufPos ≤ bufferSize

section Steps

variable {w w' : BufWriter} {value : List Byte}

theorem flush_spec (h : w.bufPos ≤ bufferSize) :
    ∃ w', w.flush = some w' ∧ Delivers w [] w' ∧ w'.bufPos = 0 ∧
      w'.written = w.written ++ w.pending := by
  refine ⟨_, if_pos h, ⟨?_, Nat.zero_le _⟩, rfl, rfl⟩
  rw [List.append_nil]
  exact List.append_nil _

theorem memcpy_spec {buffer : Nat → Byte} {pos size : Nat} (hpos : pos + size ≤ bufferSize)
    (hsize : size ≤ value.length) :
    ∃ buffer', memcpy buffer pos value size = some buffer' ∧
      (List.range (pos + size)).map buffer' = (List.range pos).map buffer ++ value.take size := by
  refine ⟨_, if_pos ⟨hpos, hsize⟩, ?_⟩
  apply List.ext_getElem
  · simp [hsize]
  · intro i hi hi'
    rw [List.getElem_map, List.getElem_range, List.getElem_append]
    by_cases hlt : i < pos
    · simp [hlt, Nat.not_le.mpr hlt]
    · have hin : i < pos + size := by simpa using hi
      have hget : i - pos < value.length := by omega
      simp [hlt, hin, Nat.not_lt.mp hlt, hget]

theorem append_spec {size : Nat} (hfits : w.bufPos + size ≤ bufferSize) (hsize : size ≤ value.length) :
    ∃ buffer, memcpy w.buffer w.bufPos value size = some buffer ∧
      Delivers w (value.take size) { w with buffer := buffer, bufPos := w.bufPos + size } := by
  obtain ⟨buffer, hcopy, hbytes⟩ := @memcpy_spec value w.buffer w.bufPos size hfits hsize
  refine ⟨buffer, hcopy, ?_, hfits⟩
  rw [pending, hbytes, ← List.append_assoc]
  rfl

theorem Delivers.trans {text text' : List Byte} {w'' : BufWriter} (h : Delivers w text w')
    (h' : Delivers w' text' w'') : Delivers w (text ++ text') w'' where
  content := by rw [h'.content, h.content, List.append_assoc (w.written ++ w.pending)]
  fits := h'.fits

theorem writeStr_spec (h : w.bufPos ≤ bufferSize) (value : List Byte) :
    ∃ w', w.writeStr value = some w' ∧ Delivers w value w' := by
  rw [writeStr]
  by_cases hlong : value.length ≥ bufferSize
  · rw [if_pos hlong]
    obtain ⟨w₁, hflush, hd, hpos, hwritten⟩ := flush_spec h
    refine ⟨w₁.doWrite value, by rw [hflush]; rfl, ?_, hd.fits⟩
    have hempty : (w₁.doWrite value).pending = [] := by
      rw [pending, doWrite, hpos]
      rfl
    rw [hempty, List.append_nil, doWrite, hwritten]
  · rw [if_neg hlong]
    by_cases hfull : w.bufPos + value.length ≥ bufferSize
    · rw [if_pos hfull]
      dsimp only
      set splitPos := bufferSize - w.bufPos with hsplit
      have hend : w.bufPos + splitPos = bufferSize := by omega
      -- the part that fills the buffer goes out before the rest is copied
      obtain ⟨buffer, hcopy, hd₁⟩ := @append_spec w value splitPos (by omega) (by omega)
      rw [hend] at hd₁
      obtain ⟨w₂, hflush, hd₂, hpos, -⟩ := flush_spec hd₁.fits
      have hrest : (value.drop splitPos).length = value.length - splitPos := List.length_drop
      obtain ⟨buffer', hcopy', hd₃⟩ :=
        @append_spec w₂ (value.drop splitPos) (value.length - splitPos) (by omega) (by omega)
      rw [hpos] at hcopy' hd₃
      rw [hcopy, Option.bind_some, hflush, Option.bind_some, hcopy', Option.map_some]
      refine ⟨_, rfl, ?_⟩
      have hd := (hd₁.trans hd₂).trans hd₃
      rw [List.append_nil, ← hrest, List.take_length, List.take_append_drop, hrest,
        Nat.zero_add] at hd
      exact hd
    · rw [if_neg hfull]
      obtain ⟨buffer, hcopy, hd⟩ := @append_spec w value value.length (by omega) (le_refl _)
      rw [List.take_length] at hd
      exact ⟨_, by rw [hcopy]; rfl, hd⟩

theorem length_text (value : Integer) : value.text.length ≤ bufferSize := by
  have hlo := value.lower
  have hhi := value.upper
  have hdigits : (toChars value.value.natAbs).length ≤ 20 := length_toChars (by omega) (by omega)
  rw [Integer.text, bufferSize]
  split
  · rw [List.length_cons]
    omega
  · omega

theorem toCharsAt_spec (value : Integer) (junk : Nat → Byte) :
    w.bufPos + value.text.length ≤ bufferSize ∧
        (∃ buffer, w.toCharsAt value junk =
            (some (w.bufPos + value.text.length), { w with buffer := buffer }) ∧
          Delivers w value.text
            { w with buffer := buffer, bufPos := w.bufPos + value.text.length }) ∨
      ¬w.bufPos + value.text.length ≤ bufferSize ∧ (w.toCharsAt value junk).1 = none ∧
        (w.toCharsAt value junk).2.written = w.written ∧
        (w.toCharsAt value junk).2.bufPos = w.bufPos ∧
        (w.toCharsAt value junk).2.pending = w.pending := by
  by_cases hfits : w.bufPos + value.text.length ≤ bufferSize
  · obtain ⟨buffer, hcopy, hd⟩ := @append_spec w value.text _ hfits (le_refl _)
    rw [List.take_length] at hd
    exact Or.inl ⟨hfits, buffer, by rw [toCharsAt, hcopy], hd⟩
  · have hnone : memcpy w.buffer w.bufPos value.text value.text.length = none :=
      if_neg fun h => hfits h.1
    have heq : w.toCharsAt value junk =
        (none, { w with buffer := fun i => if w.bufPos ≤ i then junk i else w.buffer i }) := by
      rw [toCharsAt, hnone]
    refine Or.inr ⟨hfits, ?_⟩
    rw [heq]
    refine ⟨rfl, rfl, rfl, ?_⟩
    apply List.map_congr_left
    intro i hi
    exact if_neg (Nat.not_le.mpr (List.mem_range.mp hi))

theorem writeInt_spec (h : w.bufPos ≤ bufferSize) (value : Integer) (junk : Nat → Byte) :
    ∃ w', w.writeInt value junk = some w' ∧ Delivers w value.text w' := by
  rw [writeInt]
  dsimp only
  rcases @toCharsAt_spec w value junk with ⟨-, buffer, heq, hd⟩ | ⟨-, hnone, hwritten, hpos, hpending⟩
  · rw [heq]
    exact ⟨_, rfl, hd⟩
  · rw [hnone]
    dsimp only
    obtain ⟨w₁, hflush, hd₁, hpos₁, -⟩ := flush_spec (hpos.trans_le h)
    rw [hflush, Option.bind_some]
    have hd₁' : Delivers w [] w₁ := ⟨by rw [hd₁.content, hwritten, hpending], hd₁.fits⟩
    rcases @toCharsAt_spec w₁ value junk with ⟨-, buffer, heq, hd⟩ | ⟨hfull, -⟩
    · rw [heq]
      exact ⟨_, rfl, hd₁'.trans hd⟩
    · rw [hpos₁, Nat.zero_add] at hfull
      exact absurd (length_text value) hfull

theorem perform_spec (h : w.bufPos ≤ bufferSize) (call : Call) :
    ∃ w', perform w call = some w' ∧ Delivers w call.text w' := by
  cases call with
  | writeStr value => exact writeStr_spec h value
  | writeInt value junk => exact writeInt_spec h value junk
  | flush =>
    obtain ⟨w', hflush, hd, -⟩ := flush_spec h
    exact ⟨w', hflush, hd⟩

end Steps

theorem run_delivers {w : BufWriter} (h : w.bufPos ≤ bufferSize) (calls : List Call) :
    ∃ w', run w calls = some w' ∧ Delivers w (calls.flatMap Call.text) w' := by
  induction calls generalizing w with
  | nil => exact ⟨w, rfl, (List.append_nil _).symm, h⟩
  | cons call calls ih =>
    obtain ⟨w₁, hcall, hd₁⟩ := perform_spec h call
    obtain ⟨w₂, hcalls, hd₂⟩ := ih hd₁.fits
    refine ⟨w₂, ?_, hd₁.trans hd₂⟩
    rw [run, List.foldlM_cons, hcall]
    exact hcalls

/-- Whatever is written in whatever order, nothing fails, and what was handed over and what
is in the buffer make up everything that was written. -/
theorem run_content (calls : List Call) :
    ∃ w, run new calls = some w ∧ w.written ++ w.pending = calls.flatMap Call.text ∧
      w.bufPos ≤ bufferSize := by
  obtain ⟨w, hrun, hd⟩ := @run_delivers new (Nat.zero_le _) calls
  exact ⟨w, hrun, hd.content, hd.fits⟩

end SoFCheck.Util.Ioutil
