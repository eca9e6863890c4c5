import SoFCheck.Util.Bits

namespace SoFCheck.Util.Words

open SoFCheck.Util.Bits

def rotateRight (x : BitVec 64) (shift : Nat) : BitVec 64 :=
  if shift = 0 then x else (x >>> shift) ||| (x <<< (64 - shift))

section Hash

def hashK2 : BitVec 64 := 0x9ae16a3b2f90404f

def hashFinalize (u v mul : BitVec 64) : BitVec 64 :=
  let a := (u ^^^ v) * mul
  let a := a ^^^ (a >>> 47)
  let b := (v ^^^ a) * mul
  let b := b ^^^ (b >>> 47)
  b * mul

/-- The hash of a pair of words. -/
def hash16 (v0 v1 : BitVec 64) : BitVec 64 :=
  let len : BitVec 64 := 16
  let mul := hashK2 + len * 2
  let a := v0 + hashK2
  let b := v1
  let c := rotateRight b 37 * mul + a
  let d := (rotateRight a 25 + b) * mul
  hashFinalize c d mul

end Hash

section Bytes

/-- The bitwise OR of the bytes. -/
def byteGather (x : BitVec 64) : BitVec 8 :=
  let x := x ||| (x >>> 32)
  let x := x ||| (x >>> 16)
  let x := x ||| (x >>> 8)
  x.setWidth 8

/-- Eight copies of a byte. -/
def byteScatter (x : BitVec 8) : BitVec 64 := x.setWidth 64 * 0x0101010101010101

theorem hasBit_byteGather (x : BitVec 64) (j : Fin 8) :
    hasBit (byteGather x) j = true ↔ ∃ s : Fin 64, hasBit x s = true ∧ s.val % 8 = j.val := by
  have hbits : hasBit (byteGather x) j = true ↔ ∃ k : Fin 8, x.getLsbD (8 * k + j) = true := by
    simp only [byteGather, hasBit, BitVec.getLsbD_setWidth, BitVec.getLsbD_or,
      BitVec.getLsbD_ushiftRight, j.isLt, decide_true, Bool.true_and, Bool.or_eq_true]
    constructor
    · rintro (((h | h) | h | h) | (h | h) | h | h)
      · exact ⟨0, by simpa using h⟩
      · exact ⟨4, h⟩
      · exact ⟨2, h⟩
      · exact ⟨6, by simpa [← Nat.add_assoc] using h⟩
      · exact ⟨1, h⟩
      · exact ⟨5, by simpa [← Nat.add_assoc] using h⟩
      · exact ⟨3, by simpa [← Nat.add_assoc] using h⟩
      · exact ⟨7, by simpa [← Nat.add_assoc] using h⟩
    · rintro ⟨k, hk⟩
      fin_cases k <;> simp [← Nat.add_assoc] at hk ⊢ <;> simp [hk]
  rw [hbits]
  constructor
  · rintro ⟨k, hk⟩
    exact ⟨⟨8 * k + j, by omega⟩, hk, by simp only; omega⟩
  · rintro ⟨s, hs, hmod⟩
    refine ⟨⟨s / 8, by omega⟩, ?_⟩
    have hval : 8 * (s.val / 8) + j.val = s.val := by omega
    rw [hval]
    exact hs

theorem hasBit_byteScatter (x : BitVec 8) (s : Fin 64) :
    hasBit (byteScatter x) s = x.getLsbD (s % 8) := by
  revert x s
  decide +kernel

end Bytes

end SoFCheck.Util.Words
