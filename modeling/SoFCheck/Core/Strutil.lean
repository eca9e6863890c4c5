import SoFCheck.Core.Moves
import SoFCheck.Util.Strutil

namespace SoFCheck.Core.Strutil

open SoFCheck.Util.CString
open SoFCheck.Core.Types SoFCheck.Core.Moves

def cellToChar (cell : Cell) : Byte :=
  if cell < 0 ∨ cell ≥ 16 then '?'
  else (".PKNBRQ??pknbrq?".toList.map Char.toUInt8).getD cell.toNatClampNeg '?'

def isXCharValid (c : Byte) : Bool := ('1' : Byte) ≤ c && c ≤ '8'

def isYCharValid (c : Byte) : Bool := ('a' : Byte) ≤ c && c ≤ 'h'

def xSubToChar (x : Subcoord) : Byte := ('8' : Byte) - x.toUInt8

def ySubToChar (y : Subcoord) : Byte := ('a' : Byte) + y.toUInt8

def charToSubX (c : Byte) : Subcoord := (('8' : Byte) - c).toInt8

def charToSubY (c : Byte) : Subcoord := (c - ('a' : Byte)).toInt8

def charsToCoord (cy cx : Byte) : Coord := makeCoord (charToSubX cx) (charToSubY cy)

/-- The letters of the pieces in the order of their codes. -/
def transpos (piece : Piece) : Byte :=
  ("pknbrq".toList.map Char.toUInt8).getD piece.code.toNatClampNeg 0

def nullMoveStr : List Byte := "0000".toList.map Char.toUInt8

def moveToStr (move : Move) : List Byte :=
  if move.kind = .null then nullMoveStr
  else
    [ySubToChar (coordY move.src), xSubToChar (coordX move.src),
      ySubToChar (coordY move.dst), xSubToChar (coordX move.dst)] ++
      if isMoveKindPromote move.kind then [transpos (moveKindPromotePiece move.kind)] else []

section Chars

theorem exists_column {c : Byte} (h : isYCharValid c = true) :
    ∃ y : Fin 8, charToSubY c = Int8.ofNat y ∧ ySubToChar (Int8.ofNat y) = c := by
  have hb : ∀ b : BitVec 8, isYCharValid ⟨b⟩ = true →
      ∃ y : Fin 8, charToSubY ⟨b⟩ = Int8.ofNat y ∧ ySubToChar (Int8.ofNat y) = ⟨b⟩ := by
    decide +kernel
  exact hb c.toBitVec h

theorem exists_row {c : Byte} (h : isXCharValid c = true) :
    ∃ x : Fin 8, charToSubX c = Int8.ofNat x ∧ xSubToChar (Int8.ofNat x) = c := by
  have hb : ∀ b : BitVec 8, isXCharValid ⟨b⟩ = true →
      ∃ x : Fin 8, charToSubX ⟨b⟩ = Int8.ofNat x ∧ xSubToChar (Int8.ofNat x) = ⟨b⟩ := by
    decide +kernel
  exact hb c.toBitVec h

theorem isYCharValid_coordY : ∀ s : Square, isYCharValid (ySubToChar (coordY (toCoord s))) = true := by
  decide

theorem isXCharValid_coordX : ∀ s : Square, isXCharValid (xSubToChar (coordX (toCoord s))) = true := by
  decide

@[simp] theorem charsToCoord_toCoord : ∀ s : Square,
    charsToCoord (ySubToChar (coordY (toCoord s))) (xSubToChar (coordX (toCoord s))) =
      toCoord s := by
  decide

theorem toChars_charsToCoord {y x : Byte} (hy : isYCharValid y = true) (hx : isXCharValid x = true) :
    ySubToChar (coordY (charsToCoord y x)) = y ∧ xSubToChar (coordX (charsToCoord y x)) = x := by
  obtain ⟨j, hj, rfl⟩ := exists_column hy
  obtain ⟨i, hi, rfl⟩ := exists_row hx
  have hsub : ∀ i j : Fin 8, coordY (makeCoord (Int8.ofNat i) (Int8.ofNat j)) = Int8.ofNat j ∧
      coordX (makeCoord (Int8.ofNat i) (Int8.ofNat j)) = Int8.ofNat i := by decide
  rw [charsToCoord, hi, hj, (hsub i j).1, (hsub i j).2]
  exact ⟨rfl, rfl⟩

end Chars

end SoFCheck.Core.Strutil
