import SoFCheck.Util.Bits

namespace SoFCheck.Core.Types

open SoFCheck.Util.Bits

abbrev Bitboard := BitVec 64

/-- `coord_t`. A stored coordinate may be `invalidCoord` or, in a move that is
not well-formed, any other byte. -/
abbrev Coord := Int8

abbrev Subcoord := Int8

/-- `cell_t`, the contents of a cell as the source encodes it. -/
abbrev Cell := Int8

abbrev BoardHash := BitVec 64

/-- The index of one of the 64 cells, row by row from a8. -/
abbrev Square := Fin 64

instance instNeZeroRows : NeZero 8 := ⟨by decide⟩

instance instNeZeroCells : NeZero 64 := ⟨by decide⟩

instance : LawfulBEq Square := inferInstance

inductive Color where
  | white
  | black
  deriving DecidableEq, Repr

instance : Fintype Color := ⟨{.white, .black}, fun c => by cases c <;> simp⟩

inductive Piece where
  | pawn
  | king
  | knight
  | bishop
  | rook
  | queen
  deriving DecidableEq, Repr

instance : Fintype Piece :=
  ⟨{.pawn, .king, .knight, .bishop, .rook, .queen}, fun p => by cases p <;> simp⟩

def whiteOffset : Cell := 1
def blackOffset : Cell := 9
def emptyCell : Cell := 0
def invalidCoord : Coord := -1

/-- Castling flags. The enumeration is a byte with the bitwise operators. -/
abbrev Castling := BitVec 8

namespace Castling

def none : Castling := 0
def whiteQueenside : Castling := 1
def whiteKingside : Castling := 2
def blackQueenside : Castling := 4
def blackKingside : Castling := 8
def all : Castling := 15

end Castling

def castlingQueenside (c : Color) : Castling :=
  if c = .white then Castling.whiteQueenside else Castling.blackQueenside

def castlingKingside (c : Color) : Castling :=
  if c = .white then Castling.whiteKingside else Castling.blackKingside

def has (c : Castling) : Bool := c != Castling.none

def invert : Color → Color
  | .white => .black
  | .black => .white

def makeCoord (x y : Subcoord) : Coord := (x <<< 3) ||| y

def coordX (coord : Coord) : Subcoord := coord >>> 3

def coordY (coord : Coord) : Subcoord := coord &&& 7

/-- The array index of a coordinate that lies on the board. -/
def toSquare (coord : Coord) : Square := Fin.ofNat 64 coord.toBitVec.toNat

def toCoord (s : Square) : Coord := Int8.ofNat s.val

def coordToBitboard (s : Square) : Bitboard := single s

def colorOffset (color : Color) : Cell := if color = .white then whiteOffset else blackOffset

def isCellValid (c : Cell) : Bool :=
  c == emptyCell || (whiteOffset ≤ c && c ≤ whiteOffset + 5) ||
    (blackOffset ≤ c && c ≤ blackOffset + 5)

def cellPieceColor (c : Cell) : Color := if c < 8 then .white else .black

def Piece.code : Piece → Cell
  | .pawn => 0
  | .king => 1
  | .knight => 2
  | .bishop => 3
  | .rook => 4
  | .queen => 5

def makeCell (color : Color) (piece : Piece) : Cell := colorOffset color + piece.code

@[simp] theorem toSquare_toCoord (s : Square) : toSquare (toCoord s) = s := by
  revert s
  decide

theorem toCoord_injective : Function.Injective toCoord :=
  Function.LeftInverse.injective toSquare_toCoord

@[simp] theorem toCoord_inj {s t : Square} : toCoord s = toCoord t ↔ s = t :=
  toCoord_injective.eq_iff

theorem toCoord_ne_invalidCoord (s : Square) : toCoord s ≠ invalidCoord := by
  revert s
  decide

theorem toCoord_toSquare {c : Coord} (h : 0 ≤ c) (h' : c < 64) : toCoord (toSquare c) = c := by
  have hb : ∀ b : BitVec 8, (0 : Int8) ≤ ⟨⟨b⟩⟩ → (⟨⟨b⟩⟩ : Int8) < 64 →
      toCoord (toSquare ⟨⟨b⟩⟩) = ⟨⟨b⟩⟩ := by decide +kernel
  exact hb c.toBitVec h h'

@[simp] theorem invert_invert (c : Color) : invert (invert c) = c := by cases c <;> rfl

@[simp] theorem invert_ne (c : Color) : invert c ≠ c := by cases c <;> decide

@[simp] theorem ne_invert (c : Color) : c ≠ invert c := by cases c <;> decide

theorem eq_or_eq_invert (c d : Color) : d = c ∨ d = invert c := by
  cases c <;> cases d <;> simp [invert]

@[simp] theorem makeCell_inj {c d : Color} {p q : Piece} :
    makeCell c p = makeCell d q ↔ c = d ∧ p = q := by
  revert c d p q
  decide

@[simp] theorem makeCell_ne_emptyCell (c : Color) (p : Piece) : makeCell c p ≠ emptyCell := by
  revert c p
  decide

@[simp] theorem emptyCell_ne_makeCell (c : Color) (p : Piece) : emptyCell ≠ makeCell c p :=
  (makeCell_ne_emptyCell c p).symm

@[simp] theorem cellPieceColor_makeCell (c : Color) (p : Piece) :
    cellPieceColor (makeCell c p) = c := by
  revert c p
  decide

@[simp] theorem isCellValid_makeCell (c : Color) (p : Piece) : isCellValid (makeCell c p) := by
  revert c p
  decide

theorem isCellValid_iff {x : Cell} :
    isCellValid x = true ↔ x = emptyCell ∨ ∃ c p, x = makeCell c p := by
  have hb : ∀ b : BitVec 8, isCellValid ⟨⟨b⟩⟩ = true →
      (⟨⟨b⟩⟩ : Cell) = emptyCell ∨ ∃ c p, (⟨⟨b⟩⟩ : Cell) = makeCell c p := by decide +kernel
  refine ⟨hb x.toBitVec, ?_⟩
  rintro (rfl | ⟨c, p, rfl⟩)
  · rfl
  · cases c <;> cases p <;> rfl

end SoFCheck.Core.Types
