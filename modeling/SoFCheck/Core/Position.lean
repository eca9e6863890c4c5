import SoFCheck.Core.Validate

namespace SoFCheck.Core.Position

open SoFCheck.Util.Bits
open SoFCheck.Core.Types SoFCheck.Core.Grid SoFCheck.Core.Geometry SoFCheck.Core.BoardState
open SoFCheck.Core.Attack SoFCheck.Core.Mailbox SoFCheck.Core.Validate

def pieceOf (x : Cell) : Option (Color × Piece) :=
  ([Color.white, Color.black].flatMap fun c =>
    ([Piece.pawn, .king, .knight, .bishop, .rook, .queen].map fun pc => (c, pc))).find? fun w =>
      x == makeCell w.1 w.2

def enpassantOf (b : Board) : Option Square :=
  if b.enpassantCoord = invalidCoord then none else some (toSquare b.enpassantCoord)

/-- The position that a board stands for. -/
def position (b : Board) : Position where
  pieceAt s := pieceOf (b.cells s)
  side := b.side
  kingside := isKingsideCastling b
  queenside := isQueensideCastling b
  enpassant := enpassantOf b

theorem pieceOf_makeCell (c : Color) (pc : Piece) : pieceOf (makeCell c pc) = some (c, pc) := by
  revert c pc
  decide

theorem pieceOf_eq_some {x : Cell} {c : Color} {pc : Piece} :
    pieceOf x = some (c, pc) ↔ x = makeCell c pc := by
  constructor
  · intro h
    simpa using List.find?_some h
  · rintro rfl
    exact pieceOf_makeCell c pc

theorem pieceOf_eq_none {x : Cell} (hx : isCellValid x = true) :
    pieceOf x = none ↔ x = emptyCell := by
  constructor
  · intro h
    rcases isCellValid_iff.mp hx with he | ⟨c, pc, rfl⟩
    · exact he
    · rw [pieceOf_makeCell] at h
      cases h
  · rintro rfl
    decide

variable {b : Board}

@[simp] theorem position_side : (position b).side = b.side := rfl

theorem pieceAt_eq_some {s : Square} {c : Color} {pc : Piece} :
    (position b).pieceAt s = some (c, pc) ↔ b.cells s = makeCell c pc := pieceOf_eq_some

theorem pieceAt_eq_none (hv : ∀ s, isCellValid (b.cells s) = true) {s : Square} :
    (position b).pieceAt s = none ↔ b.cells s = emptyCell := pieceOf_eq_none (hv s)

theorem own_iff {s : Square} :
    (position b).Own s ↔ ∃ pc, b.cells s = makeCell b.side pc :=
  exists_congr fun _ => pieceAt_eq_some

theorem enemy_iff {s : Square} :
    (position b).Enemy s ↔ ∃ pc, b.cells s = makeCell (invert b.side) pc :=
  exists_congr fun _ => pieceAt_eq_some

section Synced

variable (hv : ∀ s, isCellValid (b.cells s) = true) (hs : Synced b)

include hv hs

theorem hasBit_bbColor {c : Color} {s : Square} :
    hasBit (bbColor b c) s = true ↔ ∃ pc, b.cells s = makeCell c pc := by
  rw [hs.color, decide_eq_true_eq]
  constructor
  · rintro ⟨hne, hc⟩
    rcases isCellValid_iff.mp (hv s) with he | ⟨d, pc, he⟩
    · exact absurd he hne
    · rw [he, cellPieceColor_makeCell] at hc
      exact ⟨pc, hc ▸ he⟩
  · rintro ⟨pc, he⟩
    simp [he]

theorem hasBit_bbAll {s : Square} : hasBit b.bbAll s = (position b).occupied s := by
  have hw := hs.color .white s
  have hk := hs.color .black s
  simp only [bbColor, if_true, reduceCtorEq, if_false] at hw hk
  rw [hs.all, hasBit_or, hw, hk, Position.occupied]
  rcases isCellValid_iff.mp (hv s) with he | ⟨d, pc, he⟩
  · rw [(pieceAt_eq_none hv).mpr he]
    simp [he]
  · rw [pieceAt_eq_some.mpr he]
    cases d <;> simp [he]

theorem occupied_eq : hasBit b.bbAll = (position b).occupied := funext fun _ => hasBit_bbAll hv hs

theorem not_hasBit_bbAll {s : Square} : hasBit b.bbAll s = false ↔ b.cells s = emptyCell := by
  rw [hasBit_bbAll hv hs, Position.occupied, Option.isSome_eq_false_iff, Option.isNone_iff_eq_none,
    pieceAt_eq_none hv]

theorem isCellAttacked_iff_attacked [Globals] {c : Color} {t : Square} :
    isCellAttacked b t c = true ↔ (position b).Attacked c t := by
  rw [isCellAttacked_iff, occupied_eq hv hs]
  simp only [hasBit_bbPieces hs, Position.Attacked, pieceAt_eq_some]

omit hv in
theorem kingPos_eq {c : Color} {k : Square} (hk : ∀ s, b.cells s = makeCell c .king ↔ s = k) :
    kingPos b c = k :=
  getLowest_eq fun s => (hasBit_bbPieces hs).trans (hk s)

theorem isCellAttacked_kingPos [Globals] {c : Color}
    (hk : ∃ k, ∀ s, b.cells s = makeCell c .king ↔ s = k) :
    isCellAttacked b (kingPos b c) (invert c) = true ↔ (position b).InCheck c := by
  obtain ⟨k, hk⟩ := hk
  rw [kingPos_eq hs hk, isCellAttacked_iff_attacked hv hs, Position.InCheck]
  simp only [pieceAt_eq_some, hk, exists_eq_left]

end Synced

theorem isCheck_iff [Globals] (h : Regular b) : isCheck b = true ↔ (position b).InCheck b.side :=
  isCellAttacked_kingPos h.cells h.synced (h.king b.side)

theorem wasMoveLegal_iff [Globals] (h : Regular b) :
    wasMoveLegal b = true ↔ ¬(position b).InCheck (invert b.side) := by
  rw [wasMoveLegal, Bool.not_eq_true', ← Bool.not_eq_true, ← isCellAttacked_kingPos h.cells h.synced
    (h.king _), invert_invert]

end SoFCheck.Core.Position
