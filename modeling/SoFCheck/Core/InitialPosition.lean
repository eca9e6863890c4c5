import SoFCheck.Core.Position

namespace SoFCheck.Core.InitialPosition

open SoFCheck.Util.Bits
open SoFCheck.Core.Types SoFCheck.Core.Grid SoFCheck.Core.Geometry SoFCheck.Core.BoardState
open SoFCheck.Core.Attack SoFCheck.Core.Mailbox SoFCheck.Core.Validate SoFCheck.Core.Position

def homePiece (y : Nat) : Piece :=
  match y with
  | 0 | 7 => .rook
  | 1 | 6 => .knight
  | 2 | 5 => .bishop
  | 3 => .queen
  | _ => .king

def initialCells (s : Square) : Cell :=
  if row s = 1 then makeCell .black .pawn
  else if row s = 6 then makeCell .white .pawn
  else if row s = 0 then makeCell .black (homePiece (col s))
  else if row s = 7 then makeCell .white (homePiece (col s))
  else emptyCell

/-- The board of `Board::setInitialPosition` before its call of `update`. -/
def initialFields : Board where
  cells := initialCells
  unused := 0
  side := .white
  castling := Castling.all
  enpassantCoord := invalidCoord
  moveCounter := 0
  moveNumber := 1
  hash := 0
  bbWhite := 0
  bbBlack := 0
  bbAll := 0
  bbPieces := fun _ => 0

def initialPosition [Globals] : Board := update initialFields

variable [Globals]

theorem initialPosition_fields : initialPosition.cells = initialCells ∧
    initialPosition.side = .white ∧ initialPosition.castling = Castling.all ∧
    initialPosition.enpassantCoord = invalidCoord ∧ Synced initialPosition := by
  obtain ⟨h, w, k, a, p, hu, hs, -⟩ := update_spec initialFields
  have hcast : keptCastling initialCells .black (keptCastling initialCells .white Castling.all) =
      Castling.all := by decide
  have hep : (updateEnpassant initialFields).enpassantCoord = invalidCoord := by decide
  rw [initialPosition]
  refine ⟨by rw [hu]; rfl, by rw [hu]; rfl, ?_, ?_, hs⟩
  · rw [hu]
    exact hcast
  · rw [hu]
    exact hep

theorem position_update {b : Board}
    (hcast : keptCastling b.cells .black (keptCastling b.cells .white b.castling) = b.castling)
    (hep : (updateEnpassant b).enpassantCoord = b.enpassantCoord) :
    position (update b) = position b ∧ (update b).side = b.side := by
  obtain ⟨h, w, k, a, p, hu, -⟩ := update_spec b
  rw [hcast, hep] at hu
  have hk : isKingsideCastling (update b) = isKingsideCastling b :=
    funext fun c => by rw [isKingsideCastling, hu]; rfl
  have hq : isQueensideCastling (update b) = isQueensideCastling b :=
    funext fun c => by rw [isQueensideCastling, hu]; rfl
  constructor
  · rw [position, hk, hq, enpassantOf, hu]
    rfl
  · rw [hu]

theorem position_initialPosition : position initialPosition = position initialFields :=
  (position_update (by decide) (by decide)).1

/-- `update` makes a valid board of any sound placement. -/
theorem valid_update_of_cells {b : Board} (hw : WellTyped b)
    (hcount : ∀ c, (Finset.univ.filter fun s =>
      b.cells s ≠ emptyCell ∧ cellPieceColor (b.cells s) = c).card ≤ 16)
    (hking : ∀ c, ∃ k, ∀ s, b.cells s = makeCell c .king ↔ s = k)
    (hpawns : ∀ c s, b.cells s = makeCell c .pawn → row s ≠ 0 ∧ row s ≠ 7)
    (hsafe : ¬(position b).InCheck (invert b.side)) : Valid (update b) := by
  obtain ⟨h, w, k, a, p, hu, hs, -⟩ := update_spec b
  have hcells : (update b).cells = b.cells := by rw [hu]
  have hside : (update b).side = b.side := by rw [hu]
  have hpiece : (position (update b)).pieceAt = (position b).pieceAt := by
    simp only [position, hcells]
  have hocc : (position (update b)).occupied = (position b).occupied := by
    funext s
    rw [Position.occupied, Position.occupied, hpiece]
  have hvalid : ∀ s, isCellValid ((update b).cells s) = true := by
    rw [hcells]
    exact hw.cells
  refine valid_update (validate_eq_ok.mpr ⟨hw, (validateUpdated_eq_ok hs).mpr ⟨fun c => ?_, ?_, ?_, ?_⟩⟩)
  · rw [popcount_eq_card]
    simpa only [hs.color, hcells, decide_eq_true_eq] using hcount c
  · rwa [hcells]
  · rwa [hcells]
  · obtain ⟨K, hK⟩ := hking (invert b.side)
    rw [← hcells] at hK
    rw [wasMoveLegal, hside, kingPos_eq hs hK, Bool.not_eq_true', ← Bool.not_eq_true,
      isCellAttacked_iff_attacked hvalid hs]
    intro hat
    refine hsafe ⟨K, pieceAt_eq_some.mpr (hcells ▸ (hK K).mpr rfl), ?_⟩
    rw [invert_invert]
    simp only [Position.Attacked, hpiece, hocc] at hat
    exact hat

theorem valid_initialPosition : Valid initialPosition :=
  valid_update_of_cells ⟨by decide, by decide, fun h => absurd rfl h⟩ (by decide +kernel)
    (by decide +kernel) (by decide +kernel) (by decide +kernel)

end SoFCheck.Core.InitialPosition
