import SoFCheck.Core.GenClasses
import SoFCheck.Core.Sequence

namespace SoFCheck.Core.CellSum

open SoFCheck.Core.Types SoFCheck.Core.Geometry SoFCheck.Core.BoardState SoFCheck.Core.Moves
open SoFCheck.Core.Mailbox SoFCheck.Core.Position SoFCheck.Core.Validate SoFCheck.Core.MoveMake
open SoFCheck.Core.MakeCells SoFCheck.Core.MakeBoard SoFCheck.Core.MakeValid
open SoFCheck.Core.MakeRegular SoFCheck.Core.MakeRefine SoFCheck.Core.Movegen
open SoFCheck.Core.GenClasses SoFCheck.Core.Sequence

variable {G : Type} [AddCommGroup G] {v : Cell → Square → G} {f : Square → Cell}

/-- What the cells of a board are worth together. -/
def boardSum (v : Cell → Square → G) (f : Square → Cell) : G := ∑ i, v (f i) i

theorem boardSum_update (a : Square) (x : Cell) :
    boardSum v (Function.update f a x) = boardSum v f - v (f a) a + v x a := by
  have hrest : ∑ i ∈ Finset.univ.erase a, v (Function.update f a x i) i =
      ∑ i ∈ Finset.univ.erase a, v (f i) i := by
    apply Finset.sum_congr rfl
    intro i hi
    rw [Function.update_of_ne (Finset.ne_of_mem_erase hi)]
  rw [boardSum, boardSum, ← Finset.add_sum_erase _ _ (Finset.mem_univ a), hrest,
    Function.update_self, ← Finset.add_sum_erase _ (fun i => v (f i) i) (Finset.mem_univ a)]
  abel

theorem boardSum_relocate (h0 : ∀ s, v emptyCell s = 0) {s t : Square} (hst : s ≠ t) (x : Cell) :
    boardSum v (relocateCells f s t x) = boardSum v f - (v (f s) s + v (f t) t) + v x t := by
  rw [relocateCells, boardSum_update, boardSum_update, Function.update_of_ne hst.symm, h0]
  abel

theorem boardSum_castling (h0 : ∀ s, v emptyCell s = 0) {s t r u : Square} {x : Cell} (hst : s ≠ t)
    (hru : r ≠ u) (hr : r ≠ s ∧ r ≠ t) (hu : u ≠ s ∧ u ≠ t) (hft : f t = emptyCell)
    (hfr : f r = x) (hfu : f u = emptyCell) :
    boardSum v (relocateCells (relocateCells f s t (f s)) r u x) =
      boardSum v f + (v (f s) t - v (f s) s + v x u - v x r) := by
  rw [boardSum_relocate h0 hru, boardSum_relocate h0 hst, relocateCells_apply, relocateCells_apply,
    if_neg hr.2, if_neg hr.1, if_neg hu.2, if_neg hu.1, hft, hfr, hfu, h0, h0]
  abel

/-- What a piece counts for: a pawn counts twice. -/
def weight (cell : Cell) : Nat :=
  (if cell = emptyCell then 0 else 1) +
    if cell = makeCell .white .pawn ∨ cell = makeCell .black .pawn then 1 else 0

/-- The number of pieces and of pawns on a board. -/
def menAndPawns (f : Square → Cell) : Nat :=
  (Finset.univ.filter fun s => f s ≠ emptyCell).card +
    (Finset.univ.filter fun s => f s = makeCell .white .pawn ∨ f s = makeCell .black .pawn).card

theorem menAndPawns_eq (f : Square → Cell) :
    (menAndPawns f : Int) = boardSum (fun cell _ => (weight cell : Int)) f := by
  have hnat : menAndPawns f = ∑ s, weight (f s) := by
    simp only [menAndPawns, weight, Finset.card_filter, Finset.sum_add_distrib, ne_eq, ite_not]
  rw [hnat, boardSum, Nat.cast_sum]

theorem weight_empty : weight emptyCell = 0 := by decide

theorem weight_pos {cell : Cell} (h : cell ≠ emptyCell) : 0 < weight cell := by
  rw [weight, if_neg h]
  omega

theorem weight_pawn (color : Color) : weight (makeCell color .pawn) = 2 := by
  cases color <;> decide

theorem weight_promote (color : Color) {k : MoveKind} (hk : isMoveKindPromote k = true) :
    weight (makeCell color (moveKindPromotePiece k)) = 1 := by
  cases k <;> cases hk <;> cases color <;> decide

variable {f : Square → Cell} {c : Color} {k : MoveKind} {s t : Square}

/-- A capture or a promotion takes something off the board. -/
theorem menAndPawns_moved (hm : Shape f c k s t) (hk : k ≠ .null)
    (hforcing : f t ≠ emptyCell ∨ k = .enpassant ∨ isMoveKindPromote k = true) :
    menAndPawns (movedCells f c k s t) < menAndPawns f := by
  have h0 : ∀ _s : Square, ((weight emptyCell : Nat) : Int) = 0 := fun _ => by
    rw [weight_empty, Nat.cast_zero]
  zify
  rw [menAndPawns_eq, menAndPawns_eq]
  cases k with
  | null => exact absurd rfl hk
  | invalid => exact hm.elim
  | simple =>
    have ht := weight_pos (hforcing.resolve_right (by decide))
    rw [movedCells, boardSum_relocate h0 hm.1]
    omega
  | pawnDoubleMove => exact absurd hm.2.2 (hforcing.resolve_right (by decide))
  | enpassant =>
    obtain ⟨hne, h1, h2, hs, ht, htk⟩ := hm
    rw [movedCells, boardSum_update, boardSum_relocate h0 hne, relocateCells,
      Function.update_of_ne h2.symm, Function.update_of_ne h1.symm, htk, weight_pawn, weight_empty]
    omega
  | castlingKingside =>
    exact absurd (shape_castling hm (Or.inl rfl)) (hforcing.resolve_right (by decide))
  | castlingQueenside =>
    exact absurd (shape_castling hm (Or.inr rfl)) (hforcing.resolve_right (by decide))
  | promoteKnight | promoteBishop | promoteRook | promoteQueen =>
    obtain ⟨hne, hs, -⟩ := hm
    rw [movedCells, boardSum_relocate h0 hne, hs, weight_pawn, weight_promote c rfl]
    omega

theorem menAndPawns_moveMake [Globals] {b : Board} {m : Move} (hb : Regular b) (hm : Playable b m)
    (hk : m.kind ≠ .null) (hforcing : isMoveCapture b m = true ∨ isMoveKindPromote m.kind = true) :
    menAndPawns (moveMake b m).1.cells < menAndPawns b.cells := by
  change menAndPawns (moveMake b (untag m)).1.cells < menAndPawns b.cells
  have hforcing' : isMoveCapture b (untag m) = true ∨ isMoveKindPromote (untag m).kind = true :=
    hforcing
  obtain he | ⟨k, s, t, he, hp⟩ := playable_cases hb hm
  · exact absurd (congrArg Move.kind he) hk
  · have hkind : m.kind = k := congrArg Move.kind he
    have hshape := shape_of_pseudo hb hp
    rw [he] at hforcing' ⊢
    rw [moveMake_cells hb.synced hshape]
    apply menAndPawns_moved hshape (hkind ▸ hk)
    rw [isMoveCapture_mkMove] at hforcing'
    exact or_assoc.mp hforcing'

/-- Each side has at most sixteen pieces. -/
theorem menAndPawns_le [Globals] {b : Board} (hb : Regular b) : menAndPawns b.cells ≤ 64 := by
  have hsane := sane_of_regular hb
  have hmen : (Finset.univ.filter fun s => b.cells s ≠ emptyCell) ⊆
      (Finset.univ.filter fun s => ∃ p, b.cells s = makeCell .white p) ∪
        Finset.univ.filter fun s => ∃ p, b.cells s = makeCell .black p := by
    intro s hs
    obtain ⟨c, p, hc⟩ := (isCellValid_iff.mp (hb.cells s)).resolve_left (Finset.mem_filter.mp hs).2
    rw [Finset.mem_union, Finset.mem_filter, Finset.mem_filter]
    cases c with
    | white => exact Or.inl ⟨Finset.mem_univ s, p, hc⟩
    | black => exact Or.inr ⟨Finset.mem_univ s, p, hc⟩
  have hpawns : (Finset.univ.filter fun s =>
      b.cells s = makeCell .white .pawn ∨ b.cells s = makeCell .black .pawn) ⊆
        Finset.univ.filter fun s => b.cells s ≠ emptyCell := by
    intro s hs
    rw [Finset.mem_filter] at hs ⊢
    refine ⟨hs.1, ?_⟩
    obtain h | h := hs.2
    · rw [h]
      exact makeCell_ne_emptyCell _ _
    · rw [h]
      exact makeCell_ne_emptyCell _ _
  have hle := (Finset.card_le_card hmen).trans (Finset.card_union_le _ _)
  have hle' := Finset.card_le_card hpawns
  have hwhite := hsane.count .white
  have hblack := hsane.count .black
  rw [menAndPawns]
  omega

end SoFCheck.Core.CellSum
