import SoFCheck.Core.Validate
import SoFCheck.Core.MoveMake

namespace SoFCheck.Core.CellView

open SoFCheck.Util.Bits
open SoFCheck.Core.Types SoFCheck.Core.Grid SoFCheck.Core.Geometry SoFCheck.Core.BoardState
open SoFCheck.Core.Moves SoFCheck.Core.MoveMake

/-- All that a board stores about one cell: its contents and its bits. -/
@[ext] structure View where
  cell : Cell
  color : Color → Bool
  pieces : Cell → Bool

def view (b : Board) (s : Square) : View :=
  ⟨b.cells s, fun c => hasBit (bbColor b c) s, fun x => hasBit (b.bbPieces x) s⟩

/-- The view that `update` would compute from the contents. -/
def ofCell (x : Cell) : View :=
  ⟨x, fun c => decide (x ≠ emptyCell ∧ cellPieceColor x = c), fun y => decide (x ≠ emptyCell ∧ x = y)⟩

namespace View

def put (v : View) (x : Cell) : View := { v with cell := x }

def flipColor (v : View) (c : Color) : View :=
  { v with color := Function.update v.color c (!v.color c) }

def flipPiece (v : View) (x : Cell) : View :=
  { v with pieces := Function.update v.pieces x (!v.pieces x) }

def assignColor (v : View) (c : Color) (bit : Bool) : View :=
  { v with color := Function.update v.color c bit }

def assignPiece (v : View) (x : Cell) (bit : Bool) : View :=
  { v with pieces := Function.update v.pieces x bit }

end View

section Statements

variable (b : Board) (s : Square)

theorem view_setCell (t : Square) (x : Cell) :
    view (setCell b t x) s = if s = t then (view b s).put x else view b s := by
  by_cases h : s = t
  · subst h
    simp [view, View.put, bbColor]
  · simp [view, h, bbColor]

theorem view_xorHash (h : BoardHash) : view (xorHash b h) s = view b s := rfl

theorem view_setEnpassant (x : Coord) : view (setEnpassant b x) s = view b s := rfl

theorem bbColor_modifyColor (c d : Color) (f : Bitboard → Bitboard) :
    bbColor (modifyColor b c f) d = if d = c then f (bbColor b d) else bbColor b d := by
  cases c <;> cases d <;> simp [bbColor]

theorem view_modifyColor (c : Color) (f : Bitboard → Bitboard) :
    view (modifyColor b c f) s = (view b s).assignColor c (hasBit (f (bbColor b c)) s) := by
  refine View.ext rfl (funext fun d => ?_) rfl
  by_cases h : d = c
  · subst h
    simp [view, View.assignColor, bbColor_modifyColor]
  · simp [view, View.assignColor, bbColor_modifyColor, h]

theorem view_modifyPieces (x : Cell) (f : Bitboard → Bitboard) :
    view (modifyPieces b x f) s = (view b s).assignPiece x (hasBit (f (b.bbPieces x)) s) := by
  refine View.ext rfl rfl (funext fun y => ?_)
  by_cases h : y = x
  · subst h
    simp [view, View.assignPiece]
  · simp [view, View.assignPiece, h]

theorem assignColor_self (c : Color) :
    (view b s).assignColor c (hasBit (bbColor b c) s) = view b s :=
  View.ext rfl (Function.update_eq_self c _) rfl

theorem assignPiece_self (x : Cell) :
    (view b s).assignPiece x (hasBit (b.bbPieces x) s) = view b s :=
  View.ext rfl rfl (Function.update_eq_self x _)

theorem view_xorColor (c : Color) (m : Bitboard) : view (modifyColor b c (· ^^^ m)) s =
    if hasBit m s = true then (view b s).flipColor c else view b s := by
  rw [view_modifyColor, hasBit_xor]
  split
  · rename_i h
    rw [h, Bool.xor_true]
    rfl
  · rename_i h
    rw [Bool.not_eq_true] at h
    rw [h, Bool.xor_false, assignColor_self]

theorem view_xorPieces (x : Cell) (m : Bitboard) : view (modifyPieces b x (· ^^^ m)) s =
    if hasBit m s = true then (view b s).flipPiece x else view b s := by
  rw [view_modifyPieces, hasBit_xor]
  split
  · rename_i h
    rw [h, Bool.xor_true]
    rfl
  · rename_i h
    rw [Bool.not_eq_true] at h
    rw [h, Bool.xor_false, assignPiece_self]

theorem view_clearColor (c : Color) (m : Bitboard) : view (modifyColor b c (· &&& ~~~m)) s =
    if hasBit m s = true then (view b s).assignColor c false else view b s := by
  rw [view_modifyColor, hasBit_and, hasBit_not]
  split
  · rename_i h
    rw [h, Bool.not_true, Bool.and_false]
  · rename_i h
    rw [Bool.not_eq_true] at h
    rw [h, Bool.not_false, Bool.and_true, assignColor_self]

theorem view_clearPieces (x : Cell) (m : Bitboard) : view (modifyPieces b x (· &&& ~~~m)) s =
    if hasBit m s = true then (view b s).assignPiece x false else view b s := by
  rw [view_modifyPieces, hasBit_and, hasBit_not]
  split
  · rename_i h
    rw [h, Bool.not_true, Bool.and_false]
  · rename_i h
    rw [Bool.not_eq_true] at h
    rw [h, Bool.not_false, Bool.and_true, assignPiece_self]

theorem view_raiseColor (c : Color) (m : Bitboard) : view (modifyColor b c (· ||| m)) s =
    if hasBit m s = true then (view b s).assignColor c true else view b s := by
  rw [view_modifyColor, hasBit_or]
  split
  · rename_i h
    rw [h, Bool.or_true]
  · rename_i h
    rw [Bool.not_eq_true] at h
    rw [h, Bool.or_false, assignColor_self]

theorem view_raisePieces (x : Cell) (m : Bitboard) : view (modifyPieces b x (· ||| m)) s =
    if hasBit m s = true then (view b s).assignPiece x true else view b s := by
  rw [view_modifyPieces, hasBit_or]
  split
  · rename_i h
    rw [h, Bool.or_true]
  · rename_i h
    rw [Bool.not_eq_true] at h
    rw [h, Bool.or_false, assignPiece_self]

end Statements

section Synced

theorem synced_iff {b : Board} :
    Synced b ↔ (∀ s, view b s = ofCell (b.cells s)) ∧ b.bbAll = b.bbWhite ||| b.bbBlack := by
  constructor
  · intro h
    exact ⟨fun s => View.ext rfl (funext fun c => h.color c s) (funext fun x => h.pieces x s), h.all⟩
  · rintro ⟨h, ha⟩
    exact ⟨fun c s => congrFun (congrArg View.color (h s)) c,
      fun x s => congrFun (congrArg View.pieces (h s)) x, ha⟩

/-- A cell that colour `C` may move to. -/
def Takeable (C : Color) (x : Cell) : Prop := x = emptyCell ∨ ∃ q, x = makeCell (invert C) q

variable {C : Color} {p : Piece}

theorem ofCell_empty : ofCell emptyCell = ⟨emptyCell, fun _ => false, fun _ => false⟩ := by
  simp [ofCell]

theorem ofCell_makeCell (C : Color) (p : Piece) : ofCell (makeCell C p) =
    ⟨makeCell C p, Function.update (fun _ => false) C true,
      Function.update (fun _ => false) (makeCell C p) true⟩ := by
  refine View.ext rfl (funext fun c => ?_) (funext fun x => ?_)
  · by_cases h : c = C
    · subst h; simp [ofCell]
    · simp [ofCell, h, Ne.symm h]
  · by_cases h : x = makeCell C p
    · subst h; simp [ofCell]
    · simp [ofCell, h, Ne.symm h]

theorem lift_piece (C : Color) (p : Piece) :
    (((ofCell (makeCell C p)).put emptyCell).flipColor C).flipPiece (makeCell C p) =
      ofCell emptyCell := by
  simp [ofCell_makeCell, ofCell_empty, View.put, View.flipColor, View.flipPiece]

theorem drop_piece (C : Color) (p : Piece) :
    (((ofCell emptyCell).put (makeCell C p)).flipColor C).flipPiece (makeCell C p) =
      ofCell (makeCell C p) := by
  simp [ofCell_makeCell, ofCell_empty, View.put, View.flipColor, View.flipPiece]

theorem capture_piece {x : Cell} (hx : Takeable C x) (p : Piece) :
    (((((ofCell x).put (makeCell C p)).flipColor C).flipPiece (makeCell C p)).assignColor
      (invert C) false).assignPiece x false = ofCell (makeCell C p) := by
  rcases hx with rfl | ⟨q, rfl⟩
  · simp [ofCell_makeCell, ofCell_empty, View.put, View.flipColor, View.flipPiece,
      View.assignColor, View.assignPiece]
  · have hne : makeCell C p ≠ makeCell (invert C) q := by simp
    refine View.ext rfl (funext fun c => ?_) (funext fun y => ?_)
    · rcases eq_or_eq_invert C c with rfl | rfl <;>
        simp [ofCell_makeCell, View.put, View.flipColor, View.flipPiece, View.assignColor,
          View.assignPiece]
    · by_cases hy : y = makeCell (invert C) q
      · subst hy
        simp [ofCell_makeCell, View.assignPiece]
      · by_cases hy' : y = makeCell C p
        · subst hy'
          simp [ofCell_makeCell, View.put, View.flipColor, View.flipPiece, View.assignColor,
            View.assignPiece]
        · simp [ofCell_makeCell, View.put, View.flipColor, View.flipPiece, View.assignColor,
            View.assignPiece, Function.update_of_ne hy, Function.update_of_ne hy']

theorem uncapture_piece (C : Color) (p q : Piece) :
    (((((ofCell (makeCell C p)).put (makeCell (invert C) q)).flipColor C).flipPiece
      (makeCell C p)).assignColor (invert C) true).assignPiece (makeCell (invert C) q) true =
      ofCell (makeCell (invert C) q) := by
  simp [ofCell_makeCell, View.put, View.flipColor, View.flipPiece, View.assignColor,
    View.assignPiece]

end Synced

end SoFCheck.Core.CellView
