import SoFCheck.Core.Sequence

namespace SoFCheck.Core.Counters

open SoFCheck.Core.Types SoFCheck.Core.Geometry SoFCheck.Core.BoardState SoFCheck.Core.Moves
open SoFCheck.Core.Position SoFCheck.Core.Validate SoFCheck.Core.MoveMake SoFCheck.Core.MakeCells
open SoFCheck.Core.MakeBoard SoFCheck.Core.MakeRegular SoFCheck.Core.MakeRefine SoFCheck.Core.WellFormed
open SoFCheck.Core.PseudoLegal SoFCheck.Core.InitialPosition SoFCheck.Core.Sequence

/-- A capture or a move of a pawn, after which no earlier position comes back. -/
def Irreversible (b : Board) (m : Move) : Prop :=
  m.kind ≠ .null ∧ (b.cells (toSquare m.dst) ≠ emptyCell ∨ m.kind = .enpassant ∨
    b.cells (toSquare m.src) = makeCell b.side .pawn)

instance (b : Board) (m : Move) : Decidable (Irreversible b m) :=
  inferInstanceAs (Decidable (_ ∧ (_ ∨ _ ∨ _)))

/-- The halfmove clock and the number of the move by the rules. -/
structure Counted (b : Board) (m : Move) (b' : Board) : Prop where
  moveCounter : b'.moveCounter = if Irreversible b m then 0 else b.moveCounter + 1
  moveNumber : b'.moveNumber = if b.side = .black then b.moveNumber + 1 else b.moveNumber

variable [Globals] {b : Board} {m : Move}

theorem moveMake_counters (b : Board) (m : Move) :
    (moveMake b m).1.moveCounter =
      (if b.cells (toSquare m.dst) ≠ emptyCell ∨ b.cells (toSquare m.src) = makeCell b.side .pawn
        then 0 else b.moveCounter + 1) ∧
    (moveMake b m).1.moveNumber = if b.side = .black then b.moveNumber + 1 else b.moveNumber := by
  have hframe := (frame_dropEnpassant b).trans (frame_makeKind b.side (dropEnpassant b) m
    (b.cells (toSquare m.src)) (b.cells (toSquare m.dst)))
  rw [moveMake, moveMakeImpl]
  constructor
  · rw [finishMove_moveCounter, hframe.moveCounter]
  · rw [finishMove_moveNumber, hframe.moveNumber]

/-- A null move looks at the first cell. -/
theorem counted_null (hk : m.kind = .null) (hw : m.isWellFormed b.side = true) :
    Counted b m (moveMake b m).1 ↔ b.cells 0 = emptyCell ∨ b.moveCounter = 65535 := by
  have hrev : ¬Irreversible b m := fun h => h.1 hk
  have hsquares : toSquare m.src = 0 ∧ toSquare m.dst = 0 := by
    obtain ⟨s, t, hm⟩ := exists_mkMove (m := untag m) hw rfl
    have hw' : (untag m).isWellFormed b.side = true := hw
    change untag m = mkMove m.kind s t at hm
    rw [hk] at hm
    rw [hm, isWellFormed_null] at hw'
    have hsrc : m.src = toCoord s := congrArg Move.src hm
    have hdst : m.dst = toCoord t := congrArg Move.dst hm
    rw [hsrc, hdst, toSquare_toCoord, toSquare_toCoord]
    exact hw'
  obtain ⟨hcounter, hnumber⟩ := moveMake_counters b m
  rw [hsquares.1, hsquares.2] at hcounter
  constructor
  · intro h
    by_contra hne
    rw [not_or] at hne
    have hkept := h.moveCounter
    rw [hcounter, if_pos (Or.inl hne.1), if_neg hrev] at hkept
    exact hne.2 (by bv_omega)
  · intro h
    refine ⟨?_, hnumber⟩
    rw [hcounter, if_neg hrev]
    split_ifs with hreset
    · obtain hempty | hmax := h
      · rw [hempty] at hreset
        obtain hne | hpawn := hreset
        · exact absurd rfl hne
        · exact absurd hpawn.symm (makeCell_ne_emptyCell _ _)
      · rw [hmax]
        rfl
    · rfl

theorem counted_move (hb : Regular b) (hm : Playable b m) (hk : m.kind ≠ .null) :
    Counted b m (moveMake b m).1 := by
  obtain ⟨hcounter, hnumber⟩ := moveMake_counters b m
  refine ⟨?_, hnumber⟩
  have hreset : Irreversible b m ↔ b.cells (toSquare m.dst) ≠ emptyCell ∨
      b.cells (toSquare m.src) = makeCell b.side .pawn := by
    rw [Irreversible, and_iff_right hk]
    refine or_congr_right ⟨fun h => h.elim (fun hep => ?_) id, Or.inr⟩
    obtain he | ⟨k, s, t, he, hp⟩ := playable_cases hb hm
    · exact absurd (congrArg Move.kind he) hk
    · have hkind : m.kind = k := congrArg Move.kind he
      have hsrc : m.src = toCoord s := congrArg Move.src he
      have hshape := shape_of_pseudo hb hp
      rw [← hkind, hep] at hshape
      rw [hsrc, toSquare_toCoord]
      exact hshape.2.2.2.1
  rw [hcounter]
  exact if_congr hreset.symm rfl rfl

/-- The counters are kept by the rules, but for a null move while a piece stands
on the first cell. -/
theorem counted_iff (hb : Valid b) (hm : Playable b m) : Counted b m (moveMake b m).1 ↔
    (m.kind = .null → b.cells 0 = emptyCell ∨ b.moveCounter = 65535) := by
  by_cases hk : m.kind = .null
  · rw [counted_null hk hm.1]
    exact (imp_iff_right hk).symm
  · exact iff_of_true (counted_move (valid_iff.mp hb).1 hm hk) fun h => absurd h hk

omit [Globals] in
theorem counted_iff_firstMove : letI := spreadGlobals
    Counted initialPosition firstMove (moveMake initialPosition firstMove).1 ↔
      (firstMove.kind = .null →
        initialPosition.cells 0 = emptyCell ∨ initialPosition.moveCounter = 65535) :=
  letI := spreadGlobals
  counted_iff valid_initialPosition playable_firstMove

theorem playable_null (b : Board) : Playable b Move.null :=
  ⟨by cases b.side <;> decide, Or.inl rfl⟩

omit [Globals] in
/-- The black rook has not left its home. -/
theorem not_counted : letI := spreadGlobals
    Valid initialPosition ∧ Playable initialPosition Move.null ∧
      ¬Counted initialPosition Move.null (moveMake initialPosition Move.null).1 := by
  let _ := spreadGlobals
  refine ⟨valid_initialPosition, playable_null _, fun h => ?_⟩
  obtain hempty | hmax := (counted_null rfl (playable_null _).1).mp h
  · rw [initialPosition_fields.1] at hempty
    exact absurd hempty (by decide)
  · exact absurd hmax (by decide +kernel)

end SoFCheck.Core.Counters
