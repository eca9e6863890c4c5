import SoFCheck.Core.MakeValid

namespace SoFCheck.Core.MakeRegular

open SoFCheck.Util.Bits
open SoFCheck.Core.Types SoFCheck.Core.Grid SoFCheck.Core.Geometry SoFCheck.Core.BoardState
open SoFCheck.Core.Moves SoFCheck.Core.MoveMake SoFCheck.Core.CellView SoFCheck.Core.MakeCells
open SoFCheck.Core.MakeBoard SoFCheck.Core.MakeValid SoFCheck.Core.Mailbox SoFCheck.Core.Validate
open SoFCheck.Core.Attack SoFCheck.Core.Position

section Geometry

theorem toCoord_offset {d : Dir} {s t : Square} (h : offset d s = some t) :
    toCoord t = toCoord s + Int8.ofInt (8 * d.1 + d.2) := by
  obtain ⟨hr, hc⟩ := offset_eq_some_iff.mp h
  have ht : (t.val : Int) = s.val + (8 * d.1 + d.2) := by
    rw [val_eq s, val_eq t]
    push_cast
    omega
  rw [toCoord, toCoord, ← Int8.ofInt_eq_ofNat, ← Int8.ofInt_eq_ofNat, ht, Int8.ofInt_add]

theorem toCoord_add_forward {c : Color} {s t : Square} (h : offset (forward c, 0) s = some t) :
    toCoord s + pawnForwardDelta c = toCoord t := by
  rw [toCoord_offset h]
  cases c <;> rfl

theorem toSquare_enpassantPawnPos {c : Color} {e t : Square}
    (h : offset (forward c, 0) e = some t) : toSquare (enpassantPawnPos c (toCoord t)) = e := by
  have hback : enpassantPawnPos c (toCoord t) = toCoord e := by
    rw [← toCoord_add_forward h]
    cases c
    · change toCoord e + -8 + 8 = toCoord e
      rw [← Int8.sub_eq_add_neg, Int8.sub_add_cancel]
    · exact Int8.add_sub_cancel (toCoord e) 8
  rw [hback, toSquare_toCoord]

theorem coordY_toCoord : ∀ s : Square, coordY (toCoord s) = Int8.ofNat (col s) := by decide

/-- The row of a pawn that may be captured in passing by `c`. -/
def enpassantRow : Color → Nat
  | .white => 3
  | .black => 4

theorem coordX_eq_enpassantSrcRow : ∀ (c : Color) (s : Square),
    coordX (toCoord s) = enpassantSrcRow c ↔ row s = enpassantRow c := by decide

theorem toCoord_range : ∀ s : Square, 0 ≤ toCoord s ∧ toCoord s < 64 := by decide

theorem forward_invert (c : Color) : forward (invert c) = -forward c := by cases c <;> rfl

theorem offset_back {c : Color} {s t : Square} (h : offset (forward c, 0) s = some t) :
    offset (forward (invert c), 0) t = some s := by
  rw [offset_neg] at h
  rw [forward_invert]
  exact h

theorem row_forward {c : Color} {s t : Square} (h : offset (forward c, 0) s = some t) :
    (row t : Int) = row s + forward c ∧ col t = col s := by
  have h' := offset_eq_some_iff.mp h
  simp only [add_zero] at h'
  exact ⟨h'.1, by exact_mod_cast h'.2⟩

end Geometry

section Shape

variable [Globals] {b : Board} {k : MoveKind} {s t : Square}

theorem takeable_of_not_own (hb : Regular b) (h : ¬(position b).Own t) :
    Takeable b.side (b.cells t) := by
  rw [own_iff] at h
  rcases isCellValid_iff.mp (hb.cells t) with he | ⟨c, p, he⟩
  · exact Or.inl he
  · rcases eq_or_eq_invert b.side c with rfl | rfl
    · exact absurd ⟨p, he⟩ h
    · exact Or.inr ⟨p, he⟩

omit [Globals] in
theorem shape_pawn {p : Position} (hk : p.PawnKind k t) {f : Square → Cell} {C : Color}
    (hst : s ≠ t) (hs : f s = makeCell C .pawn) (ht : Takeable C (f t)) : Shape f C k s t := by
  rw [Position.PawnKind] at hk
  split at hk
  · cases k
    case promoteKnight | promoteBishop | promoteRook | promoteQueen => exact ⟨hst, hs, ht⟩
    all_goals exact absurd hk (by decide)
  · subst hk
    exact ⟨hst, ⟨.pawn, hs⟩, ht⟩

omit [Globals] in
theorem ne_of_offset {d : Dir} (hd : d.1 ≠ 0) {s t : Square} (h : offset d s = some t) : s ≠ t := by
  rintro rfl
  have := (offset_eq_some_iff.mp h).1
  omega

omit [Globals] in
theorem forward_ne_zero (c : Color) : forward c ≠ 0 := by cases c <;> decide

/-- A pseudo-legal move finds everything where it expects it. -/
theorem shape_of_pseudo (hb : Regular b) (h : (position b).Pseudo k s t) :
    Shape b.cells b.side k s t := by
  have hside : (position b).side = b.side := rfl
  cases h with
  | piece hs hpc hr ht =>
    exact ⟨hr.ne, ⟨_, pieceAt_eq_some.mp hs⟩, takeable_of_not_own hb ht⟩
  | push hs ho ht hk =>
    exact shape_pawn hk (ne_of_offset (forward_ne_zero _) ho) (pieceAt_eq_some.mp hs)
      (Or.inl ((pieceAt_eq_none hb.cells).mp ht))
  | double hs hrow ho ho' hu ht =>
    refine ⟨?_, pieceAt_eq_some.mp hs, (pieceAt_eq_none hb.cells).mp ht⟩
    rintro rfl
    have h1 := (row_forward ho).1
    have h2 := (row_forward ho').1
    have := forward_ne_zero (position b).side
    omega
  | capture hs hr ht hk =>
    exact shape_pawn hk hr.ne (pieceAt_eq_some.mp hs) (Or.inr (enemy_iff.mp ht))
  | @enpassant e s t he hpe hs hr hc ho ht =>
    have hse : s ≠ e := by
      rintro rfl
      simp [colDist] at hc
    have hte : t ≠ e := (ne_of_offset (forward_ne_zero _) ho).symm
    have hst : s ≠ t := by
      rintro rfl
      have h1 := (row_forward ho).1
      have := forward_ne_zero (position b).side
      omega
    refine ⟨hst, ?_, ?_, pieceAt_eq_some.mp hs, (pieceAt_eq_none hb.cells).mp ht, ?_⟩ <;>
      rw [← hside, toSquare_enpassantPawnPos ho]
    · exact hse
    · exact hte
    · exact pieceAt_eq_some.mp hpe
  | castlingKingside hf hk hr h5 h6 ha ha' =>
    exact ⟨rfl, rfl, pieceAt_eq_some.mp hk, (pieceAt_eq_none hb.cells).mp h5,
      (pieceAt_eq_none hb.cells).mp h6, pieceAt_eq_some.mp hr⟩
  | castlingQueenside hf hk hr h1 h2 h3 ha ha' =>
    exact ⟨rfl, rfl, pieceAt_eq_some.mp hr, (pieceAt_eq_none hb.cells).mp h2,
      (pieceAt_eq_none hb.cells).mp h3, pieceAt_eq_some.mp hk⟩

omit [Globals] in
theorem not_king_of_pseudo {p : Position} (hc : ¬p.InCheck (invert p.side)) (h : p.Pseudo k s t) :
    p.pieceAt t ≠ some (invert p.side, .king) := by
  intro hk
  have hatt : ∀ pc, p.pieceAt s = some (p.side, pc) → Reaches p.occupied p.side pc s t → False := by
    intro pc hs hr
    refine hc ⟨t, hk, s, pc, ?_, ?_⟩ <;> rwa [invert_invert]
  cases h with
  | piece hs hpc hr ht => exact hatt _ hs hr
  | capture hs hr ht hkind => exact hatt _ hs hr
  | push hs ho ht hkind => simp [ht] at hk
  | double hs hrow ho ho' hu ht => simp [ht] at hk
  | enpassant he hpe hs hr hcol ho ht => simp [ht] at hk
  | castlingKingside hf hk' hr h5 h6 ha ha' => simp [h6] at hk
  | castlingQueenside hf hk' hr h1 h2 h3 ha ha' => simp [h2] at hk

end Shape

section Regular

variable [Globals] {b : Board} {k : MoveKind} {s t : Square}

theorem sane_of_regular (hb : Regular b) : Sane b.cells := by
  refine ⟨hb.cells, fun c => ?_, hb.king, hb.pawns⟩
  have hc := hb.count c
  rw [popcount_eq_card] at hc
  simpa only [hasBit_bbColor hb.cells hb.synced] using hc

omit [Globals] in
theorem count_of_sane (hb : Synced b) (h : Sane b.cells) (c : Color) :
    popcount (bbColor b c) ≤ 16 := by
  rw [popcount_eq_card]
  simpa only [hasBit_bbColor h.cells hb] using h.count c

omit [Globals] in
theorem promotePiece_ne : ∀ k, isMoveKindPromote k = true →
    moveKindPromotePiece k ≠ .king ∧ moveKindPromotePiece k ≠ .pawn := by
  rintro (_ | _) <;> decide

omit [Globals] in
theorem row_of_pawnKind {p : Position} {dx : Int} (hk : p.PawnKind .simple t)
    (hs : row s ≠ 0 ∧ row s ≠ 7) (hx : dx = forward p.side) (ht : (row t : Int) = row s + dx) :
    row t ≠ 0 ∧ row t ≠ 7 := by
  have hlast : row t ≠ lastRow p.side := by
    intro he
    rw [Position.PawnKind, if_pos he] at hk
    cases hk
  have hlt := row_lt s
  obtain ⟨hs0, hs7⟩ := hs
  cases hc : p.side <;> simp only [hc, lastRow, forward] at hlast hx <;> omega

theorem sane_pawn (hb : Regular b) (hs : b.cells s = makeCell b.side .pawn) (hst : s ≠ t)
    (ht : Takeable b.side (b.cells t)) (hnk : b.cells t ≠ makeCell (invert b.side) .king)
    (hrow : (row t : Int) = row s + forward b.side) (hk : (position b).PawnKind k t) :
    Sane (movedCells b.cells b.side k s t) := by
  have hsane := sane_of_regular hb
  by_cases hks : k = .simple
  · subst hks
    rw [movedCells, hs]
    exact hsane.relocate hst hs ht hnk Iff.rfl fun _ => row_of_pawnKind hk (hb.pawns _ _ hs) rfl hrow
  · have hp : isMoveKindPromote k = true := by
      rw [Position.PawnKind] at hk
      split at hk
      · exact hk
      · exact absurd hk hks
    obtain ⟨h1, h2⟩ := promotePiece_ne k hp
    have hm : movedCells b.cells b.side k s t =
        relocateCells b.cells s t (makeCell b.side (moveKindPromotePiece k)) := by
      cases k
      case promoteKnight | promoteBishop | promoteRook | promoteQueen => rfl
      all_goals exact absurd hp (by decide)
    rw [hm]
    exact hsane.relocate hst hs ht hnk ⟨fun h => absurd h h1, fun h => by cases h⟩
      fun h => absurd h h2

theorem enpassant_eq (hb : Regular b) {e : Square} (he : (position b).enpassant = some e) :
    b.enpassantCoord = toCoord e ∧ row e = enpassantRow b.side := by
  change enpassantOf b = some e at he
  rw [enpassantOf] at he
  split at he
  · cases he
  · rename_i hne
    obtain ⟨h0, h64, hrow⟩ := hb.enpassantRow hne
    have hc : toCoord e = b.enpassantCoord := by
      rw [← Option.some.inj he, toCoord_toSquare h0 h64]
    rw [← hc, coordX_eq_enpassantSrcRow] at hrow
    exact ⟨hc.symm, hrow⟩

/-- A pseudo-legal move keeps what `validate` asks of the cells. -/
theorem sane_movedCells (hb : Regular b) (hl : wasMoveLegal b = true)
    (h : (position b).Pseudo k s t) : Sane (movedCells b.cells b.side k s t) := by
  have hsane := sane_of_regular hb
  have hnk : b.cells t ≠ makeCell (invert b.side) .king := fun he =>
    not_king_of_pseudo ((wasMoveLegal_iff hb).mp hl) h (pieceAt_eq_some.mpr he)
  cases h with
  | @piece pc s t hs hpc hr ht =>
    have hs' := pieceAt_eq_some.mp hs
    rw [movedCells, hs']
    exact hsane.relocate hr.ne hs' (takeable_of_not_own hb ht) hnk Iff.rfl fun he => absurd he hpc
  | push hs ho ht hk =>
    exact sane_pawn hb (pieceAt_eq_some.mp hs) (ne_of_offset (forward_ne_zero _) ho)
      (Or.inl ((pieceAt_eq_none hb.cells).mp ht)) hnk (row_forward ho).1 hk
  | capture hs hr ht hk =>
    exact sane_pawn hb (pieceAt_eq_some.mp hs) hr.ne (Or.inr (enemy_iff.mp ht)) hnk hr.1 hk
  | @double s u t hs hrow ho ho' hu ht =>
    have hs' := pieceAt_eq_some.mp hs
    obtain ⟨hst, -, ht'⟩ := shape_of_pseudo hb (Position.Pseudo.double hs hrow ho ho' hu ht)
    rw [movedCells, hs']
    refine hsane.relocate hst hs' (Or.inl ht') hnk Iff.rfl fun _ => ?_
    have h1 := (row_forward ho).1
    have h2 := (row_forward ho').1
    cases hc : (position b).side <;> simp only [hc, pawnRow, forward] at hrow h1 h2 <;> omega
  | @enpassant e s t he hpe hs hr hc ho ht =>
    obtain ⟨hst, hse, hte, hs', ht', htk⟩ :=
      shape_of_pseudo hb (Position.Pseudo.enpassant he hpe hs hr hc ho ht)
    rw [movedCells, hs']
    refine Sane.erase (hsane.relocate hst hs' (Or.inl ht') hnk Iff.rfl fun _ => ?_)
      (c := invert b.side) ?_
    · have h1 := (row_forward ho).1
      have h2 := (enpassant_eq hb he).2
      have hc' : (position b).side = b.side := rfl
      cases hc : b.side <;> simp only [hc', hc, enpassantRow, forward] at h1 h2 <;> omega
    · rw [relocateCells_apply, if_neg hte.symm, if_neg hse.symm, htk]
  | castlingKingside hf hk hr h5 h6 ha ha' =>
    obtain ⟨-, -, h4', h5', h6', h7'⟩ :=
      shape_of_pseudo hb (Position.Pseudo.castlingKingside hf hk hr h5 h6 ha ha')
    simp only [position_side] at hnk ⊢
    rw [movedCells, h4']
    refine Sane.relocate (hsane.relocate ?_ h4' (Or.inl h6') hnk Iff.rfl fun he => by cases he) (p := .rook) ?_ ?_
      (Or.inl ?_) ?_ (by decide) fun he => by cases he
    all_goals simp [relocateCells_apply, homeCell_inj, h7', h5']
  | castlingQueenside hf hk hr h1 h2 h3 ha ha' =>
    obtain ⟨-, -, h0', h2', h3', h4'⟩ :=
      shape_of_pseudo hb (Position.Pseudo.castlingQueenside hf hk hr h1 h2 h3 ha ha')
    simp only [position_side] at hnk ⊢
    rw [movedCells, h4']
    refine Sane.relocate (hsane.relocate ?_ h4' (Or.inl h2') hnk Iff.rfl fun he => by cases he) (p := .rook) ?_ ?_
      (Or.inl ?_) ?_ (by decide) fun he => by cases he
    all_goals simp [relocateCells_apply, homeCell_inj, h0', h3']

end Regular

end SoFCheck.Core.MakeRegular
