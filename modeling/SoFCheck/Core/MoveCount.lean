import SoFCheck.Core.GenClasses
import SoFCheck.Core.MoveParser

namespace SoFCheck.Core.MoveCount

open SoFCheck.Core.Types SoFCheck.Core.Grid SoFCheck.Core.Geometry SoFCheck.Core.BoardState
open SoFCheck.Core.Moves SoFCheck.Core.Mailbox SoFCheck.Core.Position SoFCheck.Core.Validate
open SoFCheck.Core.MakeCells SoFCheck.Core.CheckMask SoFCheck.Core.MakeValid SoFCheck.Core.MakeRegular SoFCheck.Core.MakeRefine
open SoFCheck.Core.PseudoLegal SoFCheck.Core.Movegen SoFCheck.Core.LegalMoves
open SoFCheck.Core.GenClasses SoFCheck.Core.MoveParser

/-- A number for each piece that a pawn promotes to. -/
def promoteIndex : MoveKind → Fin 4
  | .promoteBishop => 1
  | .promoteRook => 2
  | .promoteQueen => 3
  | _ => 0

/-- A cell for each move of one piece. Promotions are given the middle of the
board, where no pawn that promotes stands. -/
def target (k : MoveKind) (t : Square) : Square :=
  if isMoveKindPromote k then ⟨16 + 8 * promoteIndex k + col t, by have := col_lt t; omega⟩ else t

theorem promoteIndex_inj {k k' : MoveKind} (hk : isMoveKindPromote k = true)
    (hk' : isMoveKindPromote k' = true) (h : promoteIndex k = promoteIndex k') : k = k' := by
  cases k <;> cases hk <;> cases k' <;> cases hk' <;> first | rfl | exact absurd h (by decide)

variable [Globals] {b : Board} {k k' : MoveKind} {s t t' : Square}

/-- A pawn on the row before the last one promotes, whatever it does. -/
theorem promote_iff (hb : Regular b) (h : (position b).Pseudo k s t) :
    isMoveKindPromote k = true ↔
      b.cells s = makeCell b.side .pawn ∧ (row s : Int) + forward b.side = lastRow b.side := by
  have hpawn : ∀ {t}, (position b).PawnKind k t → (row t : Int) = row s + forward b.side →
      b.cells s = makeCell b.side .pawn → (isMoveKindPromote k = true ↔
        b.cells s = makeCell b.side .pawn ∧ (row s : Int) + forward b.side = lastRow b.side) := by
    intro t hk hrow hs
    rw [← hrow, and_iff_right hs, Nat.cast_inj]
    unfold Position.PawnKind at hk
    rw [position_side] at hk
    split_ifs at hk with hlast
    · exact iff_of_true hk hlast
    · rw [hk]
      exact iff_of_false (by decide) hlast
  cases h with
  | piece hs hpc hr ht =>
    have hcell : b.cells s = makeCell b.side _ := pieceAt_eq_some.mp hs
    refine iff_of_false (by decide) fun h => hpc ?_
    exact ((makeCell_inj ..).mp (hcell.symm.trans h.1)).2
  | push hs ho ht hk => exact hpawn hk (row_forward ho).1 (pieceAt_eq_some.mp hs)
  | capture hs hr ht hk => exact hpawn hk hr.1 (pieceAt_eq_some.mp hs)
  | double hs hr ho ho' hu ht =>
    rw [position_side] at hr
    refine iff_of_false (by decide) fun h => ?_
    have hrow := h.2
    cases hc : b.side <;> simp only [hc, pawnRow, forward, lastRow] at hr hrow <;> omega
  | enpassant he hpe hs hr hc ho ht =>
    obtain ⟨-, hrow⟩ := enpassant_eq hb he
    refine iff_of_false (by decide) fun h => ?_
    have hlast := h.2
    cases hc : b.side <;> simp only [hc, enpassantRow, forward, lastRow] at hrow hlast <;> omega
  | castlingKingside hf hk hr h5 h6 ha ha' =>
    have hcell : b.cells (homeCell b.side 4) = makeCell b.side .king := pieceAt_eq_some.mp hk
    exact iff_of_false (by decide) fun h => by simp [hcell] at h
  | castlingQueenside hf hk hr h1 h2 h3 ha ha' =>
    have hcell : b.cells (homeCell b.side 4) = makeCell b.side .king := pieceAt_eq_some.mp hk
    exact iff_of_false (by decide) fun h => by simp [hcell] at h

omit [Globals] in
theorem row_of_promote (h : (position b).Pseudo k s t)
    (hk : isMoveKindPromote k = true) : row t = lastRow b.side := by
  have hpawn : (position b).PawnKind k t → row t = lastRow b.side := by
    intro hpk
    unfold Position.PawnKind at hpk
    split_ifs at hpk with hlast
    · exact hlast
    · rw [hpk] at hk
      cases hk
  cases h with
  | push hs ho ht hpk => exact hpawn hpk
  | capture hs hr ht hpk => exact hpawn hpk
  | piece | double | enpassant | castlingKingside | castlingQueenside => cases hk

theorem target_inj (hb : Regular b) (h : (position b).Pseudo k s t)
    (h' : (position b).Pseudo k' s t') (he : target k t = target k' t') : k = k' ∧ t = t' := by
  have hiff : isMoveKindPromote k = true ↔ isMoveKindPromote k' = true :=
    (promote_iff hb h).trans (promote_iff hb h').symm
  cases hk : isMoveKindPromote k with
  | true =>
    have hk' := hiff.mp hk
    rw [target, target, if_pos hk, if_pos hk', Fin.mk.injEq] at he
    have hcol := col_lt t
    have hcol' := col_lt t'
    have hrow := row_of_promote h hk
    have hrow' := row_of_promote h' hk'
    have hv := val_eq t
    have hv' := val_eq t'
    exact ⟨promoteIndex_inj hk hk' (Fin.ext (by omega)), Fin.ext (by omega)⟩
  | false =>
    have hk' : isMoveKindPromote k' = false := by
      rw [← Bool.not_eq_true, ← hiff, hk]
      exact Bool.false_ne_true
    rw [target, target, hk, hk', if_neg Bool.false_ne_true, if_neg Bool.false_ne_true] at he
    subst he
    exact ⟨(kindFromParsed_of_pseudo hb h hk).symm.trans (kindFromParsed_of_pseudo hb h' hk'), rfl⟩

omit [Globals] in
theorem not_pseudo_null : ¬(position b).Pseudo .null s t := by
  intro h
  cases h with
  | push hs ho ht hk => exact absurd (pawnKind_cases hk) (by decide)
  | capture hs hr ht hk => exact absurd (pawnKind_cases hk) (by decide)

omit [Globals] in
theorem shape_ne {f : Square → Cell} {c : Color} (h : Shape f c k s t) (hk : k ≠ .null) : s ≠ t := by
  have hhome : homeCell c 4 ≠ homeCell c 6 ∧ homeCell c 4 ≠ homeCell c 2 := by
    simp [homeCell_inj]
  cases k with
  | null => exact absurd rfl hk
  | invalid => exact h.elim
  | castlingKingside =>
    obtain ⟨rfl, rfl, -⟩ := h
    exact hhome.1
  | castlingQueenside =>
    obtain ⟨rfl, rfl, -⟩ := h
    exact hhome.2
  | _ => exact h.1

theorem target_ne (hb : Regular b) (h : (position b).Pseudo k s t) : target k t ≠ s := by
  rw [target]
  split_ifs with hk
  · have hrow := ((promote_iff hb h).mp hk).2
    have hv := val_eq s
    have hcol := col_lt s
    have hcol' := col_lt t
    have hindex := (promoteIndex k).isLt
    intro he
    have hval := congrArg Fin.val he
    simp only at hval
    cases hc : b.side <;> simp only [hc, forward, lastRow] at hrow <;> omega
  · exact Ne.symm (shape_ne (shape_of_pseudo hb h) fun hnull => not_pseudo_null (hnull ▸ h))

/-- The pieces of the side to move. -/
def ownCells (b : Board) : Finset Square :=
  Finset.univ.filter fun s => ∃ p, b.cells s = makeCell b.side p

omit [Globals] in
theorem mem_ownCells : s ∈ ownCells b ↔ ∃ p, b.cells s = makeCell b.side p := by
  simp [ownCells]

theorem card_ownCells (hb : Regular b) : (ownCells b).card ≤ 16 := (sane_of_regular hb).count b.side

theorem length_le_sum (hb : Regular b) {l : List Move} (hl : l.Nodup)
    (cells : Square → Finset Square) (h : ∀ m ∈ l, ∃ k s t, m = mkMove k s t ∧
      (position b).Pseudo k s t ∧ target k t ∈ cells s) :
    l.length ≤ ∑ s ∈ ownCells b, (cells s).card := by
  let at' : Move → (_ : Square) × Square := fun m =>
    ⟨toSquare m.src, target m.kind (toSquare m.dst)⟩
  have hmaps : ∀ m ∈ l.toFinset, at' m ∈ (ownCells b).sigma cells := by
    intro m hm
    obtain ⟨k, s, t, rfl, hp, ht⟩ := h m (List.mem_toFinset.mp hm)
    simp only [at', mkMove, toSquare_toCoord]
    exact Finset.mem_sigma.mpr ⟨mem_ownCells.mpr (own_iff.mp (own_of_pseudo hp)), ht⟩
  have hinj : Set.InjOn at' l.toFinset := by
    intro m hm m' hm' he
    obtain ⟨k, s, t, rfl, hp, -⟩ := h m (List.mem_toFinset.mp hm)
    obtain ⟨k', s', t', rfl, hp', -⟩ := h m' (List.mem_toFinset.mp hm')
    simp only [at', mkMove, toSquare_toCoord, Sigma.mk.injEq, heq_eq_eq] at he
    obtain ⟨rfl, he⟩ := he
    obtain ⟨rfl, rfl⟩ := target_inj hb hp hp' he
    rfl
  rw [← List.toFinset_card_of_nodup hl, ← Finset.card_sigma]
  exact Finset.card_le_card_of_injOn _ hmaps hinj

theorem length_le (hb : Regular b) {l : List Move} (hl : l.Nodup)
    (h : ∀ m ∈ l, ∃ k s t, m = mkMove k s t ∧ (position b).Pseudo k s t) : l.length ≤ 1008 := by
  have hle := length_le_sum hb hl (fun s => Finset.univ.erase s) (by
    intro m hm
    obtain ⟨k, s, t, rfl, hp⟩ := h m hm
    exact ⟨k, s, t, rfl, hp, by simp [target_ne hb hp]⟩)
  have hsum := Finset.sum_le_card_nsmul (ownCells b) (fun s => (Finset.univ.erase s).card) 63
    (fun s _ => by simp)
  have hown := card_ownCells hb
  rw [smul_eq_mul] at hsum
  omega

theorem length_generated_le (hb : Valid b) : (mkMoveGen b).genSimpleMovesNoPromote.length +
    ((mkMoveGen b).genSimplePromotes.length + (mkMoveGen b).genCaptures.length) ≤ 1008 := by
  obtain ⟨hr, -⟩ := valid_iff.mp hb
  obtain ⟨⟨-, hs, hp, hc⟩, ⟨hsp, hsc, hpc⟩, hall, -⟩ := generators_partition hb
  have hpc' := List.nodup_append'.mpr ⟨hp, hc, hpc⟩
  have hnodup := List.nodup_append'.mpr ⟨hs, hpc', List.disjoint_append_right.mpr ⟨hsp, hsc⟩⟩
  have hle := length_le hr hnodup fun m hm => pseudo_of_mem_genImpl hr ((hall m).mpr (by
    simpa only [List.mem_append] using hm))
  simpa only [List.length_append] using hle

end SoFCheck.Core.MoveCount
