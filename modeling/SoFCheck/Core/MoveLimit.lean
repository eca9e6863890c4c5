import SoFCheck.Core.CaptureCount
import SoFCheck.Core.QueenLines

namespace SoFCheck.Core.MoveLimit

open SoFCheck.Util.Scan SoFCheck.Util.Sight
open SoFCheck.Core.Types SoFCheck.Core.Grid SoFCheck.Core.Geometry SoFCheck.Core.NearAttacks
open SoFCheck.Core.BoardState SoFCheck.Core.Moves SoFCheck.Core.Mailbox SoFCheck.Core.Position
open SoFCheck.Core.Validate SoFCheck.Core.InitialPosition SoFCheck.Core.MakeRefine
open SoFCheck.Core.PseudoLegal SoFCheck.Core.Movegen SoFCheck.Core.Attack SoFCheck.Core.MakeRegular
open SoFCheck.Core.CheckMask SoFCheck.Core.LegalMoves SoFCheck.Core.GenClasses SoFCheck.Core.MoveCount
open SoFCheck.Core.CaptureCount SoFCheck.Core.QueenLines

section Cells

/-- The pieces that move along lines. -/
def sliders (b : Board) : Finset Square :=
  (ownCells b).filter fun s => b.cells s ≠ makeCell b.side .pawn ∧
    b.cells s ≠ makeCell b.side .knight ∧ b.cells s ≠ makeCell b.side .king

/-- What is seen along the eight lines up to the next piece of `S`. -/
def sightCells (S : Finset Square) (s : Square) : Finset Square :=
  dirs.toFinset.biUnion fun d => ((ray d s).takeWhile fun t => !decide (t ∈ S)).toFinset

theorem card_sightCells_le (S : Finset Square) (s : Square) :
    (sightCells S s).card ≤ (dirs.map fun d => lead (fun t => decide (t ∈ S)) (ray d s)).sum := by
  have hnodup : dirs.Nodup := by decide
  have hsum : (dirs.map fun d => lead (fun t => decide (t ∈ S)) (ray d s)).sum =
      ∑ d ∈ dirs.toFinset, lead (fun t => decide (t ∈ S)) (ray d s) :=
    (List.sum_toFinset _ hnodup).symm
  rw [hsum]
  exact Finset.card_biUnion_le.trans (Finset.sum_le_sum fun d _ => List.toFinset_card_le _)

/-- Where castling leads the king. -/
def castlingCells (c : Color) (s : Square) : Finset Square :=
  if s = homeCell c 4 then {homeCell c 6, homeCell c 2} else ∅

theorem card_kingCells_le (c : Color) (s : Square) :
    (near kingOffsets s ∪ castlingCells c s).card ≤ 8 := by
  unfold castlingCells
  split_ifs with hs
  · rw [hs]
    cases c <;> decide
  · rw [Finset.union_empty]
    exact card_near_le kingOffsets s

/-- Where the piece on `s` may go. -/
def moveCells (b : Board) (s : Square) : Finset Square :=
  if Promotes b s then promotionCells (near ((forward b.side, 0) :: pawnOffsets b.side) s)
  else if b.cells s = makeCell b.side .pawn then
    near ((2 * forward b.side, 0) :: (forward b.side, 0) :: pawnOffsets b.side) s
  else if b.cells s = makeCell b.side .knight then near knightOffsets s
  else if b.cells s = makeCell b.side .king then near kingOffsets s ∪ castlingCells b.side s
  else sightCells (sliders b) s

variable {b : Board} {s t : Square}

theorem moveCells_king (hs : b.cells s = makeCell b.side .king) :
    moveCells b s = near kingOffsets s ∪ castlingCells b.side s := by
  have hcell : ∀ {q : Piece}, b.cells s = makeCell b.side q → .king = q := by
    intro q hq
    exact ((makeCell_inj ..).mp (hs.symm.trans hq)).2
  have hpawn : b.cells s ≠ makeCell b.side .pawn := fun h => by cases hcell h
  have hknight : b.cells s ≠ makeCell b.side .knight := fun h => by cases hcell h
  have hpromotes : ¬Promotes b s := fun h => hpawn h.1
  rw [moveCells, if_neg hpromotes, if_neg hpawn, if_neg hknight, if_pos hs]

theorem moveCells_slider (hs : s ∈ sliders b) : moveCells b s = sightCells (sliders b) s := by
  obtain ⟨-, hpawn, hknight, hking⟩ := Finset.mem_filter.mp hs
  have hpromotes : ¬Promotes b s := fun h => hpawn h.1
  rw [moveCells, if_neg hpromotes, if_neg hpawn, if_neg hknight, if_neg hking]

theorem card_moveCells_le (hs : s ∈ ownCells b) (hslider : s ∉ sliders b) :
    (moveCells b s).card ≤ 13 := by
  have hpromote := card_promotionCells_le (near ((forward b.side, 0) :: pawnOffsets b.side) s)
  have hthree : (near ((forward b.side, 0) :: pawnOffsets b.side) s).card ≤ 3 :=
    card_near_le _ s
  have hfour : (near ((2 * forward b.side, 0) :: (forward b.side, 0) :: pawnOffsets b.side) s).card
      ≤ 4 := card_near_le _ s
  have hknight : (near knightOffsets s).card ≤ 8 := card_near_le _ s
  have hking := card_kingCells_le b.side s
  unfold moveCells
  split_ifs with hp hpawn hn hk
  · omega
  · omega
  · omega
  · omega
  · exact absurd (Finset.mem_filter.mpr ⟨hs, hpawn, hn, hk⟩) hslider

theorem sum_moveCells_le {K : Square} (hK : b.cells K = makeCell b.side .king)
    (hown : (ownCells b).card ≤ 16) : ∑ s ∈ ownCells b, (moveCells b s).card ≤ 299 := by
  have hsub : sliders b ⊆ ownCells b := Finset.filter_subset _ _
  have hmem : K ∈ ownCells b \ sliders b := by
    refine Finset.mem_sdiff.mpr ⟨mem_ownCells.mpr ⟨_, hK⟩, fun h => ?_⟩
    exact (Finset.mem_filter.mp h).2.2.2 hK
  have hsliders : ∑ s ∈ sliders b, (moveCells b s).card ≤ 96 + 13 * (sliders b).card := by
    refine le_trans (Finset.sum_le_sum fun s hs => ?_) (sum_queens_le (sliders b))
    rw [moveCells_slider hs]
    exact card_sightCells_le (sliders b) s
  have hothers : ∑ s ∈ (ownCells b \ sliders b).erase K, (moveCells b s).card ≤
      ((ownCells b \ sliders b).card - 1) * 13 := by
    rw [← Finset.card_erase_of_mem hmem, ← smul_eq_mul]
    apply Finset.sum_le_card_nsmul
    intro s hs
    obtain ⟨hown, hslider⟩ := Finset.mem_sdiff.mp (Finset.mem_of_mem_erase hs)
    exact card_moveCells_le hown hslider
  have hking : (moveCells b K).card ≤ 8 := by
    rw [moveCells_king hK]
    exact card_kingCells_le b.side K
  have hpos : 0 < (ownCells b \ sliders b).card := Finset.card_pos.mpr ⟨K, hmem⟩
  have hcards := Finset.card_sdiff_add_card_eq_card hsub
  rw [← Finset.sum_sdiff hsub, ← Finset.add_sum_erase _ _ hmem]
  omega

end Cells

section Moves

variable {b : Board} {k : MoveKind} {s t : Square}

theorem mem_takeWhile_of_scan {occ q : Square → Bool} {l : List Square} (h : t ∈ scan occ l)
    (hq : ∀ v, occ v = false → q v = true) (ht : q t = true) : t ∈ l.takeWhile q := by
  induction l with
  | nil => exact h
  | cons v l ih =>
    rw [scan] at h
    rcases List.mem_cons.mp h with rfl | h
    · rw [List.takeWhile_cons_of_pos ht]
      exact List.mem_cons_self
    · cases hv : occ v with
      | true =>
        rw [hv, if_pos rfl] at h
        exact absurd h List.not_mem_nil
      | false =>
        rw [hv, if_neg Bool.false_ne_true] at h
        rw [List.takeWhile_cons_of_pos (hq v hv)]
        exact List.mem_cons_of_mem v (ih h)

theorem mem_sightCells {pc : Piece} (hr : ∃ d ∈ lines pc, t ∈ scan (position b).occupied (ray d s))
    (ht : ¬(position b).Own t) : t ∈ sightCells (sliders b) s := by
  obtain ⟨d, hd, hscan⟩ := hr
  have hnot : ∀ {v}, ¬(position b).Own v → (!decide (v ∈ sliders b)) = true := by
    intro v hv
    rw [Bool.not_eq_true', decide_eq_false_iff_not]
    intro hmem
    exact hv (own_iff.mpr (mem_ownCells.mp (Finset.mem_filter.mp hmem).1))
  apply Finset.mem_biUnion.mpr
  refine ⟨d, List.mem_toFinset.mpr (lines_subset hd), List.mem_toFinset.mpr ?_⟩
  apply mem_takeWhile_of_scan hscan _ (hnot ht)
  intro v hv
  apply hnot
  intro hown
  obtain ⟨q, hq⟩ := hown
  rw [Position.occupied, hq] at hv
  cases hv

theorem mem_moveCells_piece {pc : Piece} (hs : b.cells s = makeCell b.side pc) (hpc : pc ≠ .pawn)
    (hr : Reaches (position b).occupied b.side pc s t) (ht : ¬(position b).Own t) :
    t ∈ moveCells b s := by
  have hcell : ∀ {q : Piece}, b.cells s = makeCell b.side q ↔ pc = q := by
    intro q
    rw [hs, makeCell_inj]
    exact and_iff_right rfl
  have hpromotes : ¬Promotes b s := fun h => hpc (hcell.mp h.1)
  rw [moveCells, if_neg hpromotes, if_neg (mt hcell.mp hpc)]
  cases pc with
  | pawn => exact absurd rfl hpc
  | knight =>
    rw [if_pos (hcell.mpr rfl)]
    exact mem_near_knight hr
  | king =>
    rw [if_neg (by rw [hcell]; decide), if_pos (hcell.mpr rfl)]
    exact Finset.mem_union_left _ (mem_near_king hr)
  | bishop | rook | queen =>
    rw [if_neg (by rw [hcell]; decide), if_neg (by rw [hcell]; decide)]
    exact mem_sightCells hr ht

theorem target_mem_moveCells_pawn (hs : b.cells s = makeCell b.side .pawn)
    (hk : isMoveKindPromote k = true ↔ Promotes b s)
    (ht : t ∈ near ((forward b.side, 0) :: pawnOffsets b.side) s ∨
      ¬isMoveKindPromote k = true ∧
        t ∈ near ((2 * forward b.side, 0) :: (forward b.side, 0) :: pawnOffsets b.side) s) :
    target k t ∈ moveCells b s := by
  rw [moveCells]
  split_ifs with hp
  · have hmem := ht.resolve_right fun h => h.1 (hk.mpr hp)
    exact target_mem_promotionCells (hk.mpr hp) hmem
  · rw [target, if_neg (mt hk.mp hp)]
    rcases ht with ht | ht
    · obtain ⟨d, hd, ho⟩ := mem_near.mp ht
      exact mem_near.mpr ⟨d, List.mem_cons_of_mem _ hd, ho⟩
    · exact ht.2

variable [Globals]

theorem target_mem_moveCells (hb : Regular b) (h : (position b).Pseudo k s t) :
    target k t ∈ moveCells b s := by
  have hpromote : isMoveKindPromote k = true ↔ Promotes b s := promote_iff hb h
  have hcaptures : ∀ {u}, u ∈ near (pawnOffsets b.side) s →
      u ∈ near ((forward b.side, 0) :: pawnOffsets b.side) s := by
    intro u hu
    obtain ⟨d, hd, ho⟩ := mem_near.mp hu
    exact mem_near.mpr ⟨d, List.mem_cons_of_mem _ hd, ho⟩
  cases h with
  | piece hs hpc hr ht => exact mem_moveCells_piece (pieceAt_eq_some.mp hs) hpc hr ht
  | push hs ho ht hk =>
    have hmem : t ∈ near ((forward b.side, 0) :: pawnOffsets b.side) s :=
      mem_near.mpr ⟨_, List.mem_cons_self, ho⟩
    exact target_mem_moveCells_pawn (pieceAt_eq_some.mp hs) hpromote (Or.inl hmem)
  | double hs hr ho ho' hu ht =>
    have hstep := offset_eq_some_iff.mp ho
    have hstep' := offset_eq_some_iff.mp ho'
    have ho₂ : offset (2 * forward b.side, 0) s = some t := by
      rw [position_side] at hstep hstep'
      rw [offset_eq_some_iff]
      exact ⟨by omega, by omega⟩
    have hmem : t ∈ near ((2 * forward b.side, 0) :: (forward b.side, 0) :: pawnOffsets b.side) s :=
      mem_near.mpr ⟨_, List.mem_cons_self, ho₂⟩
    exact target_mem_moveCells_pawn (pieceAt_eq_some.mp hs) hpromote
      (Or.inr ⟨Bool.false_ne_true, hmem⟩)
  | capture hs hr ht hk =>
    exact target_mem_moveCells_pawn (pieceAt_eq_some.mp hs) hpromote
      (Or.inl (hcaptures (mem_near_pawn hr)))
  | enpassant he hpe hs hr hc ho ht =>
    exact target_mem_moveCells_pawn (pieceAt_eq_some.mp hs) hpromote
      (Or.inl (hcaptures (mem_near_pawn (reaches_enpassant hr hc ho))))
  | castlingKingside hf hk hr h5 h6 ha ha' =>
    rw [moveCells_king (pieceAt_eq_some.mp hk), castlingCells, position_side, if_pos rfl]
    exact Finset.mem_union_right _ (Finset.mem_insert_self _ _)
  | castlingQueenside hf hk hr h1 h2 h3 ha ha' =>
    rw [moveCells_king (pieceAt_eq_some.mp hk), castlingCells, position_side, if_pos rfl]
    exact Finset.mem_union_right _ (Finset.mem_insert_of_mem (Finset.mem_singleton_self _))

theorem length_genImpl_le (hb : Regular b) (genSimple genCaptures genSimplePromote : Bool) :
    ((mkMoveGen b).genImpl (mkMoveGen b).side genSimple genCaptures genSimplePromote).length ≤
      299 := by
  obtain ⟨K, hK⟩ := exists_king hb
  have hle := length_le_sum hb (nodup_genImpl hb genSimple genCaptures genSimplePromote)
    (moveCells b) (by
      intro m hm
      obtain ⟨k, s, t, rfl, hp⟩ := pseudo_of_mem_genImpl hb hm
      exact ⟨k, s, t, rfl, hp, target_mem_moveCells hb hp⟩)
  exact hle.trans (sum_moveCells_le (pieceAt_eq_some.mp hK) (card_ownCells hb))

end Moves

def bufszMoves : Nat := 300

/-- No valid board has more moves than the buffer has places. -/
theorem move_buffer_suffices [Globals] (b : Board) (hb : Valid b) :
    (mkMoveGen b).genAllMoves.length ≤ bufszMoves ∧
      (mkMoveGen b).genSimpleMoves.length ≤ bufszMoves ∧
      (mkMoveGen b).genSimpleMovesNoPromote.length ≤ bufszMoves := by
  obtain ⟨hr, -⟩ := valid_iff.mp hb
  have hle := length_genImpl_le hr
  exact ⟨(hle true true true).trans (by decide), (hle true false true).trans (by decide),
    (hle true false false).trans (by decide)⟩

theorem move_buffer_suffices_initialPosition : letI := spreadGlobals
    (mkMoveGen initialPosition).genAllMoves.length ≤ bufszMoves ∧
      (mkMoveGen initialPosition).genSimpleMoves.length ≤ bufszMoves ∧
      (mkMoveGen initialPosition).genSimpleMovesNoPromote.length ≤ bufszMoves :=
  let _ := spreadGlobals
  move_buffer_suffices initialPosition valid_initialPosition

end SoFCheck.Core.MoveLimit
