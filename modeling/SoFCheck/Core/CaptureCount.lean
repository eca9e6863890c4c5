import SoFCheck.Core.MoveCount

namespace SoFCheck.Core.CaptureCount

open SoFCheck.Util.Scan
open SoFCheck.Core.Types SoFCheck.Core.Grid SoFCheck.Core.Geometry SoFCheck.Core.NearAttacks
open SoFCheck.Core.BoardState SoFCheck.Core.Moves SoFCheck.Core.Mailbox SoFCheck.Core.Position
open SoFCheck.Core.Validate SoFCheck.Core.MakeRefine SoFCheck.Core.PseudoLegal SoFCheck.Core.Movegen
open SoFCheck.Core.Attack SoFCheck.Core.MakeRegular SoFCheck.Core.LegalMoves SoFCheck.Core.GenClasses
open SoFCheck.Core.MoveCount

section Cells

/-- The cells that a piece without lines may go to. -/
def near (offs : List Dir) (s : Square) : Finset Square :=
  (offs.filterMap fun d => offset d s).toFinset

theorem mem_near {offs : List Dir} {s t : Square} :
    t ∈ near offs s ↔ ∃ d ∈ offs, offset d s = some t := by
  rw [near, List.mem_toFinset, List.mem_filterMap]

theorem card_near_le (offs : List Dir) (s : Square) : (near offs s).card ≤ offs.length :=
  (List.toFinset_card_le _).trans (List.length_filterMap_le _ _)

/-- The first pieces met along the eight lines. -/
def firstHits (occ : Square → Bool) (s : Square) : Finset Square :=
  dirs.toFinset.biUnion fun d => (scan occ (ray d s)).toFinset.filter fun t => occ t = true

theorem card_blockers_le (occ : Square → Bool) (l : List Square) :
    ((scan occ l).toFinset.filter fun t => occ t = true).card ≤ 1 := by
  rw [Finset.card_le_one]
  intro t ht u hu
  obtain ⟨ht, htocc⟩ := Finset.mem_filter.mp ht
  obtain ⟨hu, huocc⟩ := Finset.mem_filter.mp hu
  obtain ⟨htl, htfree⟩ := (mem_scan _).mp (List.mem_toFinset.mp ht)
  obtain ⟨hul, hufree⟩ := (mem_scan _).mp (List.mem_toFinset.mp hu)
  by_contra hne
  rcases mem_before_or htl hul hne with h | h
  · rw [hufree t h] at htocc
    cases htocc
  · rw [htfree u h] at huocc
    cases huocc

theorem card_firstHits_le (occ : Square → Bool) (s : Square) : (firstHits occ s).card ≤ 8 :=
  Finset.card_biUnion_le_card_mul _ _ 1 fun d _ => card_blockers_le occ (ray d s)

/-- The codes of the promotions on the given cells. -/
def promotionCells (cells : Finset Square) : Finset Square :=
  (Finset.univ ×ˢ cells).image fun e : Fin 4 × Square =>
    ⟨16 + 8 * e.1 + col e.2, by have := col_lt e.2; omega⟩

theorem card_promotionCells_le (cells : Finset Square) :
    (promotionCells cells).card ≤ 4 * cells.card :=
  Finset.card_image_le.trans (by rw [Finset.card_product, Finset.card_fin])

theorem target_mem_promotionCells {k : MoveKind} {t : Square} {cells : Finset Square}
    (hk : isMoveKindPromote k = true) (ht : t ∈ cells) : target k t ∈ promotionCells cells := by
  rw [target, if_pos hk]
  exact Finset.mem_image.mpr ⟨(promoteIndex k, t),
    Finset.mem_product.mpr ⟨Finset.mem_univ _, ht⟩, rfl⟩

end Cells

section Captures

/-- A pawn on the row before the last one. -/
def Promotes (b : Board) (s : Square) : Prop :=
  b.cells s = makeCell b.side .pawn ∧ (row s : Int) + forward b.side = lastRow b.side

instance decidablePromotes (b : Board) (s : Square) : Decidable (Promotes b s) :=
  inferInstanceAs (Decidable (_ ∧ _))

/-- Where the piece on `s` may capture. -/
def captureCells (b : Board) (s : Square) : Finset Square :=
  if Promotes b s then promotionCells (near (pawnOffsets b.side) s)
  else if b.cells s = makeCell b.side .pawn then near (pawnOffsets b.side) s
  else if b.cells s = makeCell b.side .knight then near knightOffsets s
  else if b.cells s = makeCell b.side .king then near kingOffsets s
  else firstHits (position b).occupied s

theorem card_captureCells_le (b : Board) (s : Square) : (captureCells b s).card ≤ 8 := by
  have hpawn := card_near_le (pawnOffsets b.side) s
  have htwo : (pawnOffsets b.side).length = 2 := rfl
  unfold captureCells
  split_ifs
  · exact (card_promotionCells_le _).trans (by omega)
  · omega
  · exact card_near_le knightOffsets s
  · exact card_near_le kingOffsets s
  · exact card_firstHits_le _ s

variable {b : Board} {k : MoveKind} {s t : Square}

theorem mem_near_pawn (h : Reaches (position b).occupied b.side .pawn s t) :
    t ∈ near (pawnOffsets b.side) s := by
  have hbit := (hasBit_pawnAttacks).mpr h
  rw [hasBit_generateDirected] at hbit
  exact mem_near.mpr hbit

theorem reaches_enpassant {e : Square} (hr : row s = row e) (hc : colDist s e = 1)
    (ho : offset (forward b.side, 0) e = some t) :
    Reaches (position b).occupied b.side .pawn s t := by
  obtain ⟨hrow, hcol⟩ := offset_eq_some_iff.mp ho
  rw [colDist] at hc
  constructor
  · omega
  · rw [colDist]
    omega

theorem mem_near_knight {occ : Square → Bool} {c : Color} (h : Reaches occ c .knight s t) :
    t ∈ near knightOffsets s := by
  have hbit := hasBit_knightAttacks.mpr h
  rw [knightAttacks, hasBit_generateDirected] at hbit
  exact mem_near.mpr hbit

theorem mem_near_king {occ : Square → Bool} {c : Color} (h : Reaches occ c .king s t) :
    t ∈ near kingOffsets s := by
  have hbit := hasBit_kingAttacks.mpr h
  rw [kingAttacks, hasBit_generateDirected] at hbit
  exact mem_near.mpr hbit

theorem captureCells_pawn (hs : b.cells s = makeCell b.side .pawn) (hk : isMoveKindPromote k = true ↔
    Promotes b s) (ht : t ∈ near (pawnOffsets b.side) s) : target k t ∈ captureCells b s := by
  unfold captureCells
  split_ifs with hp
  · exact target_mem_promotionCells (hk.mpr hp) ht
  · rw [target, if_neg (mt hk.mp hp)]
    exact ht

theorem captureCells_piece {pc : Piece} (hs : b.cells s = makeCell b.side pc) (hpc : pc ≠ .pawn)
    (hr : Reaches (position b).occupied b.side pc s t) (ht : (position b).occupied t = true) :
    t ∈ captureCells b s := by
  have hcell : ∀ {q : Piece}, b.cells s = makeCell b.side q ↔ pc = q := by
    intro q
    rw [hs, makeCell_inj]
    exact and_iff_right rfl
  have hslide : (∃ d ∈ lines pc, t ∈ scan (position b).occupied (ray d s)) →
      t ∈ firstHits (position b).occupied s := by
    intro h
    obtain ⟨d, hd, hmem⟩ := h
    exact Finset.mem_biUnion.mpr ⟨d, List.mem_toFinset.mpr (lines_subset hd),
      Finset.mem_filter.mpr ⟨List.mem_toFinset.mpr hmem, ht⟩⟩
  have hpromotes : ¬Promotes b s := fun h => hpc (hcell.mp h.1)
  rw [captureCells, if_neg hpromotes, if_neg (mt hcell.mp hpc)]
  cases pc with
  | pawn => exact absurd rfl hpc
  | knight =>
    rw [if_pos (hcell.mpr rfl)]
    exact mem_near_knight hr
  | king =>
    rw [if_neg (by rw [hcell]; decide), if_pos (hcell.mpr rfl)]
    exact mem_near_king hr
  | bishop | rook | queen =>
    rw [if_neg (by rw [hcell]; decide), if_neg (by rw [hcell]; decide)]
    exact hslide hr

variable [Globals]

theorem target_mem_captureCells (hb : Regular b) (h : (position b).Pseudo k s t)
    (hc : isMoveCapture b (mkMove k s t) = true) : target k t ∈ captureCells b s := by
  have hpromote : isMoveKindPromote k = true ↔ Promotes b s := promote_iff hb h
  have hempty : (position b).pieceAt t = none → k = .enpassant := by
    intro ht
    rcases isMoveCapture_mkMove.mp hc with hcell | hk
    · exact absurd ((pieceAt_eq_none hb.cells).mp ht) hcell
    · exact hk
  have hocc : ∀ {u}, (position b).pieceAt u ≠ none → (position b).occupied u = true := by
    intro u hu
    exact Option.isSome_iff_ne_none.mpr hu
  cases h with
  | @piece pc s t hs hpc hr ht =>
    have hne : (position b).pieceAt t ≠ none := fun hnone => by cases hempty hnone
    exact captureCells_piece (pieceAt_eq_some.mp hs) hpc hr (hocc hne)
  | push hs ho ht hk =>
    obtain rfl := hempty ht
    exact absurd (pawnKind_cases hk) (by decide)
  | double hs hr ho ho' hu ht => cases hempty ht
  | capture hs hr ht hk =>
    exact captureCells_pawn (pieceAt_eq_some.mp hs) hpromote (mem_near_pawn hr)
  | @enpassant e s t he hpe hs hr hcol ho ht =>
    exact captureCells_pawn (pieceAt_eq_some.mp hs) hpromote
      (mem_near_pawn (reaches_enpassant hr hcol ho))
  | castlingKingside hf hk hr h5 h6 ha ha' => cases hempty h6
  | castlingQueenside hf hk hr h1 h2 h3 ha ha' => cases hempty h2

theorem length_genCaptures_le (hb : Valid b) : (mkMoveGen b).genCaptures.length ≤ 128 := by
  obtain ⟨hr, -⟩ := valid_iff.mp hb
  have hle := length_le_sum hr (generators_partition hb).1.2.2.2 (captureCells b) (by
    intro m hm
    obtain ⟨hall, hcapture⟩ := (mem_genCaptures hr).mp hm
    obtain ⟨k, s, t, rfl, hp⟩ := pseudo_of_mem_genImpl hr hall
    exact ⟨k, s, t, rfl, hp, target_mem_captureCells hr hp hcapture⟩)
  have hsum := Finset.sum_le_card_nsmul (ownCells b) (fun s => (captureCells b s).card) 8
    (fun s _ => card_captureCells_le b s)
  have hown := card_ownCells hr
  rw [smul_eq_mul] at hsum
  omega

end Captures

section Promotions

variable {b : Board} {k : MoveKind} {s t : Square}

/-- Where the pawn on `s` may promote without a capture. -/
def promoteCells (b : Board) (s : Square) : Finset Square :=
  if (row s : Int) + forward b.side = lastRow b.side then promotionCells (near [(forward b.side, 0)] s)
  else ∅

theorem sum_promoteCells_le (b : Board) : ∑ s, (promoteCells b s).card ≤ 32 := by
  have hle : ∀ s ∈ Finset.univ, (promoteCells b s).card ≤
      if (row s : Int) + forward b.side = lastRow b.side then 4 else 0 := by
    intro s _
    unfold promoteCells
    split_ifs
    · have hnear := card_near_le [(forward b.side, 0)] s
      exact (card_promotionCells_le _).trans (Nat.mul_le_mul_left 4 hnear)
    · exact Nat.le_of_eq Finset.card_empty
  have hrows : ∀ c : Color, (∑ s : Square,
      if (row s : Int) + forward c = lastRow c then 4 else 0) = 32 := by decide
  exact (Finset.sum_le_sum hle).trans (Nat.le_of_eq (hrows b.side))

variable [Globals]

theorem target_mem_promoteCells (hb : Regular b) (h : (position b).Pseudo k s t)
    (hk : isMoveKindPromote k = true) (hc : isMoveCapture b (mkMove k s t) = false) :
    target k t ∈ promoteCells b s := by
  have hrow := ((promote_iff hb h).mp hk).2
  cases h with
  | push hs ho ht hpk =>
    rw [promoteCells, if_pos hrow]
    exact target_mem_promotionCells hk (mem_near.mpr ⟨_, List.mem_singleton_self _, ho⟩)
  | capture hs hr ht hpk =>
    rw [capture_of_enemy ht] at hc
    cases hc
  | piece | double | enpassant | castlingKingside | castlingQueenside => cases hk

theorem length_genSimplePromotes_le (hb : Valid b) :
    (mkMoveGen b).genSimplePromotes.length ≤ 32 := by
  obtain ⟨hr, -⟩ := valid_iff.mp hb
  have hle := length_le_sum hr (generators_partition hb).1.2.2.1 (promoteCells b) (by
    intro m hm
    obtain ⟨hall, hcapture, hk⟩ := (mem_genSimplePromotes hr).mp hm
    obtain ⟨k, s, t, rfl, hp⟩ := pseudo_of_mem_genImpl hr hall
    exact ⟨k, s, t, rfl, hp, target_mem_promoteCells hr hp hk hcapture⟩)
  exact hle.trans ((Finset.sum_le_sum_of_subset (Finset.subset_univ _)).trans
    (sum_promoteCells_le b))

end Promotions

end SoFCheck.Core.CaptureCount
