import SoFCheck.Core.CheckMask
import SoFCheck.Core.GenOrder
import SoFCheck.Core.Sequence

namespace SoFCheck.Core.LegalMoves

open SoFCheck.Core.Types SoFCheck.Core.Grid SoFCheck.Core.BoardState SoFCheck.Core.Moves
open SoFCheck.Core.Attack SoFCheck.Core.Mailbox SoFCheck.Core.Validate SoFCheck.Core.Position
open SoFCheck.Core.MakeCells SoFCheck.Core.MakeRefine SoFCheck.Core.Movegen
open SoFCheck.Core.PseudoLegal SoFCheck.Core.Legality SoFCheck.Core.InitialPosition
open SoFCheck.Core.Generate SoFCheck.Core.CheckMask SoFCheck.Core.GenOrder

variable [Globals] {b : Board} {m : Move} {k : MoveKind} {s t : Square}

omit [Globals] in
theorem legal_iff {p : Position} :
    p.Legal k s t ↔ p.Pseudo k s t ∧ ¬(p.play k s t).InCheck p.side := by
  constructor
  · exact fun h => ⟨h.pseudo, h.safe⟩
  · rintro ⟨h, hsafe⟩
    refine ⟨h, fun hk ha => hsafe ⟨t, ?_, (castling_attacked h hk).mpr ha⟩, hsafe⟩
    rw [Position.play_pieceAt]
    rcases hk with rfl | rfl
    · cases h with
      | push hs ho ht hk => exact absurd (pawnKind_cases hk) (by decide)
      | capture hs hr ht hk => exact absurd (pawnKind_cases hk) (by decide)
      | castlingKingside hf hk hr h5 h6 ha ha' =>
        rw [Position.placement, hk, relocate_eq_some]
        refine Or.inr ⟨?_, ?_, relocate_eq_some.mpr (Or.inl ⟨rfl, rfl⟩)⟩ <;> simp [homeCell_inj]
    · cases h with
      | push hs ho ht hk => exact absurd (pawnKind_cases hk) (by decide)
      | capture hs hr ht hk => exact absurd (pawnKind_cases hk) (by decide)
      | castlingQueenside hf hk hr h1 h2 h3 ha ha' =>
        rw [Position.placement, hk, relocate_eq_some]
        refine Or.inr ⟨?_, ?_, relocate_eq_some.mpr (Or.inl ⟨rfl, rfl⟩)⟩ <;> simp [homeCell_inj]

section Generated

theorem pseudo_of_mem_genImpl (hb : Regular b) {genSimple genCaptures genSimplePromote : Bool}
    (h : m ∈ (mkMoveGen b).genImpl (mkMoveGen b).side genSimple genCaptures genSimplePromote) :
    ∃ k s t, m = mkMove k s t ∧ (position b).Pseudo k s t := by
  rw [genImpl_eq] at h
  split_ifs at h with h0 h1
  · exact pseudo_of_mem hb (fun _ => (attackers_eq_zero hb).mp h0) h
  · exact pseudo_of_mem_genKing hb h
  · refine pseudo_of_mem hb (fun hc => ?_) h
    exact absurd hc Bool.false_ne_true

theorem pseudo_of_mem_genSimplePromotes (hb : Regular b)
    (h : m ∈ (mkMoveGen b).genSimplePromotes) :
    ∃ k s t, m = mkMove k s t ∧ (position b).Pseudo k s t := by
  have hside : (mkMoveGen b).side = b.side ∧ (mkMoveGen b).b = b := by
    rw [mkMoveGen]
    dsimp only
    split_ifs <;> exact ⟨rfl, rfl⟩
  rw [MoveGen.genSimplePromotes, MoveGen.genSimplePromotesImpl, hside.1, hside.2] at h
  split at h
  · exact pseudo_of_mem_genPawnSimple hb h
  · exact pseudo_of_mem_genPawnSimple hb h
  · cases h

theorem nodup_genImpl (hb : Regular b) (genSimple genCaptures genSimplePromote : Bool) :
    ((mkMoveGen b).genImpl (mkMoveGen b).side genSimple genCaptures genSimplePromote).Nodup := by
  rw [genImpl_eq]
  split_ifs
  · exact (ranked_genImplInner hb).nodup
  · exact (ranked_genKing hb).nodup
  · exact (ranked_genImplInner hb).nodup

theorem mem_genAllMoves (hb : Regular b) (hK : ¬(position b).InCheck b.side) :
    mkMove k s t ∈ (mkMoveGen b).genAllMoves ↔ (position b).Pseudo k s t := by
  constructor
  · intro h
    obtain ⟨k', s', t', hm, hp⟩ := pseudo_of_mem_genImpl hb h
    obtain ⟨rfl, rfl, rfl⟩ := mkMove_inj.mp hm
    exact hp
  · intro h
    rw [MoveGen.genAllMoves, genImpl_eq, if_pos ((attackers_eq_zero hb).mpr hK)]
    exact mem_of_pseudo hb (fun _ => hK) h ⟨Or.inl trivial, fun _ => rfl⟩

end Generated

section Valid

theorem pseudo_iff_isMoveValid (hb : Regular b) :
    (∃ k s t, m = mkMove k s t ∧ (position b).Pseudo k s t) ↔
      m.tag = 0 ∧ m.isWellFormed b.side = true ∧ isMoveValid b m = true := by
  constructor
  · rintro ⟨k, s, t, rfl, h⟩
    exact ⟨rfl, (isMoveValid_iff hb).mpr h⟩
  · rintro ⟨ht, hw, hv⟩
    obtain ⟨s, t, hm⟩ := exists_mkMove hw ht
    rw [hm] at hw hv
    exact ⟨_, s, t, hm, (isMoveValid_iff hb).mp ⟨hw, hv⟩⟩

/-- The test for a single move and the generators agree. -/
theorem isMoveValid_iff_generated (hb : Valid b) :
    (∀ m, m ∈ (mkMoveGen b).genAllMoves ∨ m ∈ (mkMoveGen b).genCaptures ∨
        m ∈ (mkMoveGen b).genSimpleMoves ∨ m ∈ (mkMoveGen b).genSimpleMovesNoPromote ∨
        m ∈ (mkMoveGen b).genSimplePromotes →
      m.tag = 0 ∧ m.isWellFormed b.side = true ∧ isMoveValid b m = true) ∧
    (isCheck b = false → ∀ m, m ∈ (mkMoveGen b).genAllMoves ↔
      m.tag = 0 ∧ m.isWellFormed b.side = true ∧ isMoveValid b m = true) ∧
    (isCheck b = true → ∀ m, m.tag = 0 → m.isWellFormed b.side = true → isMoveValid b m = true →
      m ∉ (mkMoveGen b).genAllMoves → isMoveLegal b m = false) := by
  obtain ⟨hr, hl⟩ := valid_iff.mp hb
  refine ⟨fun m hm => ?_, fun hc m => ?_, fun hc m ht hw hv hm => ?_⟩
  · rw [← pseudo_iff_isMoveValid hr]
    rcases hm with hm | hm | hm | hm | hm
    · exact pseudo_of_mem_genImpl hr hm
    · exact pseudo_of_mem_genImpl hr hm
    · exact pseudo_of_mem_genImpl hr hm
    · exact pseudo_of_mem_genImpl hr hm
    · exact pseudo_of_mem_genSimplePromotes hr hm
  · have hK : ¬(position b).InCheck b.side := by rw [← isCheck_iff hr, hc]; decide
    rw [← pseudo_iff_isMoveValid hr]
    constructor
    · exact pseudo_of_mem_genImpl hr
    · rintro ⟨k, s, t, rfl, h⟩
      exact (mem_genAllMoves hr hK).mpr h
  · obtain ⟨k, s, t, rfl, h⟩ := (pseudo_iff_isMoveValid hr).mpr ⟨ht, hw, hv⟩
    rw [← Bool.not_eq_true, isMoveLegal_iff hr hl h, not_not]
    exact inCheck_of_not_mem hr ((isCheck_iff hr).mp hc) h hm

omit [Globals] in
theorem isMoveValid_iff_generated_initial : letI := spreadGlobals
    (∀ m, m ∈ (mkMoveGen initialPosition).genAllMoves ∨
        m ∈ (mkMoveGen initialPosition).genCaptures ∨
        m ∈ (mkMoveGen initialPosition).genSimpleMoves ∨
        m ∈ (mkMoveGen initialPosition).genSimpleMovesNoPromote ∨
        m ∈ (mkMoveGen initialPosition).genSimplePromotes →
      m.tag = 0 ∧ m.isWellFormed initialPosition.side = true ∧
        isMoveValid initialPosition m = true) ∧
    (isCheck initialPosition = false → ∀ m, m ∈ (mkMoveGen initialPosition).genAllMoves ↔
      m.tag = 0 ∧ m.isWellFormed initialPosition.side = true ∧
        isMoveValid initialPosition m = true) ∧
    (isCheck initialPosition = true → ∀ m, m.tag = 0 →
      m.isWellFormed initialPosition.side = true → isMoveValid initialPosition m = true →
      m ∉ (mkMoveGen initialPosition).genAllMoves → isMoveLegal initialPosition m = false) :=
  letI := spreadGlobals
  isMoveValid_iff_generated valid_initialPosition

/-- The generated moves that pass the test are the legal moves of chess, each of
them once. -/
theorem genAllMoves_legal (hb : Valid b) :
    (∀ m, m ∈ (mkMoveGen b).genAllMoves.filter (isMoveLegal b) ↔
      ∃ k s t, m = mkMove k s t ∧ (position b).Legal k s t) ∧
    ((mkMoveGen b).genAllMoves.filter (isMoveLegal b)).Nodup := by
  obtain ⟨hr, hl⟩ := valid_iff.mp hb
  refine ⟨fun m => ?_, (nodup_genImpl hr _ _ _).filter _⟩
  rw [List.mem_filter]
  constructor
  · rintro ⟨hm, hlegal⟩
    obtain ⟨k, s, t, rfl, h⟩ := pseudo_of_mem_genImpl hr hm
    exact ⟨k, s, t, rfl, legal_iff.mpr ⟨h, (isMoveLegal_iff hr hl h).mp hlegal⟩⟩
  · rintro ⟨k, s, t, rfl, h⟩
    obtain ⟨hp, hsafe⟩ := legal_iff.mp h
    refine ⟨?_, (isMoveLegal_iff hr hl hp).mpr hsafe⟩
    by_cases hc : (position b).InCheck b.side
    · by_contra hm
      exact hsafe (inCheck_of_not_mem hr hc hp hm)
    · exact (mem_genAllMoves hr hc).mpr hp

omit [Globals] in
theorem genAllMoves_legal_initial : letI := spreadGlobals
    (∀ m, m ∈ (mkMoveGen initialPosition).genAllMoves.filter (isMoveLegal initialPosition) ↔
      ∃ k s t, m = mkMove k s t ∧ (position initialPosition).Legal k s t) ∧
    ((mkMoveGen initialPosition).genAllMoves.filter (isMoveLegal initialPosition)).Nodup :=
  letI := spreadGlobals
  genAllMoves_legal valid_initialPosition

end Valid

end SoFCheck.Core.LegalMoves
