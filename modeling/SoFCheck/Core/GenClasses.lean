import SoFCheck.Core.LegalMoves

namespace SoFCheck.Core.GenClasses

open SoFCheck.Util.Bits
open SoFCheck.Core.Types SoFCheck.Core.Grid SoFCheck.Core.Geometry SoFCheck.Core.BoardState
open SoFCheck.Core.Moves SoFCheck.Core.Attack SoFCheck.Core.Mailbox SoFCheck.Core.Validate
open SoFCheck.Core.Position SoFCheck.Core.MakeRefine SoFCheck.Core.Movegen
open SoFCheck.Core.PseudoLegal SoFCheck.Core.Generate SoFCheck.Core.CheckMask
open SoFCheck.Core.GenOrder SoFCheck.Core.Between SoFCheck.Core.LegalMoves
open SoFCheck.Core.InitialPosition

/-- The moves that a call of the generator with these flags asks for. -/
def Wanted (b : Board) (genSimple genCaptures genSimplePromote : Bool) (m : Move) : Prop :=
  (isMoveCapture b m = true → genCaptures = true) ∧
    (isMoveCapture b m = false →
      genSimple = true ∧ (isMoveKindPromote m.kind = true → genSimplePromote = true))

variable {b : Board} {m : Move} {k : MoveKind} {s t : Square}
variable {genSimple genCaptures genSimplePromote : Bool} {filter : GenFilter}

theorem isMoveCapture_mkMove :
    isMoveCapture b (mkMove k s t) = true ↔ b.cells t ≠ emptyCell ∨ k = .enpassant := by
  rw [isMoveCapture, Bool.or_eq_true, bne_iff_ne, decide_eq_true_eq, mkMove, toSquare_toCoord]

theorem capture_of_enemy (ht : (position b).Enemy t) : isMoveCapture b (mkMove k s t) = true := by
  obtain ⟨q, hq⟩ := enemy_iff.mp ht
  rw [isMoveCapture_mkMove, hq]
  exact Or.inl (makeCell_ne_emptyCell _ _)

section Parts

variable [Globals]

theorem not_capture_of_push (hb : Regular b) (ht : (position b).pieceAt t = none)
    (hk : (position b).PawnKind k t) : isMoveCapture b (mkMove k s t) = false := by
  rw [← Bool.not_eq_true, isMoveCapture_mkMove, not_or, not_not, ← pieceAt_eq_none hb.cells]
  refine ⟨ht, ?_⟩
  rintro rfl
  exact absurd (pawnKind_cases hk) (by decide)

theorem mem_genPawnSimple_iff (hb : Regular b) {policy : PromoteGenPolicy} :
    m ∈ genPawnSimple b.side policy b filter ↔ m ∈ genPawnSimple b.side .all b filter ∧
      isMoveCapture b m = false ∧ (isMoveKindPromote m.kind = true → policy ≠ .noPromote) ∧
      (isMoveKindPromote m.kind = false → policy ≠ .promoteOnly) := by
  have hsingle : ∀ isPromote, m ∈ doGenPawnSingle b.side isPromote b (pawnsOf b.side isPromote b)
      filter → isMoveCapture b m = false ∧ isMoveKindPromote m.kind = isPromote := by
    intro isPromote hm
    obtain ⟨k, s, t, rfl, -, -, ht, -, hk, hp⟩ := (mem_doGenPawnSingle hb).mp hm
    exact ⟨not_capture_of_push hb ht hk, hp⟩
  have hdouble : m ∈ doGenPawnDouble b.side b
      (b.bbPieces (makeCell b.side .pawn) &&& bbRow (rowIdx (doubleMoveSrcRow b.side))) filter →
      isMoveCapture b m = false ∧ isMoveKindPromote m.kind = false := by
    intro hm
    obtain ⟨s, t, rfl, hp, -⟩ := (mem_doGenPawnDouble hb).mp hm
    cases hp with
    | push hs ho ht hk => exact absurd (pawnKind_cases hk) (by decide)
    | capture hs hr ht hk => exact absurd (pawnKind_cases hk) (by decide)
    | double hs hr ho ho' hu ht =>
      refine ⟨?_, rfl⟩
      rw [← Bool.not_eq_true, isMoveCapture_mkMove, not_or, not_not, ← pieceAt_eq_none hb.cells]
      exact ⟨ht, by decide⟩
  have hf := hsingle false
  have ht := hsingle true
  rw [genPawnSimple_eq, genPawnSimple_eq]
  simp only [List.mem_append, List.mem_ite_nil_right]
  cases policy <;> grind

variable (genCaptures) in
theorem mem_genPawnSimple_wanted (hb : Regular b) :
    (genSimple = true ∧ m ∈ genPawnSimple b.side (if genSimplePromote then .all else .noPromote) b
      filter) ↔ m ∈ genPawnSimple b.side .all b filter ∧
        Wanted b genSimple genCaptures genSimplePromote m := by
  rw [mem_genPawnSimple_iff hb]
  unfold Wanted
  constructor
  · intro h
    obtain ⟨hs, hm, hc, hp, -⟩ := h
    refine ⟨hm, fun h => absurd h (by simp [hc]), fun _ => ⟨hs, fun h => ?_⟩⟩
    by_contra hg
    exact hp h (if_neg hg)
  · intro h
    obtain ⟨hm, hw⟩ := h
    obtain ⟨-, hc, -⟩ := (mem_genPawnSimple_iff hb).mp hm
    obtain ⟨hs, hp⟩ := hw.2 hc
    refine ⟨hs, hm, hc, fun h => ?_, fun h => ?_⟩
    · rw [if_pos (hp h)]
      decide
    · split <;> decide

variable (genSimple genSimplePromote) in
theorem mem_pawnCaptures_wanted (hb : Regular b) :
    (genCaptures = true ∧ (m ∈ genPawnCapture b.side b filter ∨ m ∈ genPawnEnpassant b.side b)) ↔
      (m ∈ genPawnCapture b.side b filter ∨ m ∈ genPawnEnpassant b.side b) ∧
        Wanted b genSimple genCaptures genSimplePromote m := by
  have hcapture : m ∈ genPawnCapture b.side b filter ∨ m ∈ genPawnEnpassant b.side b →
      isMoveCapture b m = true := by
    intro h
    cases h with
    | inl h =>
      obtain ⟨k, s, t, rfl, -, -, ht, -⟩ := (mem_genPawnCapture hb).mp h
      exact capture_of_enemy ht
    | inr h =>
      obtain ⟨s, t, rfl, -⟩ := (mem_genPawnEnpassant hb).mp h
      exact isMoveCapture_mkMove.mpr (Or.inr rfl)
  rw [and_comm]
  refine and_congr_right fun h => ?_
  simp [Wanted, hcapture h]

section Pieces

variable (genSimplePromote)

/-- A piece only enters the cells that its generator is asked to consider. -/
theorem allowed_iff (hb : Regular b) (hg : genSimple = true ∨ genCaptures = true) :
    hasBit (getAllowedMask b.side genSimple genCaptures b) t = true ↔
      hasBit (getAllowedMask b.side true true b) t = true ∧
        Wanted b genSimple genCaptures genSimplePromote (mkMove .simple s t) := by
  have hall : hasBit (getAllowedMask b.side true true b) t = true ↔ ¬(position b).Own t :=
    ⟨not_own_of_allowed hb, allowed_of_not_own hb⟩
  have hcells : b.cells t = emptyCell ∨ (position b).Own t ∨ (position b).Enemy t := by
    rw [own_iff, enemy_iff]
    rcases isCellValid_iff.mp (hb.cells t) with he | ⟨c, pc, he⟩
    · exact Or.inl he
    · by_cases hc : c = b.side
      · exact Or.inr (Or.inl ⟨pc, hc ▸ he⟩)
      · refine Or.inr (Or.inr ⟨pc, ?_⟩)
        rw [he]
        cases c <;> cases hs : b.side <;> simp_all [invert]
  have hown : b.cells t = emptyCell → ¬(position b).Own t := by
    rw [own_iff]
    rintro he ⟨pc, hpc⟩
    exact makeCell_ne_emptyCell _ _ (hpc.symm.trans he)
  have henemy : (position b).Enemy t → b.cells t ≠ emptyCell ∧ ¬(position b).Own t := by
    rw [enemy_iff, own_iff]
    rintro ⟨pc, hpc⟩
    rw [hpc]
    refine ⟨makeCell_ne_emptyCell _ _, ?_⟩
    rintro ⟨pc', hpc'⟩
    exact invert_ne _ (makeCell_inj.mp hpc').1
  have hmask : hasBit (getAllowedMask b.side genSimple genCaptures b) t = true ↔
      if genSimple = true then (if genCaptures = true then ¬(position b).Own t
        else b.cells t = emptyCell) else (position b).Enemy t := by
    cases genSimple <;> cases genCaptures
    · exact absurd hg (by decide)
    · exact hasBit_enemies hb
    · exact (hasBit_not_bbAll hb).trans (pieceAt_eq_none hb.cells)
    · exact hall
  have hcapture : isMoveCapture b (mkMove .simple s t) = true ↔ b.cells t ≠ emptyCell := by
    rw [isMoveCapture_mkMove, or_iff_left (by decide)]
  have hpromote : isMoveKindPromote (mkMove .simple s t).kind = false := rfl
  rw [hmask, hall, Wanted, ← Bool.not_eq_true, hcapture, hpromote]
  cases genSimple <;> cases genCaptures <;> grind

theorem mem_pieces_wanted (hb : Regular b) (hg : genSimple = true ∨ genCaptures = true)
    {P F : Square → Square → Prop} :
    (∃ s t, m = mkMove .simple s t ∧ P s t ∧
      hasBit (getAllowedMask b.side genSimple genCaptures b) t = true ∧ F s t) ↔
    (∃ s t, m = mkMove .simple s t ∧ P s t ∧
      hasBit (getAllowedMask b.side true true b) t = true ∧ F s t) ∧
        Wanted b genSimple genCaptures genSimplePromote m := by
  constructor
  · intro h
    obtain ⟨s, t, rfl, hP, ha, hF⟩ := h
    obtain ⟨ha, hw⟩ := (allowed_iff genSimplePromote (s := s) hb hg).mp ha
    exact ⟨⟨s, t, rfl, hP, ha, hF⟩, hw⟩
  · intro h
    obtain ⟨⟨s, t, rfl, hP, ha, hF⟩, hw⟩ := h
    exact ⟨s, t, rfl, hP, (allowed_iff _ hb hg).mpr ⟨ha, hw⟩, hF⟩

theorem mem_genKing_wanted (hb : Regular b) (hg : genSimple = true ∨ genCaptures = true) :
    m ∈ genKing b.side genSimple genCaptures b ↔ m ∈ genKing b.side true true b ∧
      Wanted b genSimple genCaptures genSimplePromote m := by
  rw [mem_genKing hb, mem_genKing hb]
  simpa only [and_assoc, and_true] using mem_pieces_wanted genSimplePromote hb hg (F := fun _ _ => True)
    (P := fun s t => (position b).pieceAt s = some (b.side, .king) ∧
      Reaches (position b).occupied b.side .king s t)

theorem mem_genKnight_wanted (hb : Regular b) (hg : genSimple = true ∨ genCaptures = true) :
    m ∈ genKnight b.side genSimple genCaptures b filter ↔
      m ∈ genKnight b.side true true b filter ∧
        Wanted b genSimple genCaptures genSimplePromote m := by
  rw [mem_genKnight hb, mem_genKnight hb]
  simpa only [and_assoc] using mem_pieces_wanted genSimplePromote hb hg (F := fun _ t => Allows filter t)
    (P := fun s t => (position b).pieceAt s = some (b.side, .knight) ∧
      Reaches (position b).occupied b.side .knight s t)

theorem mem_genBishop_wanted (hb : Regular b) (hg : genSimple = true ∨ genCaptures = true) :
    m ∈ genBishop b.side genSimple genCaptures b (bbDiagPieces b.side b) filter ↔
      m ∈ genBishop b.side true true b (bbDiagPieces b.side b) filter ∧
        Wanted b genSimple genCaptures genSimplePromote m := by
  rw [mem_genBishop hb, mem_genBishop hb]
  simpa only [and_assoc] using mem_pieces_wanted genSimplePromote hb hg (F := fun _ t => Allows filter t)
    (P := fun s t => ((position b).pieceAt s = some (b.side, .bishop) ∨
      (position b).pieceAt s = some (b.side, .queen)) ∧
      Reaches (position b).occupied b.side .bishop s t)

theorem mem_genRook_wanted (hb : Regular b) (hg : genSimple = true ∨ genCaptures = true) :
    m ∈ genRook b.side genSimple genCaptures b (bbLinePieces b.side b) filter ↔
      m ∈ genRook b.side true true b (bbLinePieces b.side b) filter ∧
        Wanted b genSimple genCaptures genSimplePromote m := by
  rw [mem_genRook hb, mem_genRook hb]
  simpa only [and_assoc] using mem_pieces_wanted genSimplePromote hb hg (F := fun _ t => Allows filter t)
    (P := fun s t => ((position b).pieceAt s = some (b.side, .rook) ∨
      (position b).pieceAt s = some (b.side, .queen)) ∧
      Reaches (position b).occupied b.side .rook s t)

end Pieces

theorem mem_genCastling_wanted (hb : Regular b) (hK : ¬(position b).InCheck b.side) :
    (genSimple = true ∧ m ∈ genCastling b.side b) ↔ m ∈ genCastling b.side b ∧
      Wanted b genSimple genCaptures genSimplePromote m := by
  rw [and_comm]
  refine and_congr_right fun h => ?_
  obtain ⟨k, s, t, rfl, hk, hp⟩ := (mem_genCastling hb hK).mp h
  have hempty : (position b).pieceAt t = none := by
    rcases hk with rfl | rfl
    · cases hp with
      | push hs ho ht hk => exact absurd (pawnKind_cases hk) (by decide)
      | capture hs hr ht hk => exact absurd (pawnKind_cases hk) (by decide)
      | castlingKingside hf hk hr h5 h6 ha ha' => exact h6
    · cases hp with
      | push hs ho ht hk => exact absurd (pawnKind_cases hk) (by decide)
      | capture hs hr ht hk => exact absurd (pawnKind_cases hk) (by decide)
      | castlingQueenside hf hk hr h1 h2 h3 ha ha' => exact h2
  have hcapture : isMoveCapture b (mkMove k s t) = false := by
    rw [← Bool.not_eq_true, isMoveCapture_mkMove, not_or, not_not, ← pieceAt_eq_none hb.cells]
    refine ⟨hempty, ?_⟩
    rcases hk with rfl | rfl <;> decide
  have hpromote : isMoveKindPromote (mkMove k s t).kind = false := by
    rcases hk with rfl | rfl <;> rfl
  simp [Wanted, hcapture, hpromote]

theorem mem_genImplInner_iff (hb : Regular b)
    (hK : filter.genCastling = true → ¬(position b).InCheck b.side)
    (hg : genSimple = true ∨ genCaptures = true) :
    m ∈ genImplInner b.side genSimple genCaptures genSimplePromote b filter ↔
      m ∈ genImplInner b.side true true true b filter ∧
        Wanted b genSimple genCaptures genSimplePromote m := by
  have hcastling : (genSimple = true ∧ filter.genCastling = true) ∧ m ∈ genCastling b.side b ↔
      (filter.genCastling = true ∧ m ∈ genCastling b.side b) ∧
        Wanted b genSimple genCaptures genSimplePromote m := by
    rw [and_comm (a := genSimple = true), and_assoc, and_assoc]
    exact and_congr_right fun hf => mem_genCastling_wanted hb (hK hf)
  simp only [genImplInner, List.mem_append, List.mem_ite_nil_right, Bool.and_eq_true, if_true,
    true_and]
  rw [hcastling, mem_genPawnSimple_wanted genCaptures hb,
    mem_pawnCaptures_wanted genSimple genSimplePromote hb,
    mem_genKing_wanted genSimplePromote hb hg, mem_genKnight_wanted genSimplePromote hb hg,
    mem_genBishop_wanted genSimplePromote hb hg, mem_genRook_wanted genSimplePromote hb hg]
  simp only [or_and_right]

end Parts

section Generators

variable [Globals]

theorem mem_genImpl_iff (hb : Regular b) (hg : genSimple = true ∨ genCaptures = true) :
    m ∈ (mkMoveGen b).genImpl (mkMoveGen b).side genSimple genCaptures genSimplePromote ↔
      m ∈ (mkMoveGen b).genAllMoves ∧ Wanted b genSimple genCaptures genSimplePromote m := by
  rw [MoveGen.genAllMoves, genImpl_eq, genImpl_eq]
  split_ifs with h0 h1
  · exact mem_genImplInner_iff hb (fun _ => (attackers_eq_zero hb).mp h0) hg
  · exact mem_genKing_wanted _ hb hg
  · exact mem_genImplInner_iff hb (fun hc => absurd hc Bool.false_ne_true) hg

theorem mem_genCaptures (hb : Regular b) :
    m ∈ (mkMoveGen b).genCaptures ↔
      m ∈ (mkMoveGen b).genAllMoves ∧ isMoveCapture b m = true := by
  rw [MoveGen.genCaptures, mem_genImpl_iff hb (Or.inr rfl)]
  simp [Wanted]

theorem mem_genSimpleMovesNoPromote (hb : Regular b) :
    m ∈ (mkMoveGen b).genSimpleMovesNoPromote ↔ m ∈ (mkMoveGen b).genAllMoves ∧
      isMoveCapture b m = false ∧ isMoveKindPromote m.kind = false := by
  rw [MoveGen.genSimpleMovesNoPromote, mem_genImpl_iff hb (Or.inl rfl)]
  unfold Wanted
  cases isMoveCapture b m <;> simp

theorem mem_genSimpleMoves (hb : Regular b) :
    m ∈ (mkMoveGen b).genSimpleMoves ↔
      m ∈ (mkMoveGen b).genAllMoves ∧ isMoveCapture b m = false := by
  rw [MoveGen.genSimpleMoves, mem_genImpl_iff hb (Or.inl rfl)]
  unfold Wanted
  cases isMoveCapture b m <;> simp

theorem mem_genPawnSimple_of_promote (hb : Regular b)
    (hK : filter.genCastling = true → ¬(position b).InCheck b.side)
    (h : m ∈ genImplInner b.side true true true b filter) (hc : isMoveCapture b m = false)
    (hp : isMoveKindPromote m.kind = true) : m ∈ genPawnSimple b.side .all b filter := by
  have hsimple : ∀ {s t}, m = mkMove .simple s t → isMoveKindPromote m.kind = false := by
    rintro s t rfl
    rfl
  have hcastling : ∀ {k s t}, m = mkMove k s t → k = .castlingKingside ∨ k = .castlingQueenside →
      isMoveKindPromote m.kind = false := by
    rintro k s t rfl (rfl | rfl) <;> rfl
  simp only [genImplInner, List.mem_append, if_true, List.mem_ite_nil_right, Bool.true_and] at h
  rcases h with (((((h | h) | h) | h) | h) | h) | ⟨hf, h⟩
  · exact h
  · have hcapture : false = true :=
      ((mem_pawnCaptures_wanted true true hb).mpr ⟨h, by simp [Wanted, hc]⟩).1
    exact absurd hcapture Bool.false_ne_true
  · obtain ⟨s, t, hm, -⟩ := (mem_genKing hb).mp h
    simp [hsimple hm] at hp
  · obtain ⟨s, t, hm, -⟩ := (mem_genKnight hb).mp h
    simp [hsimple hm] at hp
  · obtain ⟨s, t, hm, -⟩ := (mem_genBishop hb).mp h
    simp [hsimple hm] at hp
  · obtain ⟨s, t, hm, -⟩ := (mem_genRook hb).mp h
    simp [hsimple hm] at hp
  · obtain ⟨k, s, t, hm, hk, -⟩ := (mem_genCastling hb (hK hf)).mp h
    simp [hcastling hm hk] at hp

theorem mem_promoteOnly_iff (hb : Regular b)
    (hK : filter.genCastling = true → ¬(position b).InCheck b.side) :
    m ∈ genPawnSimple b.side .promoteOnly b filter ↔
      m ∈ genImplInner b.side true true true b filter ∧ isMoveCapture b m = false ∧
        isMoveKindPromote m.kind = true := by
  rw [mem_genPawnSimple_iff hb]
  constructor
  · intro h
    obtain ⟨hm, hc, -, hp⟩ := h
    refine ⟨?_, hc, ?_⟩
    · simp only [genImplInner, List.mem_append, if_true]
      exact Or.inl (Or.inl (Or.inl (Or.inl (Or.inl (Or.inl hm)))))
    · rw [← Bool.not_eq_false]
      exact fun hn => hp hn rfl
  · intro h
    obtain ⟨hm, hc, hp⟩ := h
    refine ⟨mem_genPawnSimple_of_promote hb hK hm hc hp, hc, fun _ => by decide, fun hn => ?_⟩
    rw [hp] at hn
    exact absurd hn (by decide)

theorem genSimplePromotes_eq (b : Board) : (mkMoveGen b).genSimplePromotes =
    if cellAttackers b (kingPos b b.side) (invert b.side) = 0 then
      genPawnSimple b.side .promoteOnly b .simple
    else if !hasZeroOrOneBit (cellAttackers b (kingPos b b.side) (invert b.side)) then []
    else genPawnSimple b.side .promoteOnly b
      (.check (between (getLowest (cellAttackers b (kingPos b b.side) (invert b.side)))
        (kingPos b b.side) ||| cellAttackers b (kingPos b b.side) (invert b.side))) := by
  rw [mkMoveGen]
  dsimp only
  split_ifs <;> rfl

theorem mem_genSimplePromotes (hb : Regular b) :
    m ∈ (mkMoveGen b).genSimplePromotes ↔ m ∈ (mkMoveGen b).genAllMoves ∧
      isMoveCapture b m = false ∧ isMoveKindPromote m.kind = true := by
  rw [MoveGen.genAllMoves, genImpl_eq, genSimplePromotes_eq]
  split_ifs with h0 h1
  · exact mem_promoteOnly_iff hb fun _ => (attackers_eq_zero hb).mp h0
  · rw [List.mem_nil_iff, false_iff, mem_genKing hb]
    rintro ⟨⟨s, t, rfl, -⟩, -, hp⟩
    exact absurd hp Bool.false_ne_true
  · exact mem_promoteOnly_iff hb fun hc => absurd hc Bool.false_ne_true

theorem nodup_genSimplePromotes (hb : Regular b) : (mkMoveGen b).genSimplePromotes.Nodup := by
  have hpawns : ∀ filter, (genPawnSimple b.side .promoteOnly b filter).Nodup := by
    intro filter
    rw [genPawnSimple_eq, if_neg (by decide), if_pos (Or.inr rfl), List.nil_append]
    exact (ranked_doGenPawnSingle hb true rfl).nodup
  rw [genSimplePromotes_eq]
  split_ifs
  · exact hpawns _
  · exact List.nodup_nil
  · exact hpawns _

/-- The staged generators share out the moves of the full one. -/
theorem generators_partition (hb : Valid b) :
    ((mkMoveGen b).genAllMoves.Nodup ∧ (mkMoveGen b).genSimpleMovesNoPromote.Nodup ∧
        (mkMoveGen b).genSimplePromotes.Nodup ∧ (mkMoveGen b).genCaptures.Nodup) ∧
      ((mkMoveGen b).genSimpleMovesNoPromote.Disjoint (mkMoveGen b).genSimplePromotes ∧
        (mkMoveGen b).genSimpleMovesNoPromote.Disjoint (mkMoveGen b).genCaptures ∧
        (mkMoveGen b).genSimplePromotes.Disjoint (mkMoveGen b).genCaptures) ∧
      (∀ m, m ∈ (mkMoveGen b).genAllMoves ↔ m ∈ (mkMoveGen b).genSimpleMovesNoPromote ∨
        m ∈ (mkMoveGen b).genSimplePromotes ∨ m ∈ (mkMoveGen b).genCaptures) ∧
      (∀ m, m ∈ (mkMoveGen b).genSimpleMoves ↔ m ∈ (mkMoveGen b).genSimpleMovesNoPromote ∨
        m ∈ (mkMoveGen b).genSimplePromotes) ∧
      ∀ m ∈ (mkMoveGen b).genAllMoves,
        (m ∈ (mkMoveGen b).genCaptures ↔ isMoveCapture b m = true) ∧
          (m ∈ (mkMoveGen b).genSimplePromotes ↔
            isMoveCapture b m = false ∧ isMoveKindPromote m.kind = true) := by
  obtain ⟨hr, -⟩ := valid_iff.mp hb
  refine ⟨⟨nodup_genImpl hr _ _ _, nodup_genImpl hr _ _ _, nodup_genSimplePromotes hr,
    nodup_genImpl hr _ _ _⟩, ⟨?_, ?_, ?_⟩, ?_, ?_, ?_⟩
  · intro m h h'
    have hp := ((mem_genSimpleMovesNoPromote hr).mp h).2.2
    rw [((mem_genSimplePromotes hr).mp h').2.2] at hp
    cases hp
  · intro m h h'
    have hc := ((mem_genSimpleMovesNoPromote hr).mp h).2.1
    rw [((mem_genCaptures hr).mp h').2] at hc
    cases hc
  · intro m h h'
    have hc := ((mem_genSimplePromotes hr).mp h).2.1
    rw [((mem_genCaptures hr).mp h').2] at hc
    cases hc
  · intro m
    rw [mem_genSimpleMovesNoPromote hr, mem_genSimplePromotes hr, mem_genCaptures hr]
    cases isMoveCapture b m <;> cases isMoveKindPromote m.kind <;> simp
  · intro m
    rw [mem_genSimpleMovesNoPromote hr, mem_genSimplePromotes hr, mem_genSimpleMoves hr]
    cases isMoveCapture b m <;> cases isMoveKindPromote m.kind <;> simp
  · intro m h
    rw [mem_genSimplePromotes hr, mem_genCaptures hr]
    exact ⟨and_iff_right h, and_iff_right h⟩

omit [Globals] in
theorem generators_partition_initial : letI := spreadGlobals
    ((mkMoveGen initialPosition).genAllMoves.Nodup ∧
        (mkMoveGen initialPosition).genSimpleMovesNoPromote.Nodup ∧
        (mkMoveGen initialPosition).genSimplePromotes.Nodup ∧
        (mkMoveGen initialPosition).genCaptures.Nodup) :=
  letI := spreadGlobals
  (generators_partition valid_initialPosition).1

end Generators

end SoFCheck.Core.GenClasses
