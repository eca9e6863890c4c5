import SoFCheck.Core.Generate
import SoFCheck.Core.Legality

namespace SoFCheck.Core.CheckMask

open SoFCheck.Util.Bits SoFCheck.Util.Scan
open SoFCheck.Core.Types SoFCheck.Core.Grid SoFCheck.Core.Geometry SoFCheck.Core.Between
open SoFCheck.Core.BoardState SoFCheck.Core.Moves SoFCheck.Core.Attack SoFCheck.Core.Mailbox
open SoFCheck.Core.Validate SoFCheck.Core.Position SoFCheck.Core.MakeRegular
open SoFCheck.Core.MakeRefine SoFCheck.Core.Movegen SoFCheck.Core.PseudoLegal
open SoFCheck.Core.Legality SoFCheck.Core.Generate

section Survive

variable {p p' : Position} {c : Color} {pc : Piece} {k : MoveKind} {s t u K : Square}

/-- The enemy `pc` on `u` gives check to the king on `K`. -/
structure Checks (p : Position) (pc : Piece) (u K : Square) : Prop where
  piece : p.pieceAt u = some (invert p.side, pc)
  reaches : Reaches p.occupied (invert p.side) pc u K

/-- A move to `t` takes the piece on `u` or gets in the way of its attack. -/
def Stops (p : Position) (k : MoveKind) (t : Square) (pc : Piece) (u K : Square) : Prop :=
  u = t ∨ (k = .enpassant ∧ p.enpassant = some u) ∨ ∃ d ∈ lines pc, K ∈ ray d u ∧ t ∈ inner d u K

theorem attack_survives (hr : Reaches p.occupied c pc u K) (hu : p'.pieceAt u = some (c, pc))
    (hocc : ∀ v, v ≠ t → p'.occupied v = true → p.occupied v = true)
    (ht : ∀ d ∈ lines pc, K ∈ ray d u → t ∉ inner d u K) : p'.Attacked c K := by
  have hslide : (∃ d ∈ lines pc, K ∈ scan p.occupied (ray d u)) →
      ∃ d ∈ lines pc, K ∈ scan p'.occupied (ray d u) := by
    rintro ⟨d, hd, hm⟩
    obtain ⟨hK, hfree⟩ := (mem_scan _).mp hm
    refine ⟨d, hd, (mem_scan _).mpr ⟨hK, fun v hv => ?_⟩⟩
    have hvt : v ≠ t := by
      rintro rfl
      exact ht d hd hK hv
    have hno := mt (hocc v hvt) (Bool.eq_false_iff.mp (hfree v hv))
    exact Bool.eq_false_iff.mpr hno
  refine ⟨u, pc, hu, ?_⟩
  cases pc with
  | pawn | king | knight => exact hr
  | bishop | rook | queen => exact hslide hr

theorem placement_of_ne (hk : ¬(k = .castlingKingside ∨ k = .castlingQueenside)) (hs : u ≠ s)
    (ht : u ≠ t) (he : ¬(k = .enpassant ∧ p.enpassant = some u)) :
    p.placement k s t u = p.pieceAt u := by
  have hmove : ∀ x, Position.relocate p.pieceAt s t x u = p.pieceAt u := fun x => by
    rw [Position.relocate, Function.update_of_ne ht, Function.update_of_ne hs]
  cases k with
  | null | invalid => rfl
  | simple | pawnDoubleMove => exact hmove _
  | promoteKnight | promoteBishop | promoteRook | promoteQueen => exact hmove _
  | castlingKingside => exact absurd (Or.inl rfl) hk
  | castlingQueenside => exact absurd (Or.inr rfl) hk
  | enpassant =>
    rw [Position.placement]
    cases hep : p.enpassant with
    | none => rfl
    | some e =>
      dsimp only
      rw [Function.update_of_ne, hmove]
      rintro rfl
      exact he ⟨rfl, hep⟩

theorem occupied_of_play (hk : ¬(k = .castlingKingside ∨ k = .castlingQueenside)) (ht : u ≠ t)
    (h : (p.play k s t).occupied u = true) : p.occupied u = true := by
  rw [Position.occupied, Position.play_pieceAt] at h
  by_cases hs : u = s
  · subst hs
    have hmove : ∀ x, (Position.relocate p.pieceAt u t x u).isSome = false := fun x => by
      rw [Position.relocate, Function.update_of_ne ht, Function.update_self]
      rfl
    cases k with
    | null | invalid => exact h
    | simple | pawnDoubleMove => exact absurd h (Bool.eq_false_iff.mp (hmove _))
    | promoteKnight | promoteBishop | promoteRook | promoteQueen =>
      exact absurd h (Bool.eq_false_iff.mp (hmove _))
    | castlingKingside => exact absurd (Or.inl rfl) hk
    | castlingQueenside => exact absurd (Or.inr rfl) hk
    | enpassant =>
      rw [Position.placement] at h
      cases hep : p.enpassant with
      | none =>
        rw [hep] at h
        exact h
      | some e =>
        rw [hep] at h
        dsimp only at h
        rw [Function.update_apply] at h
        split at h
        · cases h
        · exact absurd h (Bool.eq_false_iff.mp (hmove _))
  · by_cases he : k = .enpassant ∧ p.enpassant = some u
    · obtain ⟨rfl, he⟩ := he
      rw [Position.placement, he] at h
      simp at h
    · rwa [placement_of_ne hk hs ht he] at h

theorem not_own_of_pseudo (h : p.Pseudo k s t) : ¬p.Own t := by
  have hnone : p.pieceAt t = none → ¬p.Own t := by
    rintro ht ⟨q, hq⟩
    rw [ht] at hq
    cases hq
  cases h with
  | piece hs hpc hr ht => exact ht
  | push hs ho ht hk => exact hnone ht
  | double hs hr ho ho' hu ht => exact hnone ht
  | capture hs hr ht hk =>
    rintro ⟨q, hq⟩
    obtain ⟨q', hq'⟩ := ht
    rw [hq] at hq'
    simp at hq'
  | enpassant he hpe hs hr hc ho ht => exact hnone ht
  | castlingKingside hf hk hr h5 h6 ha ha' => exact hnone h6
  | castlingQueenside hf hk hr h1 h2 h3 ha ha' => exact hnone h2

theorem own_of_pseudo (h : p.Pseudo k s t) : p.Own s := by
  cases h with
  | piece hs hpc hr ht => exact ⟨_, hs⟩
  | push hs ho ht hk => exact ⟨_, hs⟩
  | double hs hr ho ho' hu ht => exact ⟨_, hs⟩
  | capture hs hr ht hk => exact ⟨_, hs⟩
  | enpassant he hpe hs hr hc ho ht => exact ⟨_, hs⟩
  | castlingKingside hf hk hr h5 h6 ha ha' => exact ⟨_, hk⟩
  | castlingQueenside hf hk hr h1 h2 h3 ha ha' => exact ⟨_, hk⟩

theorem simple_of_king (h : p.Pseudo k s t)
    (hk : ¬(k = .castlingKingside ∨ k = .castlingQueenside))
    (hs : p.pieceAt s = some (p.side, .king)) :
    k = .simple ∧ Reaches p.occupied p.side .king s t := by
  have hpawn : p.pieceAt s ≠ some (p.side, .pawn) := by
    rw [hs]
    simp
  cases h with
  | piece hs' hpc hr ht =>
    rw [hs, Option.some_inj, Prod.mk.injEq] at hs'
    rw [← hs'.2] at hr
    exact ⟨rfl, hr⟩
  | push hs' ho ht hk => exact absurd hs' hpawn
  | double hs' hr ho ho' hu ht => exact absurd hs' hpawn
  | capture hs' hr ht hk => exact absurd hs' hpawn
  | enpassant he hpe hs' hr hc ho ht => exact absurd hs' hpawn
  | castlingKingside => exact absurd (Or.inl rfl) hk
  | castlingQueenside => exact absurd (Or.inr rfl) hk

theorem inCheck_of_not_stops (hK : p.pieceAt K = some (p.side, .king)) (h : p.Pseudo k s t)
    (hk : ¬(k = .castlingKingside ∨ k = .castlingQueenside)) (hsK : s ≠ K)
    (hu : Checks p pc u K) (hstop : ¬Stops p k t pc u K) : (p.play k s t).InCheck p.side := by
  rw [Stops, not_or, not_or] at hstop
  obtain ⟨hut, hep, hline⟩ := hstop
  have hus : u ≠ s := by
    rintro rfl
    obtain ⟨q, hq⟩ := own_of_pseudo h
    have hu' := hu.piece
    rw [hq] at hu'
    simp at hu'
  have hKt : K ≠ t := by
    rintro rfl
    exact not_own_of_pseudo h ⟨_, hK⟩
  have hKep : ¬(k = .enpassant ∧ p.enpassant = some K) := by
    rintro ⟨rfl, he⟩
    cases h with
    | push hs ho ht hk => exact absurd (pawnKind_cases hk) (by decide)
    | capture hs hr ht hk => exact absurd (pawnKind_cases hk) (by decide)
    | enpassant he' hpe hs hr hc ho ht =>
      rw [he, Option.some_inj] at he'
      rw [← he', hK] at hpe
      simp at hpe
  refine ⟨K, (placement_of_ne hk hsK.symm hKt hKep).trans hK, ?_⟩
  refine attack_survives hu.reaches ((placement_of_ne hk hus hut hep).trans hu.piece)
    (fun v hv => occupied_of_play hk hv) fun d hd hKd hm => hline ⟨d, hd, hKd, hm⟩

theorem Checks.free (hu : Checks p pc u K) {d : Dir} (hd : d ∈ lines pc) (hK : K ∈ ray d u)
    {v : Square} (hv : v ∈ inner d u K) : p.pieceAt v = none := by
  have hscan : ∃ e ∈ lines pc, K ∈ scan p.occupied (ray e u) := by
    have hr := hu.reaches
    cases pc with
    | pawn | king | knight => cases hd
    | bishop | rook | queen => exact hr
  obtain ⟨e, he, hm⟩ := hscan
  obtain ⟨hK', hfree⟩ := (mem_scan _).mp hm
  rw [dir_unique (lines_subset hd) (lines_subset he) hK hK'] at hv
  simpa [Position.occupied] using hfree v hv

theorem not_in_line {C : Color} {e : Square} (ho : offset (forward C, 0) e = some t)
    (hr : (row K : Int) = row e + forward (invert C) ∧ colDist e K = 1) {d : Dir} (hd : d ∈ dirs) :
    t ∉ ray d K := by
  intro hm
  obtain ⟨n, hn, hx, hy⟩ := (mem_ray hd).mp hm
  obtain ⟨h1, h2, -⟩ := dirs_cases hd
  have ht := row_forward ho
  have hcol := (WellFormed.colDist_eq_one e K).mp hr.2
  have hinv := forward_invert C
  have hf : forward C = 1 ∨ forward C = -1 := by cases C <;> decide
  rcases h1 with h1 | h1 | h1 <;> rcases h2 with h2 | h2 | h2 <;>
    simp only [h1, h2] at hx hy <;> omega

theorem mem_ray_of_inner {d : Dir} (hd : d ∈ dirs) (hK : K ∈ ray d u) {v : Square}
    (hv : v ∈ inner d u K) : v ∈ ray (-d) K :=
  mem_of_mem_before ((mem_inner_neg hd hK).mp hv)

/-- A move stops one checking piece at most: half of the cases. -/
theorem stops_line (h : p.Pseudo k s t) {pc' : Piece} {u' : Square} (hu : Checks p pc u K)
    (hu' : Checks p pc' u' K) (hstop : Stops p k t pc u K) {d : Dir} (hd : d ∈ lines pc')
    (hK : K ∈ ray d u') (ht : t ∈ inner d u' K) : u = u' := by
  rcases hstop with rfl | ⟨rfl, he⟩ | ⟨e, he, hKe, hte⟩
  · have hfree := hu'.free hd hK ht
    rw [hu.piece] at hfree
    cases hfree
  · cases h with
    | push hs ho ht hk => exact absurd (pawnKind_cases hk) (by decide)
    | capture hs hr ht hk => exact absurd (pawnKind_cases hk) (by decide)
    | enpassant he' hpe hs hr hc ho htn =>
      rw [he, Option.some_inj] at he'
      subst he'
      have hpc := hu.piece
      rw [hpe, Option.some_inj, Prod.mk.injEq] at hpc
      have hr := hu.reaches
      rw [← hpc.2] at hr
      have hd' := lines_subset hd
      exact absurd (mem_ray_of_inner hd' hK ht) (not_in_line ho hr (neg_mem_dirs d hd'))
  · have hd' := lines_subset hd
    have he' := lines_subset he
    have hneg := dir_unique (neg_mem_dirs e he') (neg_mem_dirs d hd')
      (mem_ray_of_inner he' hKe hte) (mem_ray_of_inner hd' hK ht)
    obtain rfl := neg_inj.mp hneg
    by_contra hne
    rcases mem_before_or ((mem_ray_neg hd').mp hKe) ((mem_ray_neg hd').mp hK) hne with hb | hb
    · have hfree := hu'.free hd hK ((mem_inner_neg hd' hK).mpr hb)
      rw [hu.piece] at hfree
      cases hfree
    · have hfree := hu.free he hKe ((mem_inner_neg hd' hKe).mpr hb)
      rw [hu'.piece] at hfree
      cases hfree

theorem stops_unique (h : p.Pseudo k s t) {pc' : Piece} {u' : Square} (hu : Checks p pc u K)
    (hu' : Checks p pc' u' K) (hstop : Stops p k t pc u K) (hstop' : Stops p k t pc' u' K) :
    u = u' := by
  have hempty : ∀ {q v}, k = .enpassant → Checks p q v K → v ≠ t := by
    rintro q v rfl hv rfl
    cases h with
    | push hs ho ht hk => exact absurd (pawnKind_cases hk) (by decide)
    | capture hs hr ht hk => exact absurd (pawnKind_cases hk) (by decide)
    | enpassant he hpe hs hr hc ho ht =>
      rw [hv.piece] at ht
      cases ht
  rcases hstop' with rfl | ⟨hk, he⟩ | ⟨d, hd, hK, ht⟩
  · rcases hstop with rfl | ⟨hk, -⟩ | ⟨d, hd, hK, ht⟩
    · rfl
    · exact absurd rfl (hempty hk hu')
    · exact (stops_line h hu' hu (Or.inl rfl) hd hK ht).symm
  · rcases hstop with rfl | ⟨-, he'⟩ | ⟨d, hd, hK, ht⟩
    · exact absurd rfl (hempty hk hu)
    · exact Option.some_inj.mp (he'.symm.trans he)
    · exact (stops_line h hu' hu (Or.inr (Or.inl ⟨hk, he⟩)) hd hK ht).symm
  · exact stops_line h hu hu' hstop hd hK ht

end Survive

section Prune

variable [Globals] {b : Board} {m : Move} {k : MoveKind} {s t u K : Square}

theorem hasBit_kingAttackers (hb : Regular b)
    (hK : (position b).pieceAt K = some (b.side, .king)) :
    hasBit (cellAttackers b (kingPos b b.side) (invert b.side)) u = true ↔
      ∃ pc, Checks (position b) pc u K := by
  obtain ⟨K', hking⟩ := hb.king b.side
  have he : K = K' := (hking K).mp (pieceAt_eq_some.mp hK)
  subst he
  rw [kingPos_eq hb.synced hking, cellAttackers_eq, hasBit_attackers,
    occupied_eq hb.cells hb.synced]
  simp only [hasBit_bbPieces hb.synced, ← pieceAt_eq_some]
  exact exists_congr fun pc => ⟨fun h => ⟨h.1, h.2⟩, fun h => ⟨h.1, h.2⟩⟩

theorem exists_king (hb : Regular b) : ∃ K, (position b).pieceAt K = some (b.side, .king) := by
  obtain ⟨K, hking⟩ := hb.king b.side
  exact ⟨K, pieceAt_eq_some.mpr ((hking K).mpr rfl)⟩

theorem inCheck_iff_checks (hb : Regular b)
    (hK : (position b).pieceAt K = some (b.side, .king)) :
    (position b).InCheck b.side ↔ ∃ u pc, Checks (position b) pc u K := by
  rw [inCheck_iff hb hK]
  exact exists_congr fun u => exists_congr fun pc => ⟨fun h => ⟨h.1, h.2⟩, fun h => ⟨h.1, h.2⟩⟩

omit [Globals] in
theorem stops_of_checkMask {p : Position} {pc : Piece} (hstop : Stops p k t pc u K) :
    hasBit (between u K ||| single u) t = true ∨ (k = .enpassant ∧ p.enpassant = some u) := by
  rw [hasBit_or, Bool.or_eq_true, hasBit_single, decide_eq_true_eq]
  rcases hstop with rfl | h | ⟨d, hd, hK, ht⟩
  · exact Or.inl (Or.inr rfl)
  · exact Or.inr h
  · exact Or.inl (Or.inl ((hasBit_between (lines_subset hd) hK).mpr ht))

theorem genImpl_eq (b : Board) (genSimple genCaptures genSimplePromote : Bool) :
    (mkMoveGen b).genImpl (mkMoveGen b).side genSimple genCaptures genSimplePromote =
      if cellAttackers b (kingPos b b.side) (invert b.side) = 0 then
        genImplInner b.side genSimple genCaptures genSimplePromote b .simple
      else if !hasZeroOrOneBit (cellAttackers b (kingPos b b.side) (invert b.side)) then
        genKing b.side genSimple genCaptures b
      else
        genImplInner b.side genSimple genCaptures genSimplePromote b
          (.check (between (getLowest (cellAttackers b (kingPos b b.side) (invert b.side)))
            (kingPos b b.side) ||| cellAttackers b (kingPos b b.side) (invert b.side))) := by
  rw [mkMoveGen]
  dsimp only
  split_ifs <;> rfl

theorem attackers_eq_zero (hb : Regular b) :
    cellAttackers b (kingPos b b.side) (invert b.side) = 0 ↔ ¬(position b).InCheck b.side := by
  obtain ⟨K, hK⟩ := exists_king hb
  rw [inCheck_iff_checks hb hK, ← not_iff_not, not_not, ← Ne, ne_zero_iff]
  exact exists_congr fun u => hasBit_kingAttackers hb hK

/-- The pseudo-legal moves that are not generated leave the king in check. -/
theorem inCheck_of_not_mem (hb : Regular b) (hcheck : (position b).InCheck b.side)
    (h : (position b).Pseudo k s t) (hm : mkMove k s t ∉ (mkMoveGen b).genAllMoves) :
    ((position b).play k s t).InCheck b.side := by
  obtain ⟨K, hK⟩ := exists_king hb
  have hbits := fun v => hasBit_kingAttackers (u := v) hb hK
  have hpos : kingPos b b.side = K := by
    obtain ⟨K', hking⟩ := hb.king b.side
    rw [kingPos_eq hb.synced hking, (hking K).mp (pieceAt_eq_some.mp hK)]
  rw [MoveGen.genAllMoves, genImpl_eq, if_neg (mt (attackers_eq_zero hb).mp (not_not.mpr hcheck)),
    hpos] at hm
  rw [hpos] at hbits
  have hcastling : ¬(k = .castlingKingside ∨ k = .castlingQueenside) := by
    have hhome : ∀ {v}, (position b).pieceAt v = some (b.side, .king) →
        (position b).Attacked (invert b.side) v := fun hv => (inCheck_iff hb hv).mp hcheck
    rintro (rfl | rfl)
    · cases h with
      | push hs ho ht hk => exact absurd (pawnKind_cases hk) (by decide)
      | capture hs hr ht hk => exact absurd (pawnKind_cases hk) (by decide)
      | castlingKingside hf hk hr h5 h6 ha ha' => exact ha (hhome hk)
    · cases h with
      | push hs ho ht hk => exact absurd (pawnKind_cases hk) (by decide)
      | capture hs hr ht hk => exact absurd (pawnKind_cases hk) (by decide)
      | castlingQueenside hf hk hr h1 h2 h3 ha ha' => exact ha (hhome hk)
  split_ifs at hm with hbit
  · -- With two checking pieces only the moves of the king are generated.
    have hsK : s ≠ K := by
      rintro rfl
      obtain ⟨rfl, hr⟩ := simple_of_king h hcastling hK
      exact hm ((mem_genKing hb).mpr
        ⟨s, t, rfl, hK, hr, allowed_of_not_own hb (not_own_of_pseudo h)⟩)
    rw [Bool.not_eq_true', ← Bool.not_eq_true, hasZeroOrOneBit_iff] at hbit
    push Not at hbit
    obtain ⟨u, u', hu, hu', hne⟩ := hbit
    obtain ⟨pc, hu⟩ := (hbits u).mp hu
    obtain ⟨pc', hu'⟩ := (hbits u').mp hu'
    by_cases hstop : Stops (position b) k t pc u K
    · exact inCheck_of_not_stops hK h hcastling hsK hu'
        fun hstop' => hne (stops_unique h hu hu' hstop hstop')
    · exact inCheck_of_not_stops hK h hcastling hsK hu hstop
  · obtain ⟨u, pc, hu⟩ := (inCheck_iff_checks hb hK).mp hcheck
    rw [Bool.not_eq_true', Bool.not_eq_false, hasZeroOrOneBit_iff] at hbit
    have hmem : ∀ v, hasBit (cellAttackers b K (invert b.side)) v = true ↔ v = u := fun v =>
      ⟨fun hv => hbit v u hv ((hbits u).mpr ⟨pc, hu⟩), by rintro rfl; exact (hbits v).mpr ⟨pc, hu⟩⟩
    have hsingle : cellAttackers b K (invert b.side) = single u := hasBit_ext fun v => by
      rw [Bool.eq_iff_iff, hmem, hasBit_single, decide_eq_true_eq, eq_comm]
    have hfilter := fun hc => mt (mem_of_pseudo hb hc h) hm
    have hfilter := hfilter fun hc => absurd hc Bool.false_ne_true
    rw [getLowest_eq hmem, hsingle, Passes, not_and] at hfilter
    have hpass : ¬(Allows (.check (between u K ||| single u)) t ∨
        (position b).pieceAt s = some (b.side, .king) ∨ k = .enpassant) :=
      fun hpass => hfilter hpass fun hk => absurd hk hcastling
    rw [not_or, not_or] at hpass
    obtain ⟨hmask, hking, hep⟩ := hpass
    refine inCheck_of_not_stops hK h hcastling ?_ hu fun hstop => ?_
    · rintro rfl
      exact hking hK
    · exact (stops_of_checkMask hstop).elim hmask fun h => hep h.1

end Prune

end SoFCheck.Core.CheckMask
