import SoFCheck.Core.PseudoLegal

namespace SoFCheck.Core.Generate

open SoFCheck.Util.Bits
open SoFCheck.Core.Types SoFCheck.Core.Grid SoFCheck.Core.Geometry SoFCheck.Core.NearAttacks
open SoFCheck.Core.BoardState SoFCheck.Core.Moves SoFCheck.Core.Attack SoFCheck.Core.Mailbox
open SoFCheck.Core.Validate SoFCheck.Core.Position SoFCheck.Core.MakeRegular
open SoFCheck.Core.MakeRefine SoFCheck.Core.WellFormed SoFCheck.Core.Movegen
open SoFCheck.Core.PseudoLegal

section Lists

/-- The cells that a filter lets a piece enter. -/
def Allows : GenFilter → Square → Prop
  | .simple, _ => True
  | .check bbDstMask, t => hasBit bbDstMask t = true

theorem hasBit_filterDst {filter : GenFilter} {x : Bitboard} {t : Square} :
    hasBit (filter.filterDst x) t = true ↔ hasBit x t = true ∧ Allows filter t := by
  cases filter with
  | simple => exact (and_iff_left trivial).symm
  | check mask => rw [GenFilter.filterDst, hasBit_and, Bool.and_eq_true, Allows]

variable {filter : GenFilter} {m : Move} {k : MoveKind} {s t : Square}

theorem mem_addPawnWithPromote {isPromote : Bool} :
    m ∈ addPawnWithPromote isPromote (toCoord s) (toCoord t) ↔
      ∃ k, m = mkMove k s t ∧ (k = .simple ∨ isMoveKindPromote k = true) ∧
        isMoveKindPromote k = isPromote := by
  cases isPromote with
  | false =>
    rw [addPawnWithPromote, if_neg (by decide), List.mem_singleton]
    constructor
    · exact fun h => ⟨.simple, h, Or.inl rfl, rfl⟩
    · rintro ⟨k, rfl, rfl | hk, hp⟩
      · rfl
      · rw [hk] at hp
        cases hp
  | true =>
    rw [addPawnWithPromote, if_pos rfl]
    constructor
    · intro h
      simp only [List.mem_cons, List.not_mem_nil, or_false] at h
      rcases h with h | h | h | h
      · exact ⟨.promoteKnight, h, Or.inr rfl, rfl⟩
      · exact ⟨.promoteBishop, h, Or.inr rfl, rfl⟩
      · exact ⟨.promoteRook, h, Or.inr rfl, rfl⟩
      · exact ⟨.promoteQueen, h, Or.inr rfl, rfl⟩
    · rintro ⟨k, rfl, -, hp⟩
      cases k with
      | promoteKnight | promoteBishop | promoteRook | promoteQueen => simp [mkMove]
      | _ => cases hp

theorem mem_genPieceMoves {bbSrc bbAllowed : Bitboard} {attacks : Square → Bitboard} :
    m ∈ genPieceMoves bbSrc attacks bbAllowed filter ↔
      ∃ s t, m = mkMove .simple s t ∧ hasBit bbSrc s = true ∧ hasBit (attacks s) t = true ∧
        hasBit bbAllowed t = true ∧ Allows filter t := by
  simp only [genPieceMoves, List.mem_flatMap, List.mem_map, mem_extractAll, hasBit_filterDst,
    hasBit_and, Bool.and_eq_true]
  constructor
  · rintro ⟨s, hs, t, ⟨⟨ha, hb⟩, hf⟩, rfl⟩
    exact ⟨s, t, rfl, hs, ha, hb, hf⟩
  · rintro ⟨s, t, rfl, hs, ha, hb, hf⟩
    exact ⟨s, hs, t, ⟨⟨ha, hb⟩, hf⟩, rfl⟩

theorem toCoord_sub_delta {C : Color} :
    (offset (forward C, 0) s = some t → toCoord t - pawnForwardDelta C = toCoord s) ∧
    (offset (forward C, -1) s = some t → toCoord t - pawnLeftDelta C = toCoord s) ∧
    (offset (forward C, 1) s = some t → toCoord t - pawnRightDelta C = toCoord s) := by
  refine ⟨fun h => ?_, fun h => ?_, fun h => ?_⟩
  all_goals
    rw [toCoord_offset h]
    cases C <;> exact Int8.add_sub_cancel _ _

theorem mem_pawnDsts {isPromote : Bool} {d : Dir} {delta : Coord} {bbPawns x bbAllowed : Bitboard}
    (hx : ∀ t, hasBit x t = true ↔ ∃ s, hasBit bbPawns s = true ∧ offset d s = some t)
    (hd : ∀ s t, offset d s = some t → toCoord t - delta = toCoord s) :
    m ∈ ((extractAll (filter.filterDst (x &&& bbAllowed))).flatMap fun dst =>
      addPawnWithPromote isPromote (toCoord dst - delta) (toCoord dst)) ↔
      ∃ k s t, m = mkMove k s t ∧ hasBit bbPawns s = true ∧ offset d s = some t ∧
        hasBit bbAllowed t = true ∧ Allows filter t ∧
        (k = .simple ∨ isMoveKindPromote k = true) ∧ isMoveKindPromote k = isPromote := by
  simp only [List.mem_flatMap, mem_extractAll, hasBit_filterDst, hasBit_and, Bool.and_eq_true, hx]
  constructor
  · rintro ⟨t, ⟨⟨⟨s, hs, ho⟩, ha⟩, hf⟩, hm⟩
    rw [hd s t ho, mem_addPawnWithPromote] at hm
    obtain ⟨k, rfl, hk, hp⟩ := hm
    exact ⟨k, s, t, rfl, hs, ho, ha, hf, hk, hp⟩
  · rintro ⟨k, s, t, rfl, hs, ho, ha, hf, hk, hp⟩
    refine ⟨t, ⟨⟨⟨s, hs, ho⟩, ha⟩, hf⟩, ?_⟩
    rw [hd s t ho, mem_addPawnWithPromote]
    exact ⟨k, rfl, hk, hp⟩

end Lists

variable [Globals] {b : Board} {filter : GenFilter} {m : Move} {k : MoveKind} {s t : Square}

section Pawns

/-- The pawns that promote with their next step, or all others. -/
def pawnsOf (C : Color) (isPromote : Bool) (b : Board) : Bitboard :=
  b.bbPieces (makeCell C .pawn) &&&
    (if isPromote then bbRow (rowIdx (promoteSrcRow C)) else ~~~(bbRow (rowIdx (promoteSrcRow C))))

theorem hasBit_pawnsOf (hb : Regular b) {C : Color} {isPromote : Bool} :
    hasBit (pawnsOf C isPromote b) s = true ↔ (position b).pieceAt s = some (C, .pawn) ∧
      (row s = pawnRow (invert C) ↔ isPromote = true) := by
  have hrow : (rowIdx (promoteSrcRow C)).val = pawnRow (invert C) := by cases C <;> rfl
  rw [pawnsOf, hasBit_and, Bool.and_eq_true, hasBit_bbPieces hb.synced, pieceAt_eq_some]
  refine and_congr_right fun _ => ?_
  cases isPromote with
  | false => simp [hasBit_bbRow, hrow]
  | true => simp [hasBit_bbRow, hrow]

omit [Globals] in
theorem pawnKind_iff {p : Position} {isPromote : Bool} (hrow : row t = lastRow p.side ↔
    isPromote = true) : (k = .simple ∨ isMoveKindPromote k = true) ∧ isMoveKindPromote k = isPromote ↔
      p.PawnKind k t ∧ isMoveKindPromote k = isPromote := by
  refine and_congr_left fun hp => ?_
  rw [Position.PawnKind]
  cases isPromote with
  | false =>
    rw [if_neg (by simp [hrow]), hp]
    simp
  | true => simp [hrow, hp]

/-- The moves of pawns that step by `d`. -/
theorem mem_pawnMoves (hb : Regular b) {isPromote : Bool} {j : Int} {delta : Coord}
    {x bbAllowed : Bitboard}
    (hx : ∀ t, hasBit x t = true ↔
      ∃ s, hasBit (pawnsOf b.side isPromote b) s = true ∧ offset (forward b.side, j) s = some t)
    (hd : ∀ s t, offset (forward b.side, j) s = some t → toCoord t - delta = toCoord s) :
    m ∈ ((extractAll (filter.filterDst (x &&& bbAllowed))).flatMap fun dst =>
      addPawnWithPromote isPromote (toCoord dst - delta) (toCoord dst)) ↔
      ∃ k s t, m = mkMove k s t ∧ (position b).pieceAt s = some (b.side, .pawn) ∧
        offset (forward b.side, j) s = some t ∧ hasBit bbAllowed t = true ∧ Allows filter t ∧
        (position b).PawnKind k t ∧ isMoveKindPromote k = isPromote := by
  rw [mem_pawnDsts hx hd]
  refine exists_congr fun k => exists_congr fun s => exists_congr fun t => ?_
  rw [hasBit_pawnsOf hb]
  constructor
  · rintro ⟨rfl, ⟨hs, hrow⟩, ho, ha, hf, hk⟩
    have hlast := (lastRow_iff (offset_eq_some_iff.mp ho).1).trans hrow
    exact ⟨rfl, hs, ho, ha, hf, (pawnKind_iff (p := position b) hlast).mp hk⟩
  · rintro ⟨rfl, hs, ho, ha, hf, hk⟩
    have hrow : row s = pawnRow (invert b.side) ↔ isPromote = true := by
      rw [← lastRow_iff (offset_eq_some_iff.mp ho).1, ← hk.2]
      have hk' := hk.1
      rw [Position.PawnKind] at hk'
      split at hk'
      · rename_i h
        exact iff_of_true h hk'
      · rename_i h
        exact iff_of_false h (by rw [hk']; decide)
    have hlast := (lastRow_iff (offset_eq_some_iff.mp ho).1).trans hrow
    exact ⟨rfl, ⟨hs, hrow⟩, ho, ha, hf, (pawnKind_iff (p := position b) hlast).mpr hk⟩

theorem hasBit_not_bbAll (hb : Regular b) :
    hasBit (~~~b.bbAll) t = true ↔ (position b).pieceAt t = none := by
  rw [hasBit_not, Bool.not_eq_true', not_hasBit_bbAll hb.cells hb.synced,
    pieceAt_eq_none hb.cells]

theorem hasBit_enemies (hb : Regular b) :
    hasBit (bbColor b (invert b.side)) t = true ↔ (position b).Enemy t := by
  rw [hasBit_bbColor hb.cells hb.synced, enemy_iff]

theorem mem_doGenPawnSingle (hb : Regular b) {isPromote : Bool} :
    m ∈ doGenPawnSingle b.side isPromote b (pawnsOf b.side isPromote b) filter ↔
      ∃ k s t, m = mkMove k s t ∧ (position b).pieceAt s = some (b.side, .pawn) ∧
        offset (forward b.side, 0) s = some t ∧ (position b).pieceAt t = none ∧ Allows filter t ∧
        (position b).PawnKind k t ∧ isMoveKindPromote k = isPromote := by
  simp only [doGenPawnSingle]
  rw [mem_pawnMoves hb (fun t => hasBit_advancePawnForward) fun s t => toCoord_sub_delta.1]
  simp only [hasBit_not_bbAll hb]

theorem mem_doGenPawnDouble (hb : Regular b) :
    m ∈ doGenPawnDouble b.side b
        (b.bbPieces (makeCell b.side .pawn) &&& bbRow (rowIdx (doubleMoveSrcRow b.side))) filter ↔
      ∃ s t, m = mkMove .pawnDoubleMove s t ∧ (position b).Pseudo .pawnDoubleMove s t ∧
        Allows filter t := by
  have hrow : (rowIdx (doubleMoveSrcRow b.side)).val = pawnRow b.side := by cases b.side <;> rfl
  have hdelta : ∀ {s u t : Square}, offset (forward b.side, 0) s = some u →
      offset (forward b.side, 0) u = some t →
      toCoord t - 2 * pawnForwardDelta b.side = toCoord s := by
    intro s u t ho ho'
    rw [toCoord_offset ho', toCoord_offset ho, Int8.add_assoc]
    cases b.side <;> exact Int8.add_sub_cancel _ _
  simp only [doGenPawnDouble, List.mem_map, mem_extractAll, hasBit_filterDst, hasBit_and,
    Bool.and_eq_true, hasBit_advancePawnForward, hasBit_not_bbAll hb, hasBit_bbPieces hb.synced,
    hasBit_bbRow, decide_eq_true_eq, hrow]
  constructor
  · rintro ⟨t, ⟨⟨⟨u, ⟨⟨s, ⟨hs, hsrow⟩, ho⟩, hu⟩, ho'⟩, ht⟩, hf⟩, rfl⟩
    refine ⟨s, t, ?_, .double (pieceAt_eq_some.mpr hs) hsrow ho ho' hu ht, hf⟩
    rw [hdelta ho ho']
    rfl
  · rintro ⟨s, t, rfl, h, hf⟩
    cases h with
    | push hs ho ht hk => exact absurd (pawnKind_cases hk) (by decide)
    | capture hs hr ht hk => exact absurd (pawnKind_cases hk) (by decide)
    | @double s u t hs hsrow ho ho' hu ht =>
      refine ⟨t, ⟨⟨⟨u, ⟨⟨s, ⟨pieceAt_eq_some.mp hs, hsrow⟩, ho⟩, hu⟩, ho'⟩, ht⟩, hf⟩, ?_⟩
      rw [hdelta ho ho']
      rfl

omit [Globals] in
theorem reaches_pawn_iff {occ : Square → Bool} {C : Color} : Reaches occ C .pawn s t ↔
    offset (forward C, -1) s = some t ∨ offset (forward C, 1) s = some t := by
  simp only [Reaches, offset_eq_some_iff, colDist_eq_one]
  omega

theorem mem_doGenPawnCapture (hb : Regular b) {isPromote : Bool} :
    m ∈ doGenPawnCapture b.side isPromote b (pawnsOf b.side isPromote b) filter ↔
      ∃ k s t, m = mkMove k s t ∧ (position b).pieceAt s = some (b.side, .pawn) ∧
        Reaches (position b).occupied b.side .pawn s t ∧ (position b).Enemy t ∧ Allows filter t ∧
        (position b).PawnKind k t ∧ isMoveKindPromote k = isPromote := by
  simp only [doGenPawnCapture, List.mem_append]
  rw [mem_pawnMoves hb (fun t => hasBit_advancePawnLeft) fun s t => toCoord_sub_delta.2.1,
    mem_pawnMoves hb (fun t => hasBit_advancePawnRight) fun s t => toCoord_sub_delta.2.2]
  simp only [hasBit_enemies hb, reaches_pawn_iff]
  constructor
  · rintro (⟨k, s, t, hm, hs, ho, h⟩ | ⟨k, s, t, hm, hs, ho, h⟩)
    · exact ⟨k, s, t, hm, hs, Or.inl ho, h⟩
    · exact ⟨k, s, t, hm, hs, Or.inr ho, h⟩
  · rintro ⟨k, s, t, hm, hs, ho | ho, h⟩
    · exact Or.inl ⟨k, s, t, hm, hs, ho, h⟩
    · exact Or.inr ⟨k, s, t, hm, hs, ho, h⟩

omit [Globals] in
theorem beside (e : Square) :
    (∀ s, (coordY (toCoord e) ≠ 0 ∧ toSquare (toCoord e - 1) = s) ↔ offset (0, -1) e = some s) ∧
    (∀ s, (coordY (toCoord e) ≠ 7 ∧ toSquare (toCoord e + 1) = s) ↔ offset (0, 1) e = some s) ∧
    (∀ s, offset (0, -1) e = some s → toCoord e - 1 = toCoord s) ∧
    (∀ s, offset (0, 1) e = some s → toCoord e + 1 = toCoord s) := by
  have hall : ∀ e,
      (if coordY (toCoord e) ≠ 0 then some (toSquare (toCoord e - 1)) else none) = offset (0, -1) e ∧
      (if coordY (toCoord e) ≠ 7 then some (toSquare (toCoord e + 1)) else none) = offset (0, 1) e ∧
      ((offset (0, -1) e).all fun s => toCoord e - 1 = toCoord s) ∧
      ((offset (0, 1) e).all fun s => toCoord e + 1 = toCoord s) := by decide +kernel
  obtain ⟨h1, h2, h3, h4⟩ := hall e
  refine ⟨fun s => ?_, fun s => ?_, fun s h => ?_, fun s h => ?_⟩
  · rw [← h1]
    simp
  · rw [← h2]
    simp
  · rw [h] at h3
    simpa using h3
  · rw [h] at h4
    simpa using h4

omit [Globals] in
theorem beside_iff {e s : Square} : row s = row e ∧ colDist s e = 1 ↔
    offset (0, -1) e = some s ∨ offset (0, 1) e = some s := by
  simp only [offset_eq_some_iff, colDist_eq_one]
  omega

theorem exists_enpassant (hb : Regular b) (h : b.enpassantCoord ≠ invalidCoord) :
    ∃ e t, b.enpassantCoord = toCoord e ∧ (position b).enpassant = some e ∧
      offset (forward b.side, 0) e = some t := by
  obtain ⟨h0, h64, hx⟩ := hb.enpassantRow h
  have he := (toCoord_toSquare h0 h64).symm
  rw [he, coordX_eq_enpassantSrcRow] at hx
  have hmid : row (toSquare b.enpassantCoord) ≠ 0 ∧ row (toSquare b.enpassantCoord) ≠ 7 := by
    cases hc : b.side <;> simp only [hc, enpassantRow] at hx <;> omega
  obtain ⟨t, ht⟩ := exists_forward (c := b.side) hmid
  exact ⟨_, t, he, (enpassantOf_eq_some hb).mpr he, ht⟩

theorem mem_genPawnEnpassant (hb : Regular b) : m ∈ genPawnEnpassant b.side b ↔
    ∃ s t, m = mkMove .enpassant s t ∧ (position b).Pseudo .enpassant s t := by
  rw [genPawnEnpassant]
  by_cases h : b.enpassantCoord = invalidCoord
  · rw [if_pos h]
    constructor
    · exact fun hm => absurd hm List.not_mem_nil
    · rintro ⟨s, t, -, hp⟩
      cases hp with
      | push hs ho ht hk => exact absurd (pawnKind_cases hk) (by decide)
      | capture hs hr ht hk => exact absurd (pawnKind_cases hk) (by decide)
      | @enpassant e s t he hpe hs hr hc ho ht =>
        rw [(enpassantOf_eq_some hb).mp he] at h
        exact absurd h (toCoord_ne_invalidCoord e)
  · obtain ⟨e, t, he, hep, ht⟩ := exists_enpassant hb h
    obtain ⟨hpe, hpt⟩ := enpassant_pieces hb he ht
    obtain ⟨hleft, hright, hleft', hright'⟩ := beside e
    rw [if_neg h, he, toCoord_add_forward ht, List.mem_append, List.mem_ite_nil_right,
      List.mem_ite_nil_right, List.mem_singleton, List.mem_singleton]
    constructor
    · rintro (⟨⟨hy, hc⟩, rfl⟩ | ⟨⟨hy, hc⟩, rfl⟩)
      · have ho := (hleft _).mp ⟨hy, rfl⟩
        obtain ⟨hr, hd⟩ := beside_iff.mpr (Or.inl ho)
        exact ⟨_, t, congrArg (Move.mk .enpassant · (toCoord t) 0) (hleft' _ ho),
          .enpassant hep hpe (pieceAt_eq_some.mpr hc) hr hd ht hpt⟩
      · have ho := (hright _).mp ⟨hy, rfl⟩
        obtain ⟨hr, hd⟩ := beside_iff.mpr (Or.inr ho)
        exact ⟨_, t, congrArg (Move.mk .enpassant · (toCoord t) 0) (hright' _ ho),
          .enpassant hep hpe (pieceAt_eq_some.mpr hc) hr hd ht hpt⟩
    · rintro ⟨s, t', rfl, hp⟩
      cases hp with
      | push hs ho ht hk => exact absurd (pawnKind_cases hk) (by decide)
      | capture hs hr ht hk => exact absurd (pawnKind_cases hk) (by decide)
      | @enpassant e' s t' he' hpe' hs hr hc ho ht' =>
        rw [hep, Option.some_inj] at he'
        subst he'
        rw [position_side, ht, Option.some_inj] at ho
        subst ho
        have hs' := pieceAt_eq_some.mp hs
        rcases beside_iff.mp ⟨hr, hc⟩ with ho | ho
        · obtain ⟨hy, hsq⟩ := (hleft s).mpr ho
          exact Or.inl ⟨⟨hy, by rw [hsq]; exact hs'⟩, by rw [hleft' s ho]; rfl⟩
        · obtain ⟨hy, hsq⟩ := (hright s).mpr ho
          exact Or.inr ⟨⟨hy, by rw [hsq]; exact hs'⟩, by rw [hright' s ho]; rfl⟩

end Pawns

section Pieces

theorem not_own_of_allowed (hb : Regular b) {genSimple genCaptures : Bool}
    (h : hasBit (getAllowedMask b.side genSimple genCaptures b) t = true) :
    ¬(position b).Own t := by
  rintro ⟨q, hq⟩
  rw [getAllowedMask] at h
  split_ifs at h
  · rw [hasBit_not, Bool.not_eq_true', ← Bool.not_eq_true, hasBit_bbColor hb.cells hb.synced] at h
    exact h ⟨q, pieceAt_eq_some.mp hq⟩
  · rw [hasBit_not_bbAll hb, hq] at h
    cases h
  · obtain ⟨q', hq'⟩ := (hasBit_enemies hb).mp h
    rw [hq] at hq'
    simp at hq'

theorem allowed_of_not_own (hb : Regular b) (h : ¬(position b).Own t) :
    hasBit (getAllowedMask b.side true true b) t = true := by
  rw [getAllowedMask, if_pos rfl, if_pos rfl, hasBit_not, Bool.not_eq_true', ← Bool.not_eq_true,
    hasBit_bbColor hb.cells hb.synced]
  exact fun ⟨q, hq⟩ => h ⟨q, pieceAt_eq_some.mpr hq⟩

variable {genSimple genCaptures : Bool}

theorem mem_genKing (hb : Regular b) : m ∈ genKing b.side genSimple genCaptures b ↔
    ∃ s t, m = mkMove .simple s t ∧ (position b).pieceAt s = some (b.side, .king) ∧
      Reaches (position b).occupied b.side .king s t ∧
      hasBit (getAllowedMask b.side genSimple genCaptures b) t = true := by
  rw [genKing, genKnightOrKing, mem_genPieceMoves]
  simp only [reduceCtorEq, if_false, hasBit_bbPieces hb.synced, pieceAt_eq_some,
    @hasBit_kingAttacks (position b).occupied b.side, Allows, and_true]

theorem mem_genKnight (hb : Regular b) : m ∈ genKnight b.side genSimple genCaptures b filter ↔
    ∃ s t, m = mkMove .simple s t ∧ (position b).pieceAt s = some (b.side, .knight) ∧
      Reaches (position b).occupied b.side .knight s t ∧
      hasBit (getAllowedMask b.side genSimple genCaptures b) t = true ∧ Allows filter t := by
  rw [genKnight, genKnightOrKing, mem_genPieceMoves]
  simp only [if_true, hasBit_bbPieces hb.synced, pieceAt_eq_some,
    @hasBit_knightAttacks (position b).occupied b.side]

theorem mem_genBishop (hb : Regular b) :
    m ∈ genBishop b.side genSimple genCaptures b (bbDiagPieces b.side b) filter ↔
      ∃ s t, m = mkMove .simple s t ∧ ((position b).pieceAt s = some (b.side, .bishop) ∨
          (position b).pieceAt s = some (b.side, .queen)) ∧
        Reaches (position b).occupied b.side .bishop s t ∧
        hasBit (getAllowedMask b.side genSimple genCaptures b) t = true ∧ Allows filter t := by
  rw [genBishop, genBishopOrRook, mem_genPieceMoves]
  simp only [if_true, bbDiagPieces, hasBit_or, Bool.or_eq_true, hasBit_bbPieces hb.synced,
    pieceAt_eq_some, hasBit_bishopAttackBitboard (c := b.side), occupied_eq hb.cells hb.synced]

theorem mem_genRook (hb : Regular b) :
    m ∈ genRook b.side genSimple genCaptures b (bbLinePieces b.side b) filter ↔
      ∃ s t, m = mkMove .simple s t ∧ ((position b).pieceAt s = some (b.side, .rook) ∨
          (position b).pieceAt s = some (b.side, .queen)) ∧
        Reaches (position b).occupied b.side .rook s t ∧
        hasBit (getAllowedMask b.side genSimple genCaptures b) t = true ∧ Allows filter t := by
  rw [genRook, genBishopOrRook, mem_genPieceMoves]
  simp only [reduceCtorEq, if_false, bbLinePieces, hasBit_or, Bool.or_eq_true,
    hasBit_bbPieces hb.synced, pieceAt_eq_some, hasBit_rookAttackBitboard (c := b.side),
    occupied_eq hb.cells hb.synced]

theorem mem_genCastling (hb : Regular b) (hK : ¬(position b).InCheck b.side) :
    m ∈ genCastling b.side b ↔ ∃ k s t, m = mkMove k s t ∧
      (k = .castlingKingside ∨ k = .castlingQueenside) ∧ (position b).Pseudo k s t := by
  obtain ⟨h2, h3, h4, h5, h6⟩ := makeCoord_castlingRow b.side
  simp only [genCastling, h2, h3, h4, h5, h6, toSquare_toCoord, List.mem_append,
    List.mem_ite_nil_right, List.mem_singleton, kingsidePass_iff hb, queensidePass_iff hb,
    not_isCellAttacked hb]
  constructor
  · rintro (⟨hf, ⟨⟨hp5, hp6⟩, ha⟩, rfl⟩ | ⟨hf, ⟨⟨hp1, hp2, hp3⟩, ha⟩, rfl⟩)
    · obtain ⟨hk, hr⟩ := home_of_kingside hb hf
      exact ⟨_, _, _, rfl, Or.inl rfl,
        .castlingKingside hf hk hr hp5 hp6 (fun h => hK ⟨_, hk, h⟩) ha⟩
    · obtain ⟨hk, hr⟩ := home_of_queenside hb hf
      exact ⟨_, _, _, rfl, Or.inr rfl,
        .castlingQueenside hf hk hr hp1 hp2 hp3 (fun h => hK ⟨_, hk, h⟩) ha⟩
  · rintro ⟨k, s, t, rfl, rfl | rfl, h⟩
    · cases h with
      | push hs ho ht hk => exact absurd (pawnKind_cases hk) (by decide)
      | capture hs hr ht hk => exact absurd (pawnKind_cases hk) (by decide)
      | castlingKingside hf hk hr hp5 hp6 ha ha' => exact Or.inl ⟨hf, ⟨⟨hp5, hp6⟩, ha'⟩, rfl⟩
    · cases h with
      | push hs ho ht hk => exact absurd (pawnKind_cases hk) (by decide)
      | capture hs hr ht hk => exact absurd (pawnKind_cases hk) (by decide)
      | castlingQueenside hf hk hr hp1 hp2 hp3 ha ha' =>
        exact Or.inr ⟨hf, ⟨⟨hp1, hp2, hp3⟩, ha'⟩, rfl⟩

end Pieces

section All

omit [Globals] in
theorem genPawnSimple_eq (C : Color) (policy : PromoteGenPolicy) (b : Board) (filter : GenFilter) :
    genPawnSimple C policy b filter =
      (if policy = .all ∨ policy = .noPromote then
        doGenPawnSingle C false b (pawnsOf C false b) filter ++ doGenPawnDouble C b
          (b.bbPieces (makeCell C .pawn) &&& bbRow (rowIdx (doubleMoveSrcRow C))) filter
      else []) ++
      (if policy = .all ∨ policy = .promoteOnly then
        doGenPawnSingle C true b (pawnsOf C true b) filter
      else []) := rfl

omit [Globals] in
theorem genPawnCapture_eq (C : Color) (b : Board) (filter : GenFilter) :
    genPawnCapture C b filter = doGenPawnCapture C false b (pawnsOf C false b) filter ++
      doGenPawnCapture C true b (pawnsOf C true b) filter := rfl

theorem pseudo_of_mem_genPawnSimple (hb : Regular b) {policy : PromoteGenPolicy}
    (h : m ∈ genPawnSimple b.side policy b filter) :
    ∃ k s t, m = mkMove k s t ∧ (position b).Pseudo k s t := by
  have hsingle : ∀ {isPromote}, m ∈ doGenPawnSingle b.side isPromote b
      (pawnsOf b.side isPromote b) filter → ∃ k s t, m = mkMove k s t ∧ (position b).Pseudo k s t := by
    intro isPromote hm
    obtain ⟨k, s, t, hm, hs, ho, ht, -, hk, -⟩ := (mem_doGenPawnSingle hb).mp hm
    exact ⟨k, s, t, hm, .push hs ho ht hk⟩
  rw [genPawnSimple_eq, List.mem_append, List.mem_ite_nil_right, List.mem_ite_nil_right,
    List.mem_append] at h
  rcases h with ⟨-, h | h⟩ | ⟨-, h⟩
  · exact hsingle h
  · obtain ⟨s, t, hm, hp, -⟩ := (mem_doGenPawnDouble hb).mp h
    exact ⟨_, s, t, hm, hp⟩
  · exact hsingle h

theorem mem_genPawnCapture (hb : Regular b) : m ∈ genPawnCapture b.side b filter ↔
    ∃ k s t, m = mkMove k s t ∧ (position b).pieceAt s = some (b.side, .pawn) ∧
      Reaches (position b).occupied b.side .pawn s t ∧ (position b).Enemy t ∧ Allows filter t ∧
      (position b).PawnKind k t := by
  rw [genPawnCapture_eq, List.mem_append, mem_doGenPawnCapture hb, mem_doGenPawnCapture hb]
  constructor
  · rintro (⟨k, s, t, hm, hs, hr, ht, hf, hk, -⟩ | ⟨k, s, t, hm, hs, hr, ht, hf, hk, -⟩)
    · exact ⟨k, s, t, hm, hs, hr, ht, hf, hk⟩
    · exact ⟨k, s, t, hm, hs, hr, ht, hf, hk⟩
  · rintro ⟨k, s, t, hm, hs, hr, ht, hf, hk⟩
    cases hp : isMoveKindPromote k with
    | false => exact Or.inl ⟨k, s, t, hm, hs, hr, ht, hf, hk, hp⟩
    | true => exact Or.inr ⟨k, s, t, hm, hs, hr, ht, hf, hk, hp⟩

theorem pseudo_of_mem_genKing (hb : Regular b) {genSimple genCaptures : Bool}
    (h : m ∈ genKing b.side genSimple genCaptures b) :
    ∃ k s t, m = mkMove k s t ∧ (position b).Pseudo k s t := by
  obtain ⟨s, t, hm, hs, hr, ha⟩ := (mem_genKing hb).mp h
  exact ⟨_, s, t, hm, .piece hs (by decide) hr (not_own_of_allowed hb ha)⟩

theorem pseudo_of_mem (hb : Regular b)
    (hK : filter.genCastling = true → ¬(position b).InCheck b.side)
    {genSimple genCaptures genSimplePromote : Bool}
    (h : m ∈ genImplInner b.side genSimple genCaptures genSimplePromote b filter) :
    ∃ k s t, m = mkMove k s t ∧ (position b).Pseudo k s t := by
  simp only [genImplInner, List.mem_append, List.mem_ite_nil_right, Bool.and_eq_true] at h
  rcases h with (((((⟨-, h⟩ | ⟨-, h | h⟩) | h) | h) | h) | h) | ⟨⟨-, hf⟩, h⟩
  · exact pseudo_of_mem_genPawnSimple hb h
  · obtain ⟨k, s, t, hm, hs, hr, ht, -, hk⟩ := (mem_genPawnCapture hb).mp h
    exact ⟨k, s, t, hm, .capture hs hr ht hk⟩
  · obtain ⟨s, t, hm, hp⟩ := (mem_genPawnEnpassant hb).mp h
    exact ⟨_, s, t, hm, hp⟩
  · exact pseudo_of_mem_genKing hb h
  · obtain ⟨s, t, hm, hs, hr, ha, -⟩ := (mem_genKnight hb).mp h
    exact ⟨_, s, t, hm, .piece hs (by decide) hr (not_own_of_allowed hb ha)⟩
  · obtain ⟨s, t, hm, hs | hs, hr, ha, -⟩ := (mem_genBishop hb).mp h
    · exact ⟨_, s, t, hm, .piece hs (by decide) hr (not_own_of_allowed hb ha)⟩
    · exact ⟨_, s, t, hm, .piece hs (by decide) (reaches_queen.mpr (Or.inl hr))
        (not_own_of_allowed hb ha)⟩
  · obtain ⟨s, t, hm, hs | hs, hr, ha, -⟩ := (mem_genRook hb).mp h
    · exact ⟨_, s, t, hm, .piece hs (by decide) hr (not_own_of_allowed hb ha)⟩
    · exact ⟨_, s, t, hm, .piece hs (by decide) (reaches_queen.mpr (Or.inr hr))
        (not_own_of_allowed hb ha)⟩
  · obtain ⟨k, s, t, hm, -, hp⟩ := (mem_genCastling hb (hK hf)).mp h
    exact ⟨k, s, t, hm, hp⟩

/-- The moves that a filter leaves: it does not bind the king nor a capture in
passing, and it may rule castling out. -/
def Passes (p : Position) (filter : GenFilter) (k : MoveKind) (s t : Square) : Prop :=
  (Allows filter t ∨ p.pieceAt s = some (p.side, .king) ∨ k = .enpassant) ∧
    (k = .castlingKingside ∨ k = .castlingQueenside → filter.genCastling = true)

omit [Globals] in
theorem Passes.allows {p : Position} (h : Passes p filter k s t) {pc : Piece}
    (hs : p.pieceAt s = some (p.side, pc)) (hpc : pc ≠ .king) (hk : k ≠ .enpassant) :
    Allows filter t := by
  rcases h.1 with h | h | h
  · exact h
  · rw [hs, Option.some_inj, Prod.mk.injEq] at h
    exact absurd h.2 hpc
  · exact absurd h hk

/-- All pseudo-legal moves that the filter leaves are generated. -/
theorem mem_of_pseudo (hb : Regular b) (hK : filter.genCastling = true → ¬(position b).InCheck b.side)
    (h : (position b).Pseudo k s t) (hf : Passes (position b) filter k s t) :
    mkMove k s t ∈ genImplInner b.side true true true b filter := by
  simp only [genImplInner, List.mem_append, if_true, Bool.true_and]
  have hne : ∀ {k t}, (position b).PawnKind k t → k ≠ .enpassant := by
    rintro k t hk rfl
    exact absurd (pawnKind_cases hk) (by decide)
  cases h with
  | @piece pc s t hs hpc hr ht =>
    have ha := allowed_of_not_own hb ht
    cases pc with
    | pawn => exact absurd rfl hpc
    | king =>
      exact Or.inl (Or.inl (Or.inl (Or.inl (Or.inr ((mem_genKing hb).mpr ⟨s, t, rfl, hs, hr, ha⟩)))))
    | knight =>
      exact Or.inl (Or.inl (Or.inl (Or.inr ((mem_genKnight hb).mpr
        ⟨s, t, rfl, hs, hr, ha, hf.allows hs (by decide) (by decide)⟩))))
    | bishop =>
      exact Or.inl (Or.inl (Or.inr ((mem_genBishop hb).mpr
        ⟨s, t, rfl, Or.inl hs, hr, ha, hf.allows hs (by decide) (by decide)⟩)))
    | rook =>
      exact Or.inl (Or.inr ((mem_genRook hb).mpr
        ⟨s, t, rfl, Or.inl hs, hr, ha, hf.allows hs (by decide) (by decide)⟩))
    | queen =>
      have hfilter := hf.allows hs (by decide) (by decide)
      rcases reaches_queen.mp hr with hr | hr
      · exact Or.inl (Or.inl (Or.inr ((mem_genBishop hb).mpr
          ⟨s, t, rfl, Or.inr hs, hr, ha, hfilter⟩)))
      · exact Or.inl (Or.inr ((mem_genRook hb).mpr ⟨s, t, rfl, Or.inr hs, hr, ha, hfilter⟩))
  | push hs ho ht hk =>
    have hfilter := hf.allows hs (by decide) (hne hk)
    refine Or.inl (Or.inl (Or.inl (Or.inl (Or.inl (Or.inl ?_)))))
    rw [genPawnSimple_eq, if_pos (Or.inl rfl), if_pos (Or.inl rfl), List.mem_append, List.mem_append]
    cases hp : isMoveKindPromote k with
    | false =>
      exact Or.inl (Or.inl ((mem_doGenPawnSingle hb).mpr
        ⟨k, s, t, rfl, hs, ho, ht, hfilter, hk, hp⟩))
    | true =>
      exact Or.inr ((mem_doGenPawnSingle hb).mpr ⟨k, s, t, rfl, hs, ho, ht, hfilter, hk, hp⟩)
  | double hs hr ho ho' hu ht =>
    have hfilter := hf.allows hs (by decide) (by decide)
    refine Or.inl (Or.inl (Or.inl (Or.inl (Or.inl (Or.inl ?_)))))
    rw [genPawnSimple_eq, if_pos (Or.inl rfl), List.mem_append, List.mem_append]
    exact Or.inl (Or.inr ((mem_doGenPawnDouble hb).mpr
      ⟨s, t, rfl, .double hs hr ho ho' hu ht, hfilter⟩))
  | capture hs hr ht hk =>
    have hfilter := hf.allows hs (by decide) (hne hk)
    exact Or.inl (Or.inl (Or.inl (Or.inl (Or.inl (Or.inr (Or.inl ((mem_genPawnCapture hb).mpr
      ⟨k, s, t, rfl, hs, hr, ht, hfilter, hk⟩)))))))
  | enpassant he hpe hs hr hc ho ht =>
    exact Or.inl (Or.inl (Or.inl (Or.inl (Or.inl (Or.inr (Or.inr ((mem_genPawnEnpassant hb).mpr
      ⟨s, t, rfl, .enpassant he hpe hs hr hc ho ht⟩)))))))
  | castlingKingside hfl hk hr h5 h6 ha ha' =>
    have hfilter := hf.2 (Or.inl rfl)
    rw [if_pos hfilter]
    exact Or.inr ((mem_genCastling hb (hK hfilter)).mpr
      ⟨_, _, _, rfl, Or.inl rfl, .castlingKingside hfl hk hr h5 h6 ha ha'⟩)
  | castlingQueenside hfl hk hr h1 h2 h3 ha ha' =>
    have hfilter := hf.2 (Or.inr rfl)
    rw [if_pos hfilter]
    exact Or.inr ((mem_genCastling hb (hK hfilter)).mpr
      ⟨_, _, _, rfl, Or.inr rfl, .castlingQueenside hfl hk hr h1 h2 h3 ha ha'⟩)

end All

end SoFCheck.Core.Generate
