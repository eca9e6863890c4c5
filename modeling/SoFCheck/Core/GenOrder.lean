import SoFCheck.Core.Generate
import SoFCheck.Util.RankedList

namespace SoFCheck.Core.GenOrder

open SoFCheck.Util.Bits SoFCheck.Util.Scan SoFCheck.Util.RankedList
open SoFCheck.Core.Types SoFCheck.Core.Grid SoFCheck.Core.Geometry SoFCheck.Core.Magic
open SoFCheck.Core.BoardState SoFCheck.Core.Moves SoFCheck.Core.Attack SoFCheck.Core.Mailbox
open SoFCheck.Core.Validate SoFCheck.Core.Position SoFCheck.Core.MakeRegular
open SoFCheck.Core.WellFormed SoFCheck.Core.Movegen
open SoFCheck.Core.PseudoLegal SoFCheck.Core.Generate

/-- The loop that generates a move, numbered in the order of `genImplInner`. -/
def loopOf (p : Position) (m : Move) : Nat :=
  let s := toSquare m.src
  let t := toSquare m.dst
  match m.kind with
  | .simple =>
    match p.pieceAt s with
    | some (_, .pawn) => if col t = col s then 0 else if col t < col s then 3 else 4
    | some (_, .king) => 9
    | some (_, .knight) => 10
    | _ => if row s = row t ∨ col s = col t then 12 else 11
  | .pawnDoubleMove => 1
  | .enpassant => if col s < col t then 7 else 8
  | .castlingKingside => 13
  | .castlingQueenside => 14
  | _ => if col t = col s then 2 else if col t < col s then 5 else 6

variable {filter : GenFilter} {m : Move} {k : MoveKind} {s t : Square}

section Nodup

theorem nodup_pawnDsts {isPromote : Bool} {delta : Coord} {x : Bitboard} :
    ((extractAll x).flatMap fun dst =>
      addPawnWithPromote isPromote (toCoord dst - delta) (toCoord dst)).Nodup := by
  refine nodup_flatMap_of_key Move.dst toCoord_injective (extractAll_nodup x)
    (fun t => ?_) fun t m hm => ?_
  · cases isPromote <;> simp [addPawnWithPromote]
  · cases isPromote <;> simp only [addPawnWithPromote, Bool.false_eq_true, if_false, if_true,
      List.mem_cons, List.not_mem_nil, or_false] at hm
    · rw [hm]
    · rcases hm with hm | hm | hm | hm <;> rw [hm]

theorem nodup_genPieceMoves {bbSrc bbAllowed : Bitboard} {attacks : Square → Bitboard} :
    (genPieceMoves bbSrc attacks bbAllowed filter).Nodup := by
  refine nodup_flatMap_of_key Move.src toCoord_injective (extractAll_nodup bbSrc)
    (fun s => ?_) fun s m hm => ?_
  · refine (extractAll_nodup _).map fun t t' h => ?_
    exact toCoord_injective (congrArg Move.dst h)
  · obtain ⟨t, -, rfl⟩ := List.mem_map.mp hm
    rfl

end Nodup

section Loops

theorem loopOf_pawn {p : Position} {c : Color} {isPromote : Bool}
    (hs : p.pieceAt s = some (c, .pawn)) (hk : p.PawnKind k t) (hp : isMoveKindPromote k = isPromote) :
    loopOf p (mkMove k s t) =
      if col t = col s then (if isPromote then 2 else 0)
      else if col t < col s then (if isPromote then 5 else 3) else (if isPromote then 6 else 4) := by
  rcases MakeRefine.pawnKind_cases hk with rfl | hk
  · subst hp
    simp only [loopOf, mkMove, toSquare_toCoord, hs]
    rfl
  · rw [← hp]
    cases k with
    | promoteKnight | promoteBishop | promoteRook | promoteQueen =>
      simp only [loopOf, mkMove, toSquare_toCoord]
      rfl
    | _ => cases hk

theorem col_of_reaches {occ : Square → Bool} {c : Color} :
    (Reaches occ c .bishop s t → ¬(row s = row t ∨ col s = col t)) ∧
      (Reaches occ c .rook s t → row s = row t ∨ col s = col t) := by
  constructor
  · rintro ⟨d, hd, hm⟩
    have hd' : d ∈ lines .bishop := hd
    obtain ⟨n, hn, hst⟩ := (mem_ray (lines_subset hd')).mp ((mem_scan _).mp hm).1
    have := bishopSteps_cases hd hst
    omega
  · rintro ⟨d, hd, hm⟩
    have hd' : d ∈ lines .rook := hd
    obtain ⟨n, hn, hst⟩ := (mem_ray (lines_subset hd')).mp ((mem_scan _).mp hm).1
    have := rookSteps_cases hd hst
    omega

end Loops

section Ranks

variable [Globals] {b : Board}

theorem ranked_pawnMoves (hb : Regular b) {isPromote : Bool} {j : Int} {delta : Coord}
    {x bbAllowed : Bitboard} {i : Nat}
    (hx : ∀ t, hasBit x t = true ↔
      ∃ s, hasBit (pawnsOf b.side isPromote b) s = true ∧ offset (forward b.side, j) s = some t)
    (hd : ∀ s t, offset (forward b.side, j) s = some t → toCoord t - delta = toCoord s)
    (hi : ∀ s t, offset (forward b.side, j) s = some t →
      (if col t = col s then (if isPromote then 2 else 0)
      else if col t < col s then (if isPromote then 5 else 3) else (if isPromote then 6 else 4)) = i) :
    Ranked (loopOf (position b)) i (i + 1)
      ((extractAll (filter.filterDst (x &&& bbAllowed))).flatMap fun dst =>
        addPawnWithPromote isPromote (toCoord dst - delta) (toCoord dst)) := by
  refine Ranked.const nodup_pawnDsts fun m hm => ?_
  obtain ⟨k, s, t, rfl, hs, ho, -, -, hk, hp⟩ := (mem_pawnMoves hb hx hd).mp hm
  rw [loopOf_pawn hs hk hp]
  exact hi s t ho

theorem ranked_doGenPawnSingle (hb : Regular b) (isPromote : Bool) {i : Nat}
    (hi : (if isPromote then 2 else 0) = i) :
    Ranked (loopOf (position b)) i (i + 1)
      (doGenPawnSingle b.side isPromote b (pawnsOf b.side isPromote b) filter) := by
  refine ranked_pawnMoves hb (fun t => hasBit_advancePawnForward) (fun s t => toCoord_sub_delta.1)
    fun s t ho => ?_
  rw [if_pos (row_forward ho).2]
  exact hi

theorem ranked_doGenPawnCapture (hb : Regular b) (isPromote : Bool) {i : Nat}
    (hi : (if isPromote then 5 else 3) = i) :
    Ranked (loopOf (position b)) i (i + 2)
      (doGenPawnCapture b.side isPromote b (pawnsOf b.side isPromote b) filter) := by
  refine Ranked.append (i + 1) ?_ ?_ (by omega) (by omega)
  · refine ranked_pawnMoves hb (fun t => hasBit_advancePawnLeft)
      (fun s t => toCoord_sub_delta.2.1) fun s t ho => ?_
    have hcol := (offset_eq_some_iff.mp ho).2
    rw [if_neg (by omega), if_pos (by omega)]
    exact hi
  · refine ranked_pawnMoves hb (fun t => hasBit_advancePawnRight)
      (fun s t => toCoord_sub_delta.2.2) fun s t ho => ?_
    have hcol := (offset_eq_some_iff.mp ho).2
    rw [if_neg (by omega), if_neg (by omega), ← hi]
    cases isPromote <;> rfl

theorem ranked_doGenPawnDouble (hb : Regular b) :
    Ranked (loopOf (position b)) 1 2 (doGenPawnDouble b.side b
      (b.bbPieces (makeCell b.side .pawn) &&& bbRow (rowIdx (doubleMoveSrcRow b.side))) filter) := by
  refine Ranked.const ((extractAll_nodup _).map fun t t' h => ?_) fun m hm => ?_
  · exact toCoord_injective (congrArg Move.dst h)
  · obtain ⟨s, t, rfl, -⟩ := (mem_doGenPawnDouble hb).mp hm
    rfl

theorem ranked_genPawnEnpassant (hb : Regular b) :
    Ranked (loopOf (position b)) 7 9 (genPawnEnpassant b.side b) := by
  rw [genPawnEnpassant]
  by_cases h : b.enpassantCoord = invalidCoord
  · rw [if_pos h]
    exact Ranked.nil
  · obtain ⟨e, t, he, -, ht⟩ := exists_enpassant hb h
    obtain ⟨hleft, hright, hleft', hright'⟩ := beside e
    have hcol := (row_forward ht).2
    rw [if_neg h, he, toCoord_add_forward ht]
    refine Ranked.append 8 (Ranked.ite fun hy => ?_) (Ranked.ite fun hy => ?_)
      (by omega) (by omega)
    · have ho := (hleft _).mp ⟨hy.1, rfl⟩
      have hlt := (offset_eq_some_iff.mp ho).2
      refine Ranked.const (List.nodup_singleton _) fun m hm => ?_
      rw [List.mem_singleton.mp hm]
      simp only [loopOf, toSquare_toCoord]
      exact if_pos (by omega)
    · have ho := (hright _).mp ⟨hy.1, rfl⟩
      have hlt := (offset_eq_some_iff.mp ho).2
      refine Ranked.const (List.nodup_singleton _) fun m hm => ?_
      rw [List.mem_singleton.mp hm]
      simp only [loopOf, toSquare_toCoord]
      exact if_neg (by omega)

theorem ranked_genKing (hb : Regular b) {genSimple genCaptures : Bool} :
    Ranked (loopOf (position b)) 9 10 (genKing b.side genSimple genCaptures b) := by
  refine Ranked.const nodup_genPieceMoves fun m hm => ?_
  obtain ⟨s, t, rfl, hs, -⟩ := (mem_genKing hb).mp hm
  simp only [loopOf, mkMove, toSquare_toCoord, hs]

theorem ranked_genKnight (hb : Regular b) {genSimple genCaptures : Bool} :
    Ranked (loopOf (position b)) 10 11 (genKnight b.side genSimple genCaptures b filter) := by
  refine Ranked.const nodup_genPieceMoves fun m hm => ?_
  obtain ⟨s, t, rfl, hs, -⟩ := (mem_genKnight hb).mp hm
  simp only [loopOf, mkMove, toSquare_toCoord, hs]

theorem ranked_genBishop (hb : Regular b) {genSimple genCaptures : Bool} :
    Ranked (loopOf (position b)) 11 12
      (genBishop b.side genSimple genCaptures b (bbDiagPieces b.side b) filter) := by
  refine Ranked.const nodup_genPieceMoves fun m hm => ?_
  obtain ⟨s, t, rfl, hs | hs, hr, -⟩ := (mem_genBishop hb).mp hm
  · simp only [loopOf, mkMove, toSquare_toCoord, hs, if_neg (col_of_reaches.1 hr)]
  · simp only [loopOf, mkMove, toSquare_toCoord, hs, if_neg (col_of_reaches.1 hr)]

theorem ranked_genRook (hb : Regular b) {genSimple genCaptures : Bool} :
    Ranked (loopOf (position b)) 12 13
      (genRook b.side genSimple genCaptures b (bbLinePieces b.side b) filter) := by
  refine Ranked.const nodup_genPieceMoves fun m hm => ?_
  obtain ⟨s, t, rfl, hs | hs, hr, -⟩ := (mem_genRook hb).mp hm
  · simp only [loopOf, mkMove, toSquare_toCoord, hs, if_pos (col_of_reaches.2 hr)]
  · simp only [loopOf, mkMove, toSquare_toCoord, hs, if_pos (col_of_reaches.2 hr)]

theorem ranked_genCastling {C : Color} {p : Position} :
    Ranked (loopOf p) 13 15 (genCastling C b) := by
  rw [genCastling]
  refine Ranked.append 14 (Ranked.ite fun _ => Ranked.ite fun _ => ?_)
    (Ranked.ite fun _ => Ranked.ite fun _ => ?_) (by omega) (by omega)
  · refine Ranked.const (List.nodup_singleton _) fun m hm => ?_
    rw [List.mem_singleton.mp hm]
    rfl
  · refine Ranked.const (List.nodup_singleton _) fun m hm => ?_
    rw [List.mem_singleton.mp hm]
    rfl

theorem ranked_genImplInner (hb : Regular b) {genSimple genCaptures genSimplePromote : Bool} :
    Ranked (loopOf (position b)) 0 15
      (genImplInner b.side genSimple genCaptures genSimplePromote b filter) := by
  have hsimple : ∀ policy, Ranked (loopOf (position b)) 0 3
      (genPawnSimple b.side policy b filter) := by
    intro policy
    rw [genPawnSimple_eq]
    refine Ranked.append 2 (Ranked.ite fun _ => ?_) (Ranked.ite fun _ => ?_)
      (by omega) (by omega)
    · exact Ranked.append 1 (ranked_doGenPawnSingle hb false rfl) (ranked_doGenPawnDouble hb)
        (by omega) (by omega)
    · exact ranked_doGenPawnSingle hb true rfl
  have hcapture : Ranked (loopOf (position b)) 3 9
      (genPawnCapture b.side b filter ++ genPawnEnpassant b.side b) := by
    refine Ranked.append 7 ?_ (ranked_genPawnEnpassant hb) (by omega) (by omega)
    rw [genPawnCapture_eq]
    exact Ranked.append 5 (ranked_doGenPawnCapture hb false rfl)
      (ranked_doGenPawnCapture hb true rfl) (by omega) (by omega)
  rw [genImplInner]
  refine Ranked.append 13 ?_ (Ranked.ite fun _ => ranked_genCastling) (by omega) (by omega)
  refine Ranked.append 12 ?_ (ranked_genRook hb) (by omega) (by omega)
  refine Ranked.append 11 ?_ (ranked_genBishop hb) (by omega) (by omega)
  refine Ranked.append 10 ?_ (ranked_genKnight hb) (by omega) (by omega)
  refine Ranked.append 9 ?_ (ranked_genKing hb) (by omega) (by omega)
  exact Ranked.append 3 (Ranked.ite fun _ => hsimple _) (Ranked.ite fun _ => hcapture)
    (by omega) (by omega)

end Ranks

end SoFCheck.Core.GenOrder
