import SoFCheck.Core.InitialPosition
import SoFCheck.Core.Movegen

namespace SoFCheck.Core.AttackSets

open SoFCheck.Util.Bits
open SoFCheck.Core.Types SoFCheck.Core.BoardState SoFCheck.Core.Attack SoFCheck.Core.Mailbox
open SoFCheck.Core.Validate SoFCheck.Core.Movegen SoFCheck.Core.InitialPosition

/-- A piece of colour `c` on `u` attacks the cell `t`; no other cell but the empty ones lets a
line through. -/
def Attacks (b : Board) (c : Color) (u t : Square) : Prop :=
  ∃ pc, b.cells u = makeCell c pc ∧ Reaches (fun v => b.cells v != emptyCell) c pc u t

/-- The cell of the king of `c`, the first one if there are several. -/
def IsKingPos (b : Board) (c : Color) (K : Square) : Prop :=
  b.cells K = makeCell c .king ∧ ∀ s, b.cells s = makeCell c .king → K ≤ s

/-- The cells of `c` that attack its enemy's king on `K` are none, one, or several. -/
structure Classified (b : Board) (c : Color) (K : Square) (check : CheckKind) : Prop where
  none : check = .none ↔ ¬∃ u, Attacks b c u K
  single : check = .single ↔ ∃ u, Attacks b c u K ∧ ∀ v, Attacks b c v K → v = u
  double : check = .double ↔ ∃ u v, u ≠ v ∧ Attacks b c u K ∧ Attacks b c v K

variable {b : Board}

section Classified

variable {c : Color} {K u v : Square}

theorem Classified.of_none (h : ∀ u, ¬Attacks b c u K) : Classified b c K .none where
  none := iff_of_true rfl (not_exists.2 h)
  single := by
    apply iff_of_false CheckKind.noConfusion
    intro hex
    obtain ⟨u, hu, -⟩ := hex
    exact h u hu
  double := by
    apply iff_of_false CheckKind.noConfusion
    intro hex
    obtain ⟨u, v, -, hu, -⟩ := hex
    exact h u hu

theorem Classified.of_single (hu : Attacks b c u K) (h : ∀ v, Attacks b c v K → v = u) :
    Classified b c K .single where
  none := iff_of_false CheckKind.noConfusion fun hno => hno ⟨u, hu⟩
  single := iff_of_true rfl ⟨u, hu, h⟩
  double := by
    apply iff_of_false CheckKind.noConfusion
    intro hex
    obtain ⟨v, w, hne, hv, hw⟩ := hex
    exact hne ((h v hv).trans (h w hw).symm)

theorem Classified.of_double (hne : u ≠ v) (hu : Attacks b c u K) (hv : Attacks b c v K) :
    Classified b c K .double where
  none := iff_of_false CheckKind.noConfusion fun hno => hno ⟨u, hu⟩
  single := by
    apply iff_of_false CheckKind.noConfusion
    intro hex
    obtain ⟨w, -, h⟩ := hex
    exact hne ((h u hu).trans (h v hv).symm)
  double := iff_of_true rfl ⟨u, v, hne, hu, hv⟩

end Classified

theorem hasBit_all (hs : Synced b) : hasBit b.bbAll = fun v => b.cells v != emptyCell := by
  funext v
  have hwhite := hs.color .white v
  have hblack := hs.color .black v
  rw [Bool.eq_iff_iff, decide_eq_true_eq] at hwhite hblack
  rw [hs.all, hasBit_or, Bool.eq_iff_iff, Bool.or_eq_true, bne_iff_ne]
  refine (or_congr hwhite hblack).trans ⟨fun h => h.elim And.left And.left, fun h => ?_⟩
  cases hc : cellPieceColor (b.cells v) with
  | white => exact Or.inl ⟨h, rfl⟩
  | black => exact Or.inr ⟨h, rfl⟩

theorem kingPos_of_isKingPos (hs : Synced b) {c : Color} {K : Square} (hK : IsKingPos b c K) :
    kingPos b c = K := by
  have hbit : hasBit (b.bbPieces (makeCell c .king)) K = true := (hasBit_bbPieces hs).2 hK.1
  have hne : b.bbPieces (makeCell c .king) ≠ 0 := ne_zero_iff.2 ⟨K, hbit⟩
  apply le_antisymm (getLowest_le hne hbit)
  exact hK.2 _ ((hasBit_bbPieces hs).1 (hasBit_getLowest hne))

variable [Globals]

theorem hasBit_cellAttackers (hs : Synced b) (c : Color) (t u : Square) :
    hasBit (cellAttackers b t c) u = true ↔ Attacks b c u t := by
  rw [cellAttackers_eq, hasBit_attackers, hasBit_all hs]
  apply exists_congr
  intro pc
  rw [hasBit_bbPieces hs]

theorem isCellAttacked_iff_attacks (hs : Synced b) (c : Color) (t : Square) :
    isCellAttacked b t c = true ↔ ∃ u, Attacks b c u t := by
  rw [← cellAttackers_ne_zero_iff, ne_zero_iff]
  exact exists_congr fun u => hasBit_cellAttackers hs c t u

theorem classified_mkMoveGen (hs : Synced b) {K : Square} (hK : IsKingPos b b.side K) :
    Classified b (invert b.side) K (mkMoveGen b).check := by
  have hbits := hasBit_cellAttackers hs (invert b.side) K
  rw [mkMoveGen, kingPos_of_isKingPos hs hK]
  dsimp only
  split
  · rename_i hzero
    apply Classified.of_none
    intro u hu
    rw [← hbits, hzero, eq_zero_iff.1 rfl u] at hu
    cases hu
  · rename_i hzero
    split
    · rename_i hmany
      rw [Bool.not_eq_true', ← Bool.not_eq_true, hasZeroOrOneBit_iff] at hmany
      push Not at hmany
      obtain ⟨u, v, hu, hv, hne⟩ := hmany
      exact Classified.of_double hne ((hbits u).1 hu) ((hbits v).1 hv)
    · rename_i hone
      rw [Bool.not_eq_true', Bool.not_eq_false, hasZeroOrOneBit_iff] at hone
      obtain ⟨u, hu⟩ := ne_zero_iff.1 hzero
      apply Classified.of_single ((hbits u).1 hu)
      intro v hv
      exact hone v u ((hbits v).2 hv) hu

/-- On a board whose bitboards agree with its cells the attack tests are exact. -/
theorem attack_sets_exact (b : Board) (hs : Synced b) :
    (∀ c t u, hasBit (cellAttackers b t c) u = true ↔ Attacks b c u t) ∧
    (∀ c t, isCellAttacked b t c = true ↔ ∃ u, Attacks b c u t) ∧
    (∀ K, IsKingPos b b.side K →
      (isCheck b = true ↔ ∃ u, Attacks b (invert b.side) u K) ∧
      Classified b (invert b.side) K (mkMoveGen b).check) ∧
    ∀ K, IsKingPos b (invert b.side) K →
      (wasMoveLegal b = true ↔ ¬∃ u, Attacks b b.side u K) := by
  refine ⟨hasBit_cellAttackers hs, isCellAttacked_iff_attacks hs, ?_, ?_⟩
  · intro K hK
    refine ⟨?_, classified_mkMoveGen hs hK⟩
    rw [isCheck, kingPos_of_isKingPos hs hK]
    exact isCellAttacked_iff_attacks hs _ K
  · intro K hK
    rw [wasMoveLegal, kingPos_of_isKingPos hs hK, Bool.not_eq_true', ← Bool.not_eq_true]
    exact not_congr (isCellAttacked_iff_attacks hs _ K)

omit [Globals] in
theorem attack_sets_exact_initialPosition : letI := portableGlobals
    (∀ c t u, hasBit (cellAttackers initialPosition t c) u = true ↔
      Attacks initialPosition c u t) ∧
    (isCheck initialPosition = true ↔ ∃ u, Attacks initialPosition .black u 60) ∧
    Classified initialPosition .black 60 (mkMoveGen initialPosition).check ∧
    (wasMoveLegal initialPosition = true ↔ ¬∃ u, Attacks initialPosition .white u 4) := by
  let _ := portableGlobals
  obtain ⟨hcells, hside, -, -, hs⟩ := initialPosition_fields
  have hspec := attack_sets_exact initialPosition hs
  have hwhite : IsKingPos initialPosition .white 60 := by
    rw [IsKingPos, hcells]
    decide
  have hblack : IsKingPos initialPosition .black 4 := by
    rw [IsKingPos, hcells]
    decide
  rw [hside] at hspec
  exact ⟨hspec.1, (hspec.2.2.1 60 hwhite).1, (hspec.2.2.1 60 hwhite).2, hspec.2.2.2 4 hblack⟩

end SoFCheck.Core.AttackSets
