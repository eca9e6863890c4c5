import SoFCheck.Core.Position
import SoFCheck.Eval.Checked

namespace SoFCheck.Eval.Bounds

open SoFCheck.Util.Bits SoFCheck.Util.Words
open SoFCheck.Core.Types SoFCheck.Core.Geometry SoFCheck.Core.BoardState SoFCheck.Core.Validate
open SoFCheck.Core.Position SoFCheck.Eval.Score SoFCheck.Eval.Score.ScorePair SoFCheck.Eval.Weights
open SoFCheck.Eval.Evaluate SoFCheck.Eval.Impl SoFCheck.Eval.PawnCache SoFCheck.Eval.Shipped
open SoFCheck.Eval.Bitboard SoFCheck.Core.InitialPosition

/-- A checked score that has not overflowed and lies in an interval. -/
def Within (lo hi : Int) (x : Checked) : Prop := ∃ v, x.value = some v ∧ lo ≤ v ∧ v ≤ hi

def PairWithin (lo hi : Int) (p : CheckedPair) : Prop :=
  ∃ w, p.value = some w ∧ (lo ≤ w.1 ∧ w.1 ≤ hi) ∧ lo ≤ w.2 ∧ w.2 ≤ hi

section Arithmetic

variable {lo hi lo₁ hi₁ lo₂ hi₂ : Int} {r x y : Checked} {p q : CheckedPair}

theorem fit_eq {a : Int} (h : -32768 ≤ lo) (h' : hi ≤ 32767) (ha : lo ≤ a ∧ a ≤ hi) :
    Checked.fit a = some a := if_pos ⟨h.trans ha.1, ha.2.trans h'⟩

theorem Within.mono (h : Within lo hi x) (hlo : lo₁ ≤ lo) (hhi : hi ≤ hi₁) : Within lo₁ hi₁ x := by
  obtain ⟨v, hv, hl, hh⟩ := h
  exact ⟨v, hv, hlo.trans hl, hh.trans hhi⟩

theorem within_zero : Within 0 0 (ScoreType.zero : Checked) := ⟨0, rfl, le_rfl, le_rfl⟩

theorem Within.add (hx : Within lo hi x) (hy : Within lo₁ hi₁ y) (hlo : -32768 ≤ lo + lo₁)
    (hhi : hi + hi₁ ≤ 32767) : Within (lo + lo₁) (hi + hi₁) (ScoreType.add x y) := by
  obtain ⟨a, ha, hax⟩ := hx
  obtain ⟨b, hb, hby⟩ := hy
  have hab : lo + lo₁ ≤ a + b ∧ a + b ≤ hi + hi₁ := by omega
  refine ⟨a + b, ?_, hab⟩
  change x.value.bind (fun a => y.value.bind fun b => Checked.fit (a + b)) = _
  rw [ha, hb]
  exact fit_eq hlo hhi hab

theorem Within.sub (hx : Within lo hi x) (hy : Within lo₁ hi₁ y) (hlo : -32768 ≤ lo - hi₁)
    (hhi : hi - lo₁ ≤ 32767) : Within (lo - hi₁) (hi - lo₁) (ScoreType.sub x y) := by
  obtain ⟨a, ha, hax⟩ := hx
  obtain ⟨b, hb, hby⟩ := hy
  have hab : lo - hi₁ ≤ a - b ∧ a - b ≤ hi - lo₁ := by omega
  refine ⟨a - b, ?_, hab⟩
  change x.value.bind (fun a => y.value.bind fun b => Checked.fit (a - b)) = _
  rw [ha, hb]
  exact fit_eq hlo hhi hab

theorem Within.addDiff (hr : Within lo hi r) (hx : Within lo₁ hi₁ x) (hy : Within lo₁ hi₁ y)
    (hlo : -32768 ≤ lo - (hi₁ - lo₁)) (hhi : hi + (hi₁ - lo₁) ≤ 32767) :
    Within (lo - (hi₁ - lo₁)) (hi + (hi₁ - lo₁)) (ScoreType.addDiff r x y) := by
  obtain ⟨c, hc, hcr⟩ := hr
  obtain ⟨a, ha, hax⟩ := hx
  obtain ⟨b, hb, hby⟩ := hy
  have hab : lo - (hi₁ - lo₁) ≤ c + (a - b) ∧ c + (a - b) ≤ hi + (hi₁ - lo₁) := by omega
  refine ⟨c + (a - b), ?_, hab⟩
  change r.value.bind (fun r => x.value.bind fun a => y.value.bind fun b =>
    Checked.fit (r + (a - b))) = _
  rw [hc, ha, hb]
  exact fit_eq hlo hhi hab

theorem Within.addWithCoef {i : Fin featureCount} {w k : Int} (hr : Within lo hi r)
    (hw : (weightValues i).toInt = w) (hk : lo₁ ≤ w * k ∧ w * k ≤ hi₁)
    (hfits : (-32768 ≤ lo₁ ∧ hi₁ ≤ 32767) ∧ -32768 ≤ lo + lo₁ ∧ hi + hi₁ ≤ 32767) :
    Within (lo + lo₁) (hi + hi₁) (addWithCoef (checkedWeights weightValues) r i k) := by
  subst hw
  exact hr.add ⟨_, fit_eq hfits.1.1 hfits.1.2 hk, hk⟩ hfits.2.1 hfits.2.2

theorem PairWithin.add (hp : PairWithin lo hi p) (hq : PairWithin lo₁ hi₁ q) (hlo : -32768 ≤ lo + lo₁)
    (hhi : hi + hi₁ ≤ 32767) : PairWithin (lo + lo₁) (hi + hi₁) (p + q) := by
  obtain ⟨x, hx, hx₁, hx₂⟩ := hp
  obtain ⟨y, hy, hy₁, hy₂⟩ := hq
  have h₁ : lo + lo₁ ≤ (x + y).1 ∧ (x + y).1 ≤ hi + hi₁ := by
    rw [Prod.fst_add]
    omega
  have h₂ : lo + lo₁ ≤ (x + y).2 ∧ (x + y).2 ≤ hi + hi₁ := by
    rw [Prod.snd_add]
    omega
  refine ⟨x + y, ?_, h₁, h₂⟩
  change p.value.bind (fun x => q.value.bind fun y => Checked.fitPair (x + y)) = _
  rw [hx, hy]
  exact if_pos ⟨⟨hlo.trans h₁.1, h₁.2.trans hhi⟩, hlo.trans h₂.1, h₂.2.trans hhi⟩

theorem PairWithin.mix (hp : PairWithin lo hi p) {stage : Int} (h : 0 ≤ stage)
    (h' : stage ≤ coefUnit) (hlo : -32768 ≤ lo) (hhi : hi ≤ 32767) :
    Within lo hi (ScoreType.mix p stage) := by
  obtain ⟨w, hw, ⟨h₁, h₁'⟩, h₂, h₂'⟩ := hp
  have hmean : lo ≤ Checked.mixed w stage ∧ Checked.mixed w stage ≤ hi := by
    have hunit : coefUnit = 256 := by decide
    rw [hunit] at h'
    rw [Checked.mixed, hunit, Int.shiftRight_eq_div_pow]
    have hlow : lo * 256 ≤ w.1 * stage + w.2 * (256 - stage) := by
      have := Int.mul_le_mul_of_nonneg_right h₁ h
      have := Int.mul_le_mul_of_nonneg_right h₂ (sub_nonneg.mpr h')
      linarith
    have hhigh : w.1 * stage + w.2 * (256 - stage) ≤ hi * 256 := by
      have := Int.mul_le_mul_of_nonneg_right h₁' h
      have := Int.mul_le_mul_of_nonneg_right h₂' (sub_nonneg.mpr h')
      linarith
    have hpow : ((2 ^ coefUnitShift : Nat) : Int) = 256 := by decide
    rw [hpow]
    omega
  refine ⟨_, ?_, hmean⟩
  change p.value.bind (fun x => Checked.fit (Checked.mixed x stage)) = _
  rw [hw]
  exact fit_eq hlo hhi hmean

end Arithmetic

section Counts

theorem popcount_mono {x y : Bitboard} (h : ∀ s, hasBit x s = true → hasBit y s = true) :
    popcount x ≤ popcount y := by
  rw [popcount_eq_card, popcount_eq_card]
  apply Finset.card_le_card
  intro s hs
  rw [Finset.mem_filter] at hs ⊢
  exact ⟨hs.1, h s hs.2⟩

theorem popcount_and_le_left (x y : Bitboard) : popcount (x &&& y) ≤ popcount x := by
  apply popcount_mono
  intro s hs
  rw [hasBit_and, Bool.and_eq_true] at hs
  exact hs.1

theorem popcount_and_le_right (x y : Bitboard) : popcount (x &&& y) ≤ popcount y := by
  apply popcount_mono
  intro s hs
  rw [hasBit_and, Bool.and_eq_true] at hs
  exact hs.2

theorem popcount_le (x : Bitboard) : popcount x ≤ 64 := by
  rw [popcount_eq_card]
  exact (Finset.card_le_univ _).trans_eq (Fintype.card_fin 64)

/-- All counters lie between zero and `m`. -/
structure CountsWithin (m : Int) (counts : PawnCounts) : Prop where
  isolatedPawns : 0 ≤ counts.isolatedPawns ∧ counts.isolatedPawns ≤ m
  doublePawns : 0 ≤ counts.doublePawns ∧ counts.doublePawns ≤ m
  passedPawns : 0 ≤ counts.passedPawns ∧ counts.passedPawns ≤ m
  openPawns : 0 ≤ counts.openPawns ∧ counts.openPawns ≤ m
  candidatePawns : 0 ≤ counts.candidatePawns ∧ counts.candidatePawns ≤ m

theorem countsWithin_foldl (c : Color) (bbPawns bbEnemyPawns : Bitboard) (l : List Square) {m : Int}
    {counts : PawnCounts} (h : CountsWithin m counts) :
    CountsWithin (m + l.length) (l.foldl (countPawn c bbPawns bbEnemyPawns) counts) := by
  induction l generalizing m counts with
  | nil => simpa using h
  | cons src l ih =>
    have hturn : ∀ (p : Prop) [Decidable p] {k : Int}, 0 ≤ k ∧ k ≤ m →
        0 ≤ k + (if p then 1 else 0) ∧ k + (if p then 1 else 0) ≤ m + 1 := by
      intro p _ k hk
      split <;> omega
    have hnext : CountsWithin (m + 1) (countPawn c bbPawns bbEnemyPawns counts src) :=
      ⟨hturn _ h.isolatedPawns, hturn _ h.doublePawns, hturn _ h.passedPawns, hturn _ h.openPawns,
        hturn _ h.candidatePawns⟩
    have hlen : m + ((src :: l).length : Int) = m + 1 + l.length := by
      rw [List.length_cons]
      push_cast
      ring
    rw [hlen]
    exact ih hnext

theorem countPawns_within (c : Color) {bbPawns : Bitboard} (bbEnemyPawns : Bitboard) {m : Nat}
    (hm : popcount bbPawns ≤ m) :
    let counts := countPawns c bbPawns bbEnemyPawns
    (0 ≤ counts.isolatedPawns ∧ counts.isolatedPawns ≤ m) ∧
      (0 ≤ counts.doublePawns ∧ counts.doublePawns ≤ m) ∧
      (0 ≤ counts.passedPawns ∧ counts.passedPawns ≤ m) ∧
      (-2 * m ≤ counts.openPawns ∧ counts.openPawns ≤ m) ∧
      0 ≤ counts.candidatePawns ∧ counts.candidatePawns ≤ m := by
  have hzero : CountsWithin 0 ⟨0, 0, 0, 0, 0, 0⟩ := by constructor <;> decide
  have hall := countsWithin_foldl c bbPawns bbEnemyPawns (extractAll bbPawns) hzero
  rw [zero_add, ← popcount_eq_length] at hall
  obtain ⟨h₁, h₂, h₃, h₄, h₅⟩ := hall
  simp only [countPawns]
  omega

end Counts

section Terms

theorem weights_of_features :
    (weightValues shippedFeatures.queenNearToKing).toInt = -17 ∧
    (weightValues shippedFeatures.rookNearToKing).toInt = -1 ∧
    (weightValues shippedFeatures.twoBishops).toInt = 34 ∧
    (weightValues shippedFeatures.pawnIsolated).toInt = -10 ∧
    (weightValues shippedFeatures.pawnDouble).toInt = -6 ∧
    (weightValues shippedFeatures.pawnPassed).toInt = 40 ∧
    (weightValues shippedFeatures.pawnCandidate).toInt = 14 ∧
    (weightValues shippedFeatures.pawnOpen).toInt = 4 ∧
    (weightValues shippedFeatures.pawnProtected).toInt = 6 ∧
    (weightValues shippedFeatures.pawnBackward).toInt = -4 ∧
    (weightValues shippedFeatures.rookOpenCol).toInt = 40 ∧
    (weightValues shippedFeatures.rookSemiOpenCol).toInt = 36 ∧
    (weightValues shippedFeatures.queenOpenCol).toInt = 8 ∧
    (weightValues shippedFeatures.queenSemiOpenCol).toInt = 16 := by
  decide +kernel

theorem within_doEvalPawns (c : Color) {bbPawns : Bitboard} (bbEnemyPawns : Bitboard)
    (hm : popcount bbPawns ≤ 16) :
    Within (-640) 1088 (doEvalPawns (checkedWeights weightValues) shippedFeatures c bbPawns
      bbEnemyPawns) := by
  obtain ⟨-, -, -, hisolated, hdouble, hpassed, hcandidate, hopen, hprotected, hbackward, -⟩ :=
    weights_of_features
  obtain ⟨h₁, h₂, h₃, h₄, h₅⟩ := countPawns_within c bbEnemyPawns hm
  have h₆ : 0 ≤ protectedPawns c bbPawns ∧ protectedPawns c bbPawns ≤ 16 := by
    have := popcount_and_le_left bbPawns (bbPawnAttacks c bbPawns)
    unfold protectedPawns
    omega
  have h₇ : ∀ spans, 0 ≤ backwardPawns c bbPawns bbEnemyPawns spans ∧
      backwardPawns c bbPawns bbEnemyPawns spans ≤ 64 := by
    intro spans
    have := popcount_le (advancePawnForward c bbPawns &&& bbPawnAttacks (invert c) bbEnemyPawns &&&
      ~~~spans)
    unfold backwardPawns
    omega
  have h₇ := h₇ (countPawns c bbPawns bbEnemyPawns).bbAttackFrontspans
  push_cast at h₁ h₂ h₃ h₄ h₅
  have k₁ : -160 ≤ -10 * (countPawns c bbPawns bbEnemyPawns).isolatedPawns ∧
      -10 * (countPawns c bbPawns bbEnemyPawns).isolatedPawns ≤ 0 := by omega
  have k₂ : -96 ≤ -6 * (countPawns c bbPawns bbEnemyPawns).doublePawns ∧
      -6 * (countPawns c bbPawns bbEnemyPawns).doublePawns ≤ 0 := by omega
  have k₃ : 0 ≤ 40 * (countPawns c bbPawns bbEnemyPawns).passedPawns ∧
      40 * (countPawns c bbPawns bbEnemyPawns).passedPawns ≤ 640 := by omega
  have k₄ : -128 ≤ 4 * (countPawns c bbPawns bbEnemyPawns).openPawns ∧
      4 * (countPawns c bbPawns bbEnemyPawns).openPawns ≤ 64 := by omega
  have k₅ : 0 ≤ 14 * (countPawns c bbPawns bbEnemyPawns).candidatePawns ∧
      14 * (countPawns c bbPawns bbEnemyPawns).candidatePawns ≤ 224 := by omega
  have k₆ : 0 ≤ 6 * protectedPawns c bbPawns ∧ 6 * protectedPawns c bbPawns ≤ 96 := by omega
  have k₇ : -256 ≤ -4 * backwardPawns c bbPawns bbEnemyPawns
        (countPawns c bbPawns bbEnemyPawns).bbAttackFrontspans ∧
      -4 * backwardPawns c bbPawns bbEnemyPawns
        (countPawns c bbPawns bbEnemyPawns).bbAttackFrontspans ≤ 0 := by omega
  have hsum := ((((((within_zero.addWithCoef hisolated k₁ (by decide)).addWithCoef hdouble k₂
    (by decide)).addWithCoef hpassed k₃ (by decide)).addWithCoef hopen k₄ (by decide)).addWithCoef
    hcandidate k₅ (by decide)).addWithCoef hprotected k₆ (by decide)).addWithCoef hbackward k₇
    (by decide)
  exact hsum.mono (by decide) (by decide)

theorem rowMask_lt (bbPawns bbRow : Bitboard) (shift : Nat) : rowMask bbPawns bbRow shift < 8 := by
  have hle : ((bbPawns &&& bbRow) >>> shift &&& 7#64).toNat ≤ (7#64).toNat := by
    rw [BitVec.toNat_and]
    exact Nat.and_le_right
  exact Nat.lt_of_le_of_lt hle (by decide)

theorem kingPawn_bounds : ∀ (inverted : Bool) (mask1 mask2 : Fin 8),
    (kingPawnShield (checkedWeights weightValues) shippedFeatures.kingPawn inverted mask1 mask2).value.any
      (fun w => decide ((-101 ≤ w.1 ∧ w.1 ≤ 161) ∧ -101 ≤ w.2 ∧ w.2 ≤ 161)) = true ∧
    (kingPawnStorm (checkedWeights weightValues) shippedFeatures.kingPawn inverted mask1 mask2).value.any
      (fun w => decide ((-101 ≤ w.1 ∧ w.1 ≤ 161) ∧ -101 ≤ w.2 ∧ w.2 ≤ 161)) = true := by
  decide +kernel

theorem pairWithin_of_any {lo hi : Int} {p : CheckedPair}
    (h : p.value.any (fun w => decide ((lo ≤ w.1 ∧ w.1 ≤ hi) ∧ lo ≤ w.2 ∧ w.2 ≤ hi)) = true) :
    PairWithin lo hi p := by
  obtain ⟨w, hw, hbounds⟩ := (Option.any_eq_true _ _).mp h
  exact ⟨w, hw, of_decide_eq_true hbounds⟩

theorem within_kingPawnResult (b : Board) (c : Color) : ∃ p,
    kingPawnResult (checkedWeights weightValues) shippedFeatures b c = some p ∧
      PairWithin (-202) 322 p := by
  have hall : ∀ (inverted : Bool) {m₁ m₂ m₃ m₄ : Nat}, m₁ < 8 → m₂ < 8 → m₃ < 8 → m₄ < 8 →
      PairWithin (-202) 322
        (kingPawnShield (checkedWeights weightValues) shippedFeatures.kingPawn inverted m₁ m₂ +
          kingPawnStorm (checkedWeights weightValues) shippedFeatures.kingPawn inverted m₃ m₄) := by
    intro inverted m₁ m₂ m₃ m₄ h₁ h₂ h₃ h₄
    have hshield := pairWithin_of_any (kingPawn_bounds inverted ⟨m₁, h₁⟩ ⟨m₂, h₂⟩).1
    have hstorm := pairWithin_of_any (kingPawn_bounds inverted ⟨m₃, h₃⟩ ⟨m₄, h₄⟩).2
    exact hshield.add hstorm (by decide) (by decide)
  exact ⟨_, rfl, hall _ (rowMask_lt _ _ _) (rowMask_lt _ _ _) (rowMask_lt _ _ _) (rowMask_lt _ _ _)⟩

section Pieces

variable [Globals] {b : Board} (hb : Regular b)
include hb

theorem popcount_pieces (c : Color) (pc : Piece) : popcount (b.bbPieces (makeCell c pc)) ≤ 16 := by
  refine (popcount_mono fun s hs => ?_).trans (hb.count c)
  exact (hasBit_bbColor hb.cells hb.synced).mpr ⟨pc, (hasBit_bbPieces hb.synced).mp hs⟩

theorem nearCount_bounds (c : Color) (pc : Piece) : 0 ≤ nearCount b c pc ∧ nearCount b c pc ≤ 160 := by
  have hall := popcount_pieces hb (invert c) pc
  have hring : ∀ dist, popcount (kingMetricRing (kingPos b c) dist &&& b.bbPieces (makeCell (invert c) pc))
      ≤ 16 := fun dist => (popcount_and_le_right _ _).trans hall
  have h₁ := hring 1
  have h₂ := hring 2
  have h₃ := hring 3
  unfold nearCount kingZoneCost1 kingZoneCost2 kingZoneCost3
  dsimp only
  omega

theorem within_evalKingSafety {stage : Int} (h : 0 ≤ stage) (h' : stage ≤ coefUnit) (c : Color) :
    ∃ x, evalKingSafety (checkedWeights weightValues) shippedFeatures b stage c = some x ∧
      Within (-3082) 322 x := by
  obtain ⟨hqueen, hrook, -⟩ := weights_of_features
  have hq := nearCount_bounds hb c .queen
  have hr := nearCount_bounds hb c .rook
  have k₁ : -2720 ≤ -17 * nearCount b c .queen ∧ -17 * nearCount b c .queen ≤ 0 := by omega
  have k₂ : -160 ≤ -1 * nearCount b c .rook ∧ -1 * nearCount b c .rook ≤ 0 := by omega
  have hnear := (within_zero.addWithCoef hqueen k₁ (by decide)).addWithCoef hrook k₂ (by decide)
  unfold evalKingSafety
  dsimp only
  split
  · obtain ⟨p, hp, hpair⟩ := within_kingPawnResult b c
    rw [hp]
    have hmix := hpair.mix h h' (by decide) (by decide)
    exact ⟨_, rfl, (hnear.add hmix (by decide) (by decide)).mono (by decide) (by decide)⟩
  · exact ⟨_, rfl, hnear.mono (by decide) (by decide)⟩

omit hb in
omit [Globals] in
theorem within_evalMaterial (b : Board) (c : Color) :
    Within 0 34 (evalMaterial (checkedWeights weightValues) shippedFeatures b c) := by
  obtain ⟨-, -, htwo, -⟩ := weights_of_features
  unfold evalMaterial
  dsimp only
  split
  · have hnumber : Within 34 34 ((checkedWeights weightValues).number shippedFeatures.twoBishops) :=
      ⟨_, rfl, htwo.ge, htwo.le⟩
    exact (within_zero.add hnumber (by decide) (by decide)).mono (by decide) (by decide)
  · exact within_zero.mono (by decide) (by decide)

theorem within_evalPawns :
    Within (-1728) 1728 (evalPawns (checkedWeights weightValues) shippedFeatures b).score :=
  (within_doEvalPawns .white _ (popcount_pieces hb .white .pawn)).sub
    (within_doEvalPawns .black _ (popcount_pieces hb .black .pawn)) (by decide) (by decide)

theorem within_evalOpenLines (pawnValue : PawnCacheValue Checked) (c : Color) :
    Within 0 1600 (evalOpenLines (checkedWeights weightValues) shippedFeatures b pawnValue c) := by
  obtain ⟨-, -, -, -, -, -, -, -, -, -, h₁, h₂, h₃, h₄⟩ := weights_of_features
  have hall : ∀ (bb : Bitboard) (pc : Piece), popcount (bb &&& b.bbPieces (makeCell c pc)) ≤ 16 :=
    fun bb pc => (popcount_and_le_right _ _).trans (popcount_pieces hb c pc)
  generalize hopen : byteScatter pawnValue.bbOpenCols = bbOpen
  generalize hsemi : byteScatter (if c = .white then pawnValue.bbBlackOnlyCols else
    pawnValue.bbWhiteOnlyCols) = bbSemi
  have hr := hall bbOpen .rook
  have hr' := hall bbSemi .rook
  have hq := hall bbOpen .queen
  have hq' := hall bbSemi .queen
  have k₁ : 0 ≤ 40 * (popcount (bbOpen &&& b.bbPieces (makeCell c .rook)) : Int) ∧
      40 * (popcount (bbOpen &&& b.bbPieces (makeCell c .rook)) : Int) ≤ 640 := by omega
  have k₂ : 0 ≤ 36 * (popcount (bbSemi &&& b.bbPieces (makeCell c .rook)) : Int) ∧
      36 * (popcount (bbSemi &&& b.bbPieces (makeCell c .rook)) : Int) ≤ 576 := by omega
  have k₃ : 0 ≤ 8 * (popcount (bbOpen &&& b.bbPieces (makeCell c .queen)) : Int) ∧
      8 * (popcount (bbOpen &&& b.bbPieces (makeCell c .queen)) : Int) ≤ 128 := by omega
  have k₄ : 0 ≤ 16 * (popcount (bbSemi &&& b.bbPieces (makeCell c .queen)) : Int) ∧
      16 * (popcount (bbSemi &&& b.bbPieces (makeCell c .queen)) : Int) ≤ 256 := by omega
  have hsum := (((within_zero.addWithCoef h₁ k₁ (by decide)).addWithCoef h₂ k₂
    (by decide)).addWithCoef h₃ k₃ (by decide)).addWithCoef h₄ k₄ (by decide)
  unfold evalOpenLines
  dsimp only
  rw [hopen, hsemi]
  exact hsum.mono (by decide) (by decide)

end Pieces

end Terms

section PieceSquares

/-- The least and the greatest entry of each table of 64 cells. -/
def tableRanges : List (Int × Int) :=
  [(-60, 203), (-446, 240), (-133, 60), (-69, 48), (-53, 38), (-194, 41), (-99, 87)]

def material : Piece → Int
  | .pawn => 100
  | .king => 0
  | .knight => 325
  | .bishop => 352
  | .rook => 531
  | .queen => 1012

theorem pieceCosts_eq : ∀ pc,
    (weightValues (shippedFeatures.psq.pieceCosts pc)).toInt = material pc := by
  decide +kernel

theorem weightList_bounds : ∀ entry ∈ weightList.zipIdx, 6 ≤ entry.2 → entry.2 < 454 →
    (tableRanges.getD ((entry.2 - 6) / 64) 0).1 ≤ (Int16.ofInt entry.1).toInt ∧
      (Int16.ofInt entry.1).toInt ≤ (tableRanges.getD ((entry.2 - 6) / 64) 0).2 := by
  decide +kernel

theorem weightValues_bounds {i : Fin featureCount} {k : Nat} {j : Square} (hk : k < 7)
    (hi : i.val = 6 + k * 64 + j) :
    (tableRanges.getD k 0).1 ≤ (weightValues i).toInt ∧
      (weightValues i).toInt ≤ (tableRanges.getD k 0).2 := by
  have hlen : weightList.length = 480 := by decide +kernel
  have hlt : i.val < weightList.length := by
    rw [hlen]
    exact i.isLt
  have hmem : (weightList[i.val], i.val) ∈ weightList.zipIdx := by
    rw [List.mk_mem_zipIdx_iff_getElem?, List.getElem?_eq_getElem hlt]
  have hrange := weightList_bounds _ hmem (by simp only; omega) (by simp only; omega)
  have hgroup : (i.val - 6) / 64 = k := by omega
  simp only [hgroup] at hrange
  rw [weightValues, List.getD_eq_getElem _ _ hlt]
  exact hrange

/-- What a man of colour `d` is worth to `c` at most: the king alone may cost its own side. -/
def gain (c d : Color) (pc : Piece) : Int := if d = c then 1053 else if pc = .king then 446 else 0

theorem pairWithin_pairOf {lo hi : Int} {x y : Checked} (hx : Within lo hi x) (hy : Within lo hi y) :
    PairWithin lo hi (Checked.pairOf x y) := by
  obtain ⟨a, ha, hax⟩ := hx
  obtain ⟨b, hb, hby⟩ := hy
  refine ⟨(a, b), ?_, hax, hby⟩
  rw [Checked.pairOf, ha, hb]
  rfl

theorem within_num2 {i j : Fin featureCount} {a lo hi : Int} (d : Color)
    (ha : (weightValues i).toInt = a)
    (hj : lo ≤ (weightValues j).toInt ∧ (weightValues j).toInt ≤ hi) (hlo : -32767 ≤ a + lo)
    (hhi : a + hi ≤ 32767) :
    Within (if d = .white then a + lo else -(a + hi)) (if d = .white then a + hi else -(a + lo))
      ((if d = .white then (checkedWeights weightValues).number2 else
        (checkedWeights weightValues).negNumber2) i j) := by
  subst ha
  cases d
  · rw [if_pos rfl, if_pos rfl, if_pos rfl]
    have hsum : (weightValues i).toInt + lo ≤ (weightValues i).toInt + (weightValues j).toInt ∧
        (weightValues i).toInt + (weightValues j).toInt ≤ (weightValues i).toInt + hi := by omega
    exact ⟨_, fit_eq (by omega) hhi hsum, hsum⟩
  · rw [if_neg (by decide), if_neg (by decide), if_neg (by decide)]
    have hsum : -((weightValues i).toInt + hi) ≤ -((weightValues i).toInt + (weightValues j).toInt) ∧
        -((weightValues i).toInt + (weightValues j).toInt) ≤ -((weightValues i).toInt + lo) := by omega
    exact ⟨_, fit_eq (by omega) (by omega) hsum, hsum⟩

theorem table_bounds (pc : Piece) (s : Square) :
    (tableRanges.getD (pieceIdx pc) 0).1 ≤ (weightValues (shippedFeatures.psq.table pc s)).toInt ∧
      (weightValues (shippedFeatures.psq.table pc s)).toInt ≤ (tableRanges.getD (pieceIdx pc) 0).2 := by
  apply weightValues_bounds (j := s)
  · have := (pieceIdx pc).isLt
    omega
  · simp [PsqBundle.table, shippedFeatures]

theorem endKingTable_bounds (s : Square) :
    -99 ≤ (weightValues (shippedFeatures.psq.endKingTable s)).toInt ∧
      (weightValues (shippedFeatures.psq.endKingTable s)).toInt ≤ 87 :=
  weightValues_bounds (k := 6) (j := s) (by decide) (by simp [PsqBundle.endKingTable, shippedFeatures])

theorem psq_within (d : Color) (pc : Piece) (s : Square) :
    PairWithin (-gain .black d pc) (gain .white d pc)
      (psq (checkedWeights weightValues) shippedFeatures.psq (makeCell d pc) s) := by
  have htable := fun pos => within_num2 d (pieceCosts_eq pc) (table_bounds pc pos) (by cases pc <;> decide)
    (by cases pc <;> decide)
  unfold psq
  rw [pieceOf_makeCell]
  dsimp only
  generalize (if d = .white then s else coordFlipX s) = pos
  unfold Weights.psqCost
  dsimp only
  by_cases hking : pc = .king
  · subst hking
    rw [if_pos rfl]
    have hend := within_num2 d (pieceCosts_eq .king) (endKingTable_bounds pos) (by decide) (by decide)
    apply pairWithin_pairOf
    · exact (htable pos).mono (by cases d <;> decide) (by cases d <;> decide)
    · exact hend.mono (by cases d <;> decide) (by cases d <;> decide)
  · rw [if_neg hking]
    have hlo : -gain .black d pc ≤ if d = .white then material pc + (tableRanges.getD (pieceIdx pc) 0).1
        else -(material pc + (tableRanges.getD (pieceIdx pc) 0).2) := by
      cases d <;> cases pc <;> first | contradiction | decide
    have hhi : (if d = .white then material pc + (tableRanges.getD (pieceIdx pc) 0).2
        else -(material pc + (tableRanges.getD (pieceIdx pc) 0).1)) ≤ gain .white d pc := by
      cases d <;> cases pc <;> first | contradiction | decide
    exact pairWithin_pairOf ((htable pos).mono hlo hhi) ((htable pos).mono hlo hhi)

/-- What a cell is worth to `c` at most. -/
def cellGain (c : Color) (cell : Cell) : Int :=
  match pieceOf cell with
  | some w => gain c w.1 w.2
  | none => 0

theorem cellGain_nonneg (c : Color) (cell : Cell) : 0 ≤ cellGain c cell := by
  unfold cellGain
  split
  · unfold gain
    split_ifs <;> decide
  · exact le_rfl

theorem psq_within_cell {cell : Cell} (h : isCellValid cell = true) (s : Square) :
    PairWithin (-cellGain .black cell) (cellGain .white cell)
      (psq (checkedWeights weightValues) shippedFeatures.psq cell s) := by
  obtain rfl | ⟨d, pc, rfl⟩ := isCellValid_iff.mp h
  · exact ⟨(0, 0), rfl, ⟨by decide, by decide⟩, by decide, by decide⟩
  · unfold cellGain
    rw [pieceOf_makeCell]
    exact psq_within d pc s

/-- The partial sums stay in range, since those that remain only widen the interval. -/
theorem pairWithin_foldl {b : Board} (hv : ∀ s, isCellValid (b.cells s) = true) (l : List Square)
    {lo hi : Int} {tag : Tag CheckedPair} (h : PairWithin lo hi tag.psqCost)
    (hlo : -32768 ≤ lo - (l.map fun i => cellGain .black (b.cells i)).sum)
    (hhi : hi + (l.map fun i => cellGain .white (b.cells i)).sum ≤ 32767) :
    PairWithin (lo - (l.map fun i => cellGain .black (b.cells i)).sum)
      (hi + (l.map fun i => cellGain .white (b.cells i)).sum)
      (l.foldl (fun tag i => (⟨tag.psqCost +
        psq (checkedWeights weightValues) shippedFeatures.psq (b.cells i) i,
        tag.stage + stages (b.cells i)⟩ : Tag CheckedPair)) tag).psqCost := by
  induction l generalizing lo hi tag with
  | nil => simpa using h
  | cons i l ih =>
    have hnonneg : ∀ c, 0 ≤ (l.map fun i => cellGain c (b.cells i)).sum := by
      intro c
      apply List.sum_nonneg
      intro x hx
      obtain ⟨j, -, rfl⟩ := List.mem_map.mp hx
      exact cellGain_nonneg c _
    have hblack := hnonneg .black
    have hwhite := hnonneg .white
    rw [List.map_cons, List.sum_cons] at hlo hhi ⊢
    rw [List.map_cons, List.sum_cons]
    have hnext : PairWithin (lo - cellGain .black (b.cells i)) (hi + cellGain .white (b.cells i))
        (⟨tag.psqCost + psq (checkedWeights weightValues) shippedFeatures.psq (b.cells i) i,
          tag.stage + stages (b.cells i)⟩ : Tag CheckedPair).psqCost :=
      h.add (psq_within_cell (hv i) i) (by omega) (by omega)
    rw [← sub_sub, ← add_assoc]
    exact ih hnext (by omega) (by omega)

section Board

variable [Globals] {b : Board} (hb : Regular b)
include hb

theorem sum_gain_le (c : Color) :
    ((List.finRange 64).map fun i => cellGain c (b.cells i)).sum ≤ 17294 := by
  have hking : popcount (b.bbPieces (makeCell (invert c) .king)) = 1 :=
    (king_iff hb.synced _).mp (hb.king _)
  have hcell : ∀ i, cellGain c (b.cells i) ≤ 1053 * (if hasBit (bbColor b c) i = true then 1 else 0) +
      446 * if hasBit (b.bbPieces (makeCell (invert c) .king)) i = true then 1 else 0 := by
    intro i
    obtain he | ⟨d, pc, he⟩ := isCellValid_iff.mp (hb.cells i)
    · have hzero : cellGain c (b.cells i) = 0 := by
        rw [he]
        rfl
      rw [hzero]
      positivity
    · have hgain : cellGain c (b.cells i) = gain c d pc := by
        rw [he, cellGain, pieceOf_makeCell]
      rw [hgain, gain]
      obtain rfl | rfl := eq_or_eq_invert c d
      · have hbit := (hasBit_bbColor hb.cells hb.synced).mpr ⟨pc, he⟩
        rw [if_pos rfl, if_pos hbit]
        split <;> decide
      · rw [if_neg (invert_ne c)]
        by_cases hpc : pc = .king
        · subst hpc
          rw [if_pos rfl, if_pos ((hasBit_bbPieces hb.synced).mpr he)]
          split <;> decide
        · rw [if_neg hpc]
          positivity
  rw [← Fin.sum_univ_def]
  have hcount := hb.count c
  rw [popcount_eq_card] at hking hcount
  calc ∑ i, cellGain c (b.cells i)
      ≤ ∑ i, (1053 * (if hasBit (bbColor b c) i = true then (1 : Int) else 0) +
          446 * if hasBit (b.bbPieces (makeCell (invert c) .king)) i = true then 1 else 0) :=
        Finset.sum_le_sum fun i _ => hcell i
    _ ≤ 17294 := by
        rw [Finset.sum_add_distrib, ← Finset.mul_sum, ← Finset.mul_sum, Finset.sum_boole,
          Finset.sum_boole, hking]
        push_cast
        omega

theorem exactScore_bounds : ∃ s, exactScore weightValues shippedFeatures b = some s ∧
    -24060 ≤ s ∧ s ≤ 24060 := by
  obtain ⟨hstage, hunit⟩ := calcStage_bounds
    (tagFrom (checkedWeights weightValues) shippedFeatures.psq b).stage
  have hblack := sum_gain_le hb .black
  have hwhite := sum_gain_le hb .white
  have hempty : PairWithin 0 0 (⟨PairTraits.empty, 0⟩ : Tag CheckedPair).psqCost :=
    ⟨(0, 0), rfl, ⟨le_rfl, le_rfl⟩, le_rfl, le_rfl⟩
  have hcost := pairWithin_foldl hb.cells (List.finRange 64) hempty (by omega) (by omega)
  have hmix : Within (-17294) 17294 (ScoreType.mix
      (tagFrom (checkedWeights weightValues) shippedFeatures.psq b).psqCost (calcStage
        (tagFrom (checkedWeights weightValues) shippedFeatures.psq b).stage)) :=
    (hcost.mix hstage hunit (by omega) (by omega)).mono (by omega) (by omega)
  obtain ⟨w, hw, hww⟩ := within_evalKingSafety hb hstage hunit .white
  obtain ⟨k, hk, hkk⟩ := within_evalKingSafety hb hstage hunit .black
  have hking := hmix.addDiff hww hkk (by decide) (by decide)
  have hmaterial := hking.addDiff (within_evalMaterial b .white) (within_evalMaterial b .black)
    (by decide) (by decide)
  have hpawns := hmaterial.add (within_evalPawns hb) (by decide) (by decide)
  obtain ⟨s, hs, hlo, hhi⟩ := hpawns.addDiff
    (within_evalOpenLines hb (evalPawns (checkedWeights weightValues) shippedFeatures b) .white)
    (within_evalOpenLines hb (evalPawns (checkedWeights weightValues) shippedFeatures b) .black)
    (by decide) (by decide)
  refine ⟨s, ?_, hlo.trans' (by decide), hhi.trans (by decide)⟩
  rw [exactScore, evalUncached_eq_some.mpr ⟨w, k, hw, hk, rfl⟩]
  exact hs

end Board

/-- With the shipped weights no board that passes the checks makes a 16-bit value overflow, however
its pieces were promoted; the packed pairs are then exact, and no score looks like a checkmate. -/
theorem eval_in_range [Globals] {b : Board} (hb : Valid b) :
    ∃ s, exactScore weightValues shippedFeatures b = some s ∧
      evalUncached (scoreWeights weightValues) shippedFeatures b
        (tagFrom (scoreWeights weightValues) shippedFeatures.psq b) = some s ∧
      -scoreCheckmateThreshold < s ∧ s < scoreCheckmateThreshold := by
  obtain ⟨s, hs, hlo, hhi⟩ := exactScore_bounds (valid_iff.mp hb).1
  exact ⟨s, hs, score_exact weightValues shippedFeatures b hs, hlo.trans_lt' (by decide),
    hhi.trans_lt (by decide)⟩

theorem eval_in_range_initialPosition : letI := spreadGlobals
    ∃ s, exactScore weightValues shippedFeatures initialPosition = some s ∧
      evalUncached (scoreWeights weightValues) shippedFeatures initialPosition
        (tagFrom (scoreWeights weightValues) shippedFeatures.psq initialPosition) = some s ∧
      -scoreCheckmateThreshold < s ∧ s < scoreCheckmateThreshold :=
  letI := spreadGlobals
  eval_in_range valid_initialPosition

open SoFCheck.Eval.Feat in
/-- The weights are those of the feature file. For a board that passes the checks the stage is a share
of the unit, all sums fit in 16 bits, and the score looks like no checkmate. -/
theorem shipped_evaluation_fits [Globals] {b : Board} (hb : Valid b) :
    (∃ f, Features.load featuresFile = .ok f ∧ f.count = featureCount ∧
      f.extract = some (weightList.map Int32.ofInt) ∧
      f.bundles.map (fun bundle => (bundle.name.name, bundle.name.offset)) = Shipped.layout) ∧
    0 ≤ calcStage (tagFrom (scoreWeights weightValues) shippedFeatures.psq b).stage ∧
    calcStage (tagFrom (scoreWeights weightValues) shippedFeatures.psq b).stage ≤ 256 ∧
    ∃ s, exactScore weightValues shippedFeatures b = some s ∧
      freshScore weightValues shippedFeatures b = some s ∧ -28000 < s ∧ s < 28000 := by
  obtain ⟨hstage, hunit⟩ :=
    calcStage_bounds (tagFrom (scoreWeights weightValues) shippedFeatures.psq b).stage
  obtain ⟨s, hs, hlo, hhi⟩ := exactScore_bounds (valid_iff.mp hb).1
  exact ⟨load_featuresFile, hstage, hunit, s, hs, freshScore_exact weightValues shippedFeatures hs,
    hlo.trans_lt' (by decide), hhi.trans_lt (by decide)⟩

/-- All the pawns of White have become queens, and its other pieces too. -/
def fifteenQueens : Board :=
  { initialFields with
    cells := fun s => if s.val = 0 then makeCell .black .king else if s.val = 60 then makeCell .white .king
      else if 8 ≤ s.val ∧ s.val < 23 then makeCell .white .queen else emptyCell
    side := .black
    castling := Castling.none }

theorem valid_fifteenQueens [Globals] : Valid (update fifteenQueens) :=
  valid_update_of_cells ⟨by decide, by decide, fun h => absurd rfl h⟩ (by decide +kernel)
    (by decide +kernel) (by decide +kernel) (by decide +kernel)

theorem shipped_evaluation_fits_queens : letI := spreadGlobals
    ∃ s, exactScore weightValues shippedFeatures (update fifteenQueens) = some s ∧
      freshScore weightValues shippedFeatures (update fifteenQueens) = some s ∧ -28000 < s ∧ s < 28000 :=
  letI := spreadGlobals
  (shipped_evaluation_fits valid_fifteenQueens).2.2.2

end PieceSquares

end SoFCheck.Eval.Bounds
