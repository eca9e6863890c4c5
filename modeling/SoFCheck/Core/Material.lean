import SoFCheck.Core.Sequence

namespace SoFCheck.Core.Material

open SoFCheck.Util.Bits SoFCheck.Util.Scan
open SoFCheck.Core.Types SoFCheck.Core.Grid SoFCheck.Core.Geometry SoFCheck.Core.BoardState
open SoFCheck.Core.Moves SoFCheck.Core.Attack SoFCheck.Core.Mailbox SoFCheck.Core.Validate
open SoFCheck.Core.Position SoFCheck.Core.MoveMake SoFCheck.Core.MakeRefine SoFCheck.Core.Movegen
open SoFCheck.Core.PseudoLegal SoFCheck.Core.Legality SoFCheck.Core.InitialPosition
open SoFCheck.Core.Sequence

/-- The colour of a cell: whether it is one of `BB_CELLS_WHITE`. -/
def shade (s : Square) : Bool := (row s + col s) % 2 = 0

/-- Besides the kings there is nothing, or one knight, or bishops on cells of
one colour. -/
inductive Bare (p : Position) : Prop where
  | kings (h : ∀ s c pc, p.pieceAt s = some (c, pc) → pc = .king)
  | knight (s₀ : Square) (c₀ : Color) (h₀ : p.pieceAt s₀ = some (c₀, .knight))
      (h : ∀ s c pc, p.pieceAt s = some (c, pc) → pc = .king ∨ s = s₀)
  | bishops (x : Bool)
      (h : ∀ s c pc, p.pieceAt s = some (c, pc) → pc = .king ∨ pc = .bishop ∧ shade s = x)

section Shade

variable {s t u : Square}

theorem shade_iff : shade s = shade t ↔ (row s + col s) % 2 = (row t + col t) % 2 := by
  rw [shade, shade, decide_eq_decide]
  omega

theorem shade_of_bishop {occ : Square → Bool} {c : Color} (h : Reaches occ c .bishop s t) :
    shade s = shade t := by
  obtain ⟨d, hd, ht⟩ := h
  obtain ⟨n, -, h1, h2⟩ := (mem_ray (lines_subset hd)).mp ((mem_scan _).mp ht).1
  have hdir : d = (-1, -1) ∨ d = (1, -1) ∨ d = (-1, 1) ∨ d = (1, 1) := by
    simpa [lines, bishopDirs] using hd
  rw [shade_iff]
  obtain rfl | rfl | rfl | rfl := hdir <;> simp only [Int.mul_neg, Int.mul_one] at h1 h2 <;> omega

theorem shade_of_knight {occ : Square → Bool} {c : Color} (h : Reaches occ c .knight s t) :
    shade s ≠ shade t := by
  simp only [Reaches, rowDist, colDist] at h
  rw [ne_eq, shade_iff]
  omega

theorem exists_beside {k e : Square} (h : 1 < max (rowDist k e) (colDist k e)) :
    ∃ n, max (rowDist k n) (colDist k n) = 1 ∧ shade n ≠ shade k ∧
      1 < max (rowDist n e) (colDist n e) := by
  have hk := row_lt k
  have hk' := col_lt k
  simp only [rowDist, colDist] at h ⊢
  have hstep : ∀ i : Nat, i < 8 → ∃ j : Nat, j < 8 ∧ (j = i + 1 ∨ i = j + 1) := by
    intro i hi
    by_cases h0 : i = 0
    · exact ⟨1, by decide, Or.inl (by omega)⟩
    · exact ⟨i - 1, by omega, Or.inr (by omega)⟩
  simp only [ne_eq, shade_iff]
  by_cases hrow : 1 < ((row k : Int) - row e).natAbs
  · obtain ⟨j, hj, hjk⟩ := hstep (col k) hk'
    obtain ⟨n, hn⟩ : ∃ n, cellAt (row k) j = some n :=
      ⟨_, if_pos ⟨by omega, by omega, by omega, by omega⟩⟩
    obtain ⟨hnr, hnc⟩ := cellAt_eq_some.mp hn
    refine ⟨n, ?_, ?_, ?_⟩ <;> omega
  · obtain ⟨i, hi, hik⟩ := hstep (row k) hk
    obtain ⟨n, hn⟩ : ∃ n, cellAt i (col k) = some n :=
      ⟨_, if_pos ⟨by omega, by omega, by omega, by omega⟩⟩
    obtain ⟨hnr, hnc⟩ := cellAt_eq_some.mp hn
    refine ⟨n, ?_, ?_, ?_⟩ <;> omega

end Shade

section Bitboards

variable {b : Board}

theorem hasBit_bbCellsWhite : ∀ s : Square, hasBit bbCellsWhite s = shade s := by decide

theorem hasBit_bbCellsBlack : ∀ s : Square, hasBit bbCellsBlack s = !shade s := by decide

theorem hasBit_both (hs : Synced b) (pc : Piece) (s : Square) :
    hasBit (b.bbPieces (makeCell .white pc) ||| b.bbPieces (makeCell .black pc)) s = true ↔
      ∃ c, (position b).pieceAt s = some (c, pc) := by
  rw [hasBit_or, Bool.or_eq_true, hasBit_bbPieces hs, hasBit_bbPieces hs]
  simp only [pieceAt_eq_some]
  constructor
  · rintro (h | h)
    · exact ⟨_, h⟩
    · exact ⟨_, h⟩
  · rintro ⟨c, h⟩
    cases c with
    | white => exact Or.inl h
    | black => exact Or.inr h

/-- The cells of the men that are not kings. -/
def noKings (b : Board) : Bitboard :=
  b.bbAll ^^^ (b.bbPieces (makeCell .white .king) ||| b.bbPieces (makeCell .black .king))

theorem hasBit_noKings (hv : ∀ s, isCellValid (b.cells s) = true) (hs : Synced b) (s : Square) :
    hasBit (noKings b) s = true ↔ ∃ c pc, pc ≠ .king ∧ (position b).pieceAt s = some (c, pc) := by
  have hking := hasBit_both hs .king s
  rw [noKings, hasBit_xor, hasBit_bbAll hv hs, Position.occupied]
  cases hp : (position b).pieceAt s with
  | none =>
    rw [hp] at hking
    simpa using hking
  | some x =>
    obtain ⟨c, pc⟩ := x
    rw [hp] at hking
    by_cases hpc : pc = .king
    · subst hpc
      simp only [hking.mpr ⟨c, rfl⟩]
      simp
    · have hno : ¬∃ c', some (c, pc) = some (c', Piece.king) := by
        rintro ⟨c', h⟩
        simp [hpc] at h
      have hfalse := Bool.eq_false_iff.mpr (mt hking.mp hno)
      simp [hfalse, hpc]

/-- The function looks at the men that the definition of its name asks about. -/
theorem isBoardDrawInsufficientMaterial_iff (hv : ∀ s, isCellValid (b.cells s) = true)
    (hs : Synced b) : isBoardDrawInsufficientMaterial b = true ↔ Bare (position b) := by
  have hN := hasBit_noKings hv hs
  have hK := hasBit_both hs .knight
  have hB := hasBit_both hs .bishop
  rw [isBoardDrawInsufficientMaterial]
  change (if noKings b &&& bbCellsWhite ≠ 0 ∧ noKings b &&& bbCellsBlack ≠ 0 then false
    else if noKings b = 0 then true
    else if noKings b = b.bbPieces (makeCell .white .knight) ||| b.bbPieces (makeCell .black .knight) ∧
        popcount (b.bbPieces (makeCell .white .knight) ||| b.bbPieces (makeCell .black .knight)) = 1
      then true
    else decide (noKings b =
      b.bbPieces (makeCell .white .bishop) ||| b.bbPieces (makeCell .black .bishop))) = true ↔ _
  have hmixed : (noKings b &&& bbCellsWhite ≠ 0 ∧ noKings b &&& bbCellsBlack ≠ 0) ↔
      (∃ s, hasBit (noKings b) s = true ∧ shade s = true) ∧
        ∃ s, hasBit (noKings b) s = true ∧ shade s = false := by
    simp only [ne_zero_iff, hasBit_and, hasBit_bbCellsWhite, hasBit_bbCellsBlack, Bool.and_eq_true,
      Bool.not_eq_true']
  constructor
  · intro h
    split_ifs at h with h1 h2 h3
    · refine .kings fun s c pc hp => ?_
      by_contra hpc
      have := eq_zero_iff.mp h2 s
      rw [(hN s).mpr ⟨c, pc, hpc, hp⟩] at this
      cases this
    · obtain ⟨heq, hone⟩ := h3
      obtain ⟨s₀, hs₀⟩ := popcount_eq_one_iff.mp hone
      obtain ⟨c₀, h₀⟩ := (hK s₀).mp ((hs₀ s₀).mpr rfl)
      refine .knight s₀ c₀ h₀ fun s c pc hp => ?_
      by_cases hpc : pc = .king
      · exact Or.inl hpc
      · exact Or.inr ((hs₀ s).mp (heq ▸ (hN s).mpr ⟨c, pc, hpc, hp⟩))
    · have heq : noKings b = _ := of_decide_eq_true h
      have hbishop : ∀ s c pc, (position b).pieceAt s = some (c, pc) → pc ≠ .king →
          pc = .bishop ∧ hasBit (noKings b) s = true := by
        intro s c pc hp hpc
        have hbit := (hN s).mpr ⟨c, pc, hpc, hp⟩
        obtain ⟨c', hp'⟩ := (hB s).mp (heq ▸ hbit)
        rw [hp, Option.some_inj, Prod.mk.injEq] at hp'
        exact ⟨hp'.2, hbit⟩
      by_cases hw : ∃ s, hasBit (noKings b) s = true ∧ shade s = true
      · refine .bishops true fun s c pc hp => ?_
        by_cases hpc : pc = .king
        · exact Or.inl hpc
        · obtain ⟨hbp, hbit⟩ := hbishop s c pc hp hpc
          refine Or.inr ⟨hbp, ?_⟩
          by_contra hsh
          exact h1 (hmixed.mpr ⟨hw, s, hbit, by simpa using hsh⟩)
      · refine .bishops false fun s c pc hp => ?_
        by_cases hpc : pc = .king
        · exact Or.inl hpc
        · obtain ⟨hbp, hbit⟩ := hbishop s c pc hp hpc
          refine Or.inr ⟨hbp, ?_⟩
          by_contra hsh
          exact hw ⟨s, hbit, by simpa using hsh⟩
  · intro h
    have hone : ∀ x, (∀ s, hasBit (noKings b) s = true → shade s = x) →
        ¬(noKings b &&& bbCellsWhite ≠ 0 ∧ noKings b &&& bbCellsBlack ≠ 0) := by
      intro x hx hm
      obtain ⟨⟨s, hs1, hs2⟩, t, ht1, ht2⟩ := hmixed.mp hm
      have := hx s hs1
      have := hx t ht1
      simp_all
    cases h with
    | kings h =>
      have hzero : noKings b = 0 := by
        rw [eq_zero_iff]
        intro s
        by_contra hbit
        obtain ⟨c, pc, hpc, hp⟩ := (hN s).mp (by simpa using hbit)
        exact hpc (h s c pc hp)
      rw [if_neg (by simp [hzero]), if_pos hzero]
    | knight s₀ c₀ h₀ h =>
      have honly : ∀ s, hasBit (noKings b) s = true ↔ s = s₀ := by
        intro s
        rw [hN]
        constructor
        · rintro ⟨c, pc, hpc, hp⟩
          exact (h s c pc hp).resolve_left hpc
        · rintro rfl
          exact ⟨c₀, .knight, by decide, h₀⟩
      have hkn : noKings b =
          b.bbPieces (makeCell .white .knight) ||| b.bbPieces (makeCell .black .knight) := by
        refine hasBit_ext fun s => Bool.eq_iff_iff.mpr ?_
        rw [honly, hK]
        constructor
        · rintro rfl
          exact ⟨c₀, h₀⟩
        · rintro ⟨c, hp⟩
          exact (h s c .knight hp).resolve_left (by decide)
      have hpop : popcount (noKings b) = 1 := popcount_eq_one_iff.mpr ⟨s₀, honly⟩
      rw [if_neg (hone (shade s₀) fun s hbit => by rw [(honly s).mp hbit])]
      split
      · rfl
      · rw [← hkn, if_pos ⟨rfl, hpop⟩]
    | bishops x h =>
      have hshade : ∀ s, hasBit (noKings b) s = true → shade s = x := by
        intro s hbit
        obtain ⟨c, pc, hpc, hp⟩ := (hN s).mp hbit
        exact ((h s c pc hp).resolve_left hpc).2
      have hbi : noKings b =
          b.bbPieces (makeCell .white .bishop) ||| b.bbPieces (makeCell .black .bishop) := by
        refine hasBit_ext fun s => Bool.eq_iff_iff.mpr ?_
        rw [hN, hB]
        constructor
        · rintro ⟨c, pc, hpc, hp⟩
          exact ⟨c, ((h s c pc hp).resolve_left hpc).1 ▸ hp⟩
        · rintro ⟨c, hp⟩
          exact ⟨c, .bishop, by decide, hp⟩
      rw [if_neg (hone x hshade)]
      split
      · rfl
      · split
        · rfl
        · exact decide_eq_true hbi

end Bitboards

section Moves

variable {p : Position} {k : MoveKind} {s t : Square}

theorem Bare.simple (hp : Bare p) (h : p.Pseudo k s t) : k = .simple ∧ ∃ pc,
    p.pieceAt s = some (p.side, pc) ∧ Reaches p.occupied p.side pc s t ∧ ¬p.Own t := by
  have hno : ∀ {u c pc}, p.pieceAt u = some (c, pc) → pc ≠ .pawn ∧ pc ≠ .rook := by
    intro u c pc hu
    cases hp with
    | kings h => rw [h u c pc hu]; decide
    | knight s₀ c₀ h₀ h =>
      obtain rfl | rfl := h u c pc hu
      · decide
      · rw [h₀, Option.some_inj, Prod.mk.injEq] at hu
        rw [← hu.2]
        decide
    | bishops x h =>
      obtain rfl | ⟨rfl, -⟩ := h u c pc hu <;> decide
  cases h with
  | piece hs hpc hr ht => exact ⟨rfl, _, hs, hr, ht⟩
  | push hs ho ht hk => exact absurd rfl (hno hs).1
  | double hs hr ho ho' hu ht => exact absurd rfl (hno hs).1
  | capture hs hr ht hk => exact absurd rfl (hno hs).1
  | enpassant he hpe hs hr hc ho ht => exact absurd rfl (hno hs).1
  | castlingKingside hf hk hr h5 h6 ha ha' => exact absurd rfl (hno hr).2
  | castlingQueenside hf hk hr h1 h2 h3 ha ha' => exact absurd rfl (hno hr).2

theorem Bare.play (hp : Bare p) (h : p.Pseudo k s t) : Bare (p.play k s t) := by
  obtain ⟨rfl, pc, hs, hr, ht⟩ := hp.simple h
  have hat : ∀ {u c q}, (p.play .simple s t).pieceAt u = some (c, q) →
      u = t ∧ (p.side, pc) = (c, q) ∨ u ≠ t ∧ u ≠ s ∧ p.pieceAt u = some (c, q) := by
    intro u c q hu
    rw [Position.play_pieceAt, Position.placement, hs] at hu
    exact relocate_eq_some.mp hu
  clear h
  cases hp with
  | kings h =>
    refine .kings fun u c q hu => ?_
    obtain ⟨rfl, he⟩ | ⟨-, -, hu'⟩ := hat hu
    · rw [← (Prod.mk.inj he).2]
      exact h s _ pc hs
    · exact h u c q hu'
  | knight s₀ c₀ h₀ h =>
    obtain rfl | rfl := h s _ pc hs
    · by_cases hst : s₀ = t
      · refine .kings fun u c q hu => ?_
        obtain ⟨rfl, he⟩ | ⟨hut, -, hu'⟩ := hat hu
        · exact (Prod.mk.inj he).2.symm
        · exact (h u c q hu').resolve_right fun he => hut (he.trans hst)
      · have hss : s₀ ≠ s := by
          rintro rfl
          rw [h₀] at hs
          cases hs
        refine .knight s₀ c₀ ?_ fun u c q hu => ?_
        · rw [Position.play_pieceAt, Position.placement, hs]
          exact relocate_eq_some.mpr (Or.inr ⟨hst, hss, h₀⟩)
        · obtain ⟨rfl, he⟩ | ⟨-, -, hu'⟩ := hat hu
          · exact Or.inl (Prod.mk.inj he).2.symm
          · exact h u c q hu'
    · rw [h₀, Option.some_inj, Prod.mk.injEq] at hs
      obtain ⟨rfl, rfl⟩ := hs
      refine .knight t p.side ?_ fun u c q hu => ?_
      · rw [Position.play_pieceAt, Position.placement, h₀]
        exact relocate_eq_some.mpr (Or.inl ⟨rfl, rfl⟩)
      · obtain ⟨rfl, -⟩ | ⟨-, hus, hu'⟩ := hat hu
        · exact Or.inr rfl
        · exact Or.inl ((h u c q hu').resolve_right hus)
  | bishops x h =>
    refine .bishops x fun u c q hu => ?_
    obtain ⟨rfl, he⟩ | ⟨-, -, hu'⟩ := hat hu
    · obtain ⟨rfl, rfl⟩ := Prod.mk.inj he
      obtain rfl | ⟨rfl, hsh⟩ := h s _ pc hs
      · exact Or.inl rfl
      · exact Or.inr ⟨rfl, (shade_of_bishop hr).symm.trans hsh⟩
    · exact h u c q hu'

/-- What hits a king stands so that it does not hit the cells of the other colour
next to the king, nor stand there. -/
theorem Bare.spares (hp : Bare p) {c : Color} {a : Square} {pc : Piece} {K n : Square}
    (ha : p.pieceAt a = some (c, pc)) (hpc : pc ≠ .king) (hr : Reaches p.occupied c pc a K)
    (hn : shade n ≠ shade K) (hadj : max (rowDist K n) (colDist K n) = 1) :
    (∀ d q, p.pieceAt n = some (d, q) → q = .king) ∧
      ∀ u d q occ, p.pieceAt u = some (d, q) → q ≠ .king → ¬Reaches occ d q u n := by
  cases hp with
  | kings h => exact absurd (h a c pc ha) hpc
  | knight s₀ c₀ h₀ h =>
    obtain rfl := (h a c pc ha).resolve_left hpc
    rw [h₀, Option.some_inj, Prod.mk.injEq] at ha
    obtain ⟨rfl, rfl⟩ := ha
    have hshade := shade_of_knight hr
    constructor
    · intro d q hq
      refine (h n d q hq).resolve_right ?_
      rintro rfl
      simp only [Reaches, rowDist, colDist] at hr hadj
      omega
    · intro u d q occ hu hq hru
      obtain rfl := (h u d q hu).resolve_left hq
      rw [h₀, Option.some_inj, Prod.mk.injEq] at hu
      obtain ⟨rfl, rfl⟩ := hu
      have := shade_of_knight hru
      cases hx : shade u <;> cases hy : shade n <;> cases hz : shade K <;> simp_all
  | bishops x h =>
    obtain ⟨rfl, hx⟩ := (h a c pc ha).resolve_left hpc
    have hK : shade K = x := (shade_of_bishop hr).symm.trans hx
    constructor
    · intro d q hq
      refine (h n d q hq).resolve_right ?_
      rintro ⟨-, hnx⟩
      exact hn (hnx.trans hK.symm)
    · intro u d q occ hu hq hru
      obtain ⟨rfl, hux⟩ := (h u d q hu).resolve_left hq
      exact hn ((shade_of_bishop hru).symm.trans (hux.trans hK.symm))

end Moves

section Draw

variable [Globals] {b : Board} {m : Move} {ms : List Move}

/-- The side to move is in check and has no legal move. -/
def Checkmated (b : Board) : Prop :=
  isCheck b = true ∧
    ∀ m, m.isWellFormed b.side = true → isMoveValid b m = true → isMoveLegal b m = false

omit [Globals] in
theorem far_of_not_reaches {occ : Square → Bool} {c : Color} {s t : Square} (hne : s ≠ t)
    (h : ¬Reaches occ c .king s t) : 1 < max (rowDist s t) (colDist s t) := by
  have hext := mt (fun he : row s = row t ∧ col s = col t => square_ext he.1 he.2) hne
  simp only [Reaches, rowDist, colDist] at h ⊢
  omega

/-- A king in check has a legal step. -/
theorem not_checkmated (hb : Valid b) (hp : Bare (position b)) : ¬Checkmated b := by
  rintro ⟨hcheck, hnone⟩
  obtain ⟨hr, hl⟩ := valid_iff.mp hb
  obtain ⟨K, hK, a, pc, ha, hat⟩ := (isCheck_iff hr).mp hcheck
  obtain ⟨K', hK'⟩ := hr.king b.side
  obtain ⟨E, hE⟩ := hr.king (invert b.side)
  have hsafe := (wasMoveLegal_iff hr).mp hl
  have huniq : ∀ {s}, (position b).pieceAt s = some (b.side, .king) → s = K := by
    intro s hs
    rw [(hK' s).mp (pieceAt_eq_some.mp hs), (hK' K).mp (pieceAt_eq_some.mp hK)]
  have hEpos : (position b).pieceAt E = some (invert b.side, .king) :=
    pieceAt_eq_some.mpr ((hE E).mpr rfl)
  have hnot : ¬Reaches (position b).occupied b.side .king K E := by
    intro hre
    refine hsafe ⟨E, hEpos, K, .king, ?_, ?_⟩
    · rw [invert_invert]
      exact hK
    · rw [invert_invert]
      exact hre
  have hKE : K ≠ E := by
    rintro rfl
    rw [hK, Option.some_inj, Prod.mk.injEq] at hEpos
    exact ne_invert _ hEpos.1
  have hpc : pc ≠ .king := by
    rintro rfl
    have haE : a = E := (hE a).mp (pieceAt_eq_some.mp ha)
    subst haE
    exact hnot (Reaches.comm hat)
  obtain ⟨n, hadj, hshade, hfar⟩ := exists_beside (far_of_not_reaches hKE hnot)
  obtain ⟨hkings, hspared⟩ := hp.spares ha hpc hat hshade hadj
  have hn : ¬(position b).Own n := by
    rintro ⟨q, hq⟩
    obtain rfl := hkings _ _ hq
    rw [huniq hq] at hshade
    exact hshade rfl
  have hpseudo : (position b).Pseudo .simple K n := .piece hK (by decide) hadj hn
  obtain ⟨hwf, hv⟩ := (isMoveValid_iff hr).mpr hpseudo
  have hlegal : isMoveLegal b (mkMove .simple K n) = true := by
    rw [isMoveLegal_iff hr hl hpseudo]
    rintro ⟨N, hN, u, q, hu, hre⟩
    rw [Position.play_pieceAt, Position.placement, hK, relocate_eq_some] at hN hu
    have hNn : N = n := by
      obtain ⟨rfl, -⟩ | ⟨-, hNK, hN'⟩ := hN
      · rfl
      · exact absurd (huniq hN') hNK
    subst hNn
    obtain ⟨-, he⟩ | ⟨-, -, hu'⟩ := hu
    · exact absurd (Prod.mk.inj he).1 (ne_invert _)
    · by_cases hq : q = .king
      · subst hq
        have huE : u = E := (hE u).mp (pieceAt_eq_some.mp hu')
        subst huE
        have hone : max (rowDist N u) (colDist N u) = 1 := Reaches.comm hre
        omega
      · exact hspared u _ q _ hu' hq hre
  rw [hnone _ hwf hv] at hlegal
  cases hlegal

theorem bare_moveMake (hb : Valid b) (hp : Bare (position b)) (h : Playable b m) :
    Bare (position (moveMake b m).1) := by
  obtain ⟨hr, hl⟩ := valid_iff.mp hb
  change Bare (position (moveMake b (untag m)).1)
  obtain he | ⟨k, s, t, he, hps⟩ := playable_cases hr h
  · have hpiece : (position (moveMake b Move.null).1).pieceAt = (position b).pieceAt :=
      funext fun s => congrArg pieceOf (congrFun (null_fields b).1 s)
    rw [he]
    cases hp with
    | kings h => exact .kings (by rwa [hpiece])
    | knight s₀ c₀ h₀ h => exact .knight s₀ c₀ (by rwa [hpiece]) (by rwa [hpiece])
    | bishops x h => exact .bishops x (by rwa [hpiece])
  · rw [he, position_moveMake hr hps]
    exact hp.play hps

theorem bare_makeAll (hb : Valid b) (hp : Bare (position b)) (h : Along LegalStep b ms) :
    Valid (makeAll b ms).1 ∧ Bare (position (makeAll b ms).1) := by
  induction ms generalizing b with
  | nil => exact ⟨hb, hp⟩
  | cons m ms ih => exact ih (valid_moveMake hb h.1) (bare_moveMake hb hp h.1.playable) h.2

/-- Once there is nothing to mate with, nobody is ever mated. -/
theorem insufficientMaterial_sound (hb : Valid b) :
    (isBoardDrawInsufficientMaterial b = true ↔ Bare (position b)) ∧
      (isBoardDrawInsufficientMaterial b = true → ∀ ms, Along LegalStep b ms →
        isBoardDrawInsufficientMaterial (makeAll b ms).1 = true ∧
          ¬Checkmated (makeAll b ms).1) := by
  have hiff : ∀ {b : Board}, Valid b →
      (isBoardDrawInsufficientMaterial b = true ↔ Bare (position b)) := fun h =>
    isBoardDrawInsufficientMaterial_iff (valid_iff.mp h).1.cells (valid_iff.mp h).1.synced
  refine ⟨hiff hb, fun h ms hms => ?_⟩
  obtain ⟨hv, hbare⟩ := bare_makeAll hb ((hiff hb).mp h) hms
  exact ⟨(hiff hv).mpr hbare, not_checkmated hv hbare⟩

/-- Bishops on dark squares. -/
def bishopEnding : Board :=
  { initialFields with
    cells := fun s => [(36, makeCell .white .king), (58, makeCell .white .bishop),
      (7, makeCell .black .king), (35, makeCell .black .bishop)].lookup s.val |>.getD emptyCell
    castling := Castling.none }

theorem valid_bishopEnding : Valid (update bishopEnding) :=
  valid_update_of_cells ⟨by decide, by decide, fun h => absurd rfl h⟩ (by decide +kernel)
    (by decide +kernel) (by decide +kernel) (by decide +kernel)

/-- White takes the bishop. -/
def bishopMoves : List Move :=
  [mkMove .simple 36 35, mkMove .simple 7 6, mkMove .simple 35 27, Move.null, mkMove .simple 27 28]

omit [Globals] in
theorem legalStep_bishopMoves : letI := spreadGlobals
    Along LegalStep (update bishopEnding) bishopMoves := by
  decide +kernel

omit [Globals] in
theorem insufficientMaterial_sound_bishopEnding : letI := spreadGlobals
    isBoardDrawInsufficientMaterial (makeAll (update bishopEnding) bishopMoves).1 = true ∧
      ¬Checkmated (makeAll (update bishopEnding) bishopMoves).1 :=
  letI := spreadGlobals
  have hsound := insufficientMaterial_sound valid_bishopEnding
  have hdraw : isBoardDrawInsufficientMaterial (update bishopEnding) = true := by decide +kernel
  hsound.2 hdraw bishopMoves legalStep_bishopMoves

end Draw

end SoFCheck.Core.Material
