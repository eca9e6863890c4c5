import SoFCheck.Core.MakeBoard

namespace SoFCheck.Core.MakeValid

open SoFCheck.Util.Bits
open SoFCheck.Core.Types SoFCheck.Core.Grid SoFCheck.Core.Geometry SoFCheck.Core.BoardState
open SoFCheck.Core.Moves SoFCheck.Core.MoveMake SoFCheck.Core.CellView SoFCheck.Core.MakeCells
open SoFCheck.Core.MakeBoard SoFCheck.Core.Mailbox SoFCheck.Core.Validate SoFCheck.Core.Position

section Castling

theorem homeCell_ne_invert {c : Color} {i j : Fin 8} : homeCell c i ≠ homeCell (invert c) j := by
  revert c i j
  decide

theorem hasBit_castlingSrcs (s : Square) :
    (hasBit bbCastlingBlackKingsideSrcs s =
      decide (s = homeCell .black 4 ∨ s = homeCell .black 7)) ∧
    (hasBit bbCastlingBlackQueensideSrcs s =
      decide (s = homeCell .black 4 ∨ s = homeCell .black 0)) ∧
    (hasBit bbCastlingWhiteKingsideSrcs s =
      decide (s = homeCell .white 4 ∨ s = homeCell .white 7)) ∧
    (hasBit bbCastlingWhiteQueensideSrcs s =
      decide (s = homeCell .white 4 ∨ s = homeCell .white 0)) := by
  revert s
  decide

theorem and_ne_zero_iff {x y : Bitboard} {s t : Square}
    (hy : ∀ u, hasBit y u = decide (u = s ∨ u = t)) :
    x &&& y ≠ 0 ↔ (hasBit x s || hasBit x t) = true := by
  rw [ne_zero_iff, Bool.or_eq_true]
  simp only [hasBit_and, hy, Bool.and_eq_true, decide_eq_true_eq]
  constructor
  · rintro ⟨u, hu, rfl | rfl⟩
    · exact Or.inl hu
    · exact Or.inr hu
  · rintro (h | h)
    · exact ⟨s, h, Or.inl rfl⟩
    · exact ⟨t, h, Or.inr rfl⟩

theorem hasBit_castlingMask (x : Bitboard) (c : Color) :
    hasBit (castlingMask x) (kingsideBit c) =
      (!(hasBit x (homeCell c 4) || hasBit x (homeCell c 7))) ∧
    hasBit (castlingMask x) (queensideBit c) =
      (!(hasBit x (homeCell c 4) || hasBit x (homeCell c 0))) := by
  have h1 := and_ne_zero_iff (x := x) fun s => (hasBit_castlingSrcs s).1
  have h2 := and_ne_zero_iff (x := x) fun s => (hasBit_castlingSrcs s).2.1
  have h3 := and_ne_zero_iff (x := x) fun s => (hasBit_castlingSrcs s).2.2.1
  have h4 := and_ne_zero_iff (x := x) fun s => (hasBit_castlingSrcs s).2.2.2
  simp only [castlingMask, h1, h2, h3, h4]
  cases c <;>
    generalize (hasBit x (homeCell .black 4) || hasBit x (homeCell .black 7)) = p1 <;>
    generalize (hasBit x (homeCell .black 4) || hasBit x (homeCell .black 0)) = p2 <;>
    generalize (hasBit x (homeCell .white 4) || hasBit x (homeCell .white 7)) = p3 <;>
    generalize (hasBit x (homeCell .white 4) || hasBit x (homeCell .white 0)) = p4 <;>
    revert p1 p2 p3 p4 <;> decide

theorem updateCastling_flags [Globals] (b : Board) (x : Bitboard) (c : Color) :
    isKingsideCastling (updateCastling b x) c = (isKingsideCastling b c &&
      !(hasBit x (homeCell c 4) || hasBit x (homeCell c 7))) ∧
    isQueensideCastling (updateCastling b x) c = (isQueensideCastling b c &&
      !(hasBit x (homeCell c 4) || hasBit x (homeCell c 0))) := by
  obtain ⟨hk, hq⟩ := hasBit_castlingMask x c
  simp only [isKingsideCastling_eq, isQueensideCastling_eq]
  rw [← hk, ← hq, ← hasBit_and, ← hasBit_and, updateCastling]
  dsimp only
  split_ifs with h0 h1
  · have hx : ∀ i ∈ ([0, 4, 7] : List (Fin 8)), hasBit x (homeCell c i) = false := by
      intro i hi
      have hall : ∀ c, ∀ i ∈ ([0, 4, 7] : List (Fin 8)),
          hasBit bbCastlingAllSrcs (homeCell c i) = true := by decide
      cases h : hasBit x (homeCell c i) with
      | false => rfl
      | true => exact absurd (and_eq_zero_iff.mp h0 _ h) (by simp [hall c i hi])
    simp only [List.forall_mem_cons, List.not_mem_nil, false_implies, implies_true, and_true] at hx
    simp [hasBit_castlingMask, hx]
  · exact ⟨rfl, rfl⟩
  · rw [not_not.mp h1]
    exact ⟨rfl, rfl⟩

variable [Globals] {C : Color} {b : Board} {k : MoveKind} {s t : Square}

theorem dropCastling_flags (C : Color) (b : Board) (c : Color) :
    isKingsideCastling (dropCastling C b) c = (isKingsideCastling b c && decide (c ≠ C)) ∧
    isQueensideCastling (dropCastling C b) c = (isQueensideCastling b c && decide (c ≠ C)) := by
  simp only [isKingsideCastling_eq, isQueensideCastling_eq]
  change hasBit (b.castling &&& _) _ = _ ∧ hasBit (b.castling &&& _) _ = _
  rw [hasBit_and, hasBit_and]
  cases C <;> cases c <;>
    simp [castlingKingside_eq, castlingQueenside_eq, kingsideBit, queensideBit]

omit [Globals] in
theorem any_mem_pair {u v s t : Square} :
    ([u, v] : List Square).any (· ∈ [s, t]) = (decide (u = s ∨ u = t) || decide (v = s ∨ v = t)) := by
  simp

omit [Globals] in
theorem spared (hs : b.cells s = makeCell C .pawn) (ht : b.cells t = emptyCell) {c : Color}
    {p : Piece} (hp : p ≠ .pawn) {u : Square} (hu : b.cells u = makeCell c p) :
    ¬(u = s ∨ u = t) := by
  rintro (rfl | rfl)
  · rw [hs, makeCell_inj] at hu
    exact hp hu.2.symm
  · rw [ht] at hu
    exact emptyCell_ne_makeCell _ _ hu

omit [Globals] in
theorem spared_flags (hc : CastlingOk b) (hs : b.cells s = makeCell C .pawn)
    (ht : b.cells t = emptyCell) (c : Color) :
    isKingsideCastling b c = (isKingsideCastling b c &&
      !(([homeCell c 4, homeCell c 7] : List Square).any (· ∈ [s, t]))) ∧
    isQueensideCastling b c = (isQueensideCastling b c &&
      !(([homeCell c 4, homeCell c 0] : List Square).any (· ∈ [s, t]))) := by
  obtain ⟨h0, -, -, h4, -, -, h7⟩ := castlingSquare_homeCell c
  have hok := hc c
  rw [h0, h4, h7] at hok
  rw [any_mem_pair, any_mem_pair]
  constructor
  · cases h : isKingsideCastling b c with
    | false => rfl
    | true =>
      obtain ⟨hk, hr⟩ := hok.1 h
      simp [spared hs ht (by decide) hk, spared hs ht (by decide) hr]
  · cases h : isQueensideCastling b c with
    | false => rfl
    | true =>
      obtain ⟨hk, hr⟩ := hok.2 h
      simp [spared hs ht (by decide) hk, spared hs ht (by decide) hr]

omit [Globals] in
theorem hasBit_change (u : Square) :
    hasBit (coordToBitboard s ||| coordToBitboard t) u = decide (u = s ∨ u = t) := by
  simp [coordToBitboard, eq_comm]

/-- A flag survives a move that leaves its king and its rook alone. -/
theorem makeKind_flags (hc : CastlingOk b) (hm : Shape b.cells C k s t) (hk : k ≠ .null)
    (c : Color) :
    isKingsideCastling (makeKind C b (mkMove k s t) (b.cells s) (b.cells t)) c =
      (isKingsideCastling b c &&
        !(([homeCell c 4, homeCell c 7] : List Square).any (· ∈ [s, t]))) ∧
    isQueensideCastling (makeKind C b (mkMove k s t) (b.cells s) (b.cells t)) c =
      (isQueensideCastling b c &&
        !(([homeCell c 4, homeCell c 0] : List Square).any (· ∈ [s, t]))) := by
  obtain ⟨es, et⟩ := toSquare_mkMove k s t
  rw [makeKind, es, et]
  cases k with
  | null => exact absurd rfl hk
  | invalid => exact hm.elim
  | simple =>
    simp only [any_mem_pair, ← hasBit_change]
    exact updateCastling_flags _ _ c
  | promoteKnight | promoteBishop | promoteRook | promoteQueen =>
    simp only [any_mem_pair, ← hasBit_change]
    exact updateCastling_flags _ _ c
  | pawnDoubleMove => exact spared_flags hc hm.2.1 hm.2.2 c
  | enpassant => exact spared_flags hc hm.2.2.2.1 hm.2.2.2.2.1 c
  | castlingKingside =>
    obtain ⟨rfl, rfl, -⟩ := hm
    refine (dropCastling_flags C _ c).imp (·.trans ?_) (·.trans ?_) <;>
      rcases eq_or_eq_invert C c with rfl | rfl
    all_goals
      rw [any_mem_pair]
      simp [Ne.symm homeCell_ne_invert]
    all_goals rfl
  | castlingQueenside =>
    obtain ⟨rfl, rfl, -⟩ := hm
    refine (dropCastling_flags C _ c).imp (·.trans ?_) (·.trans ?_) <;>
      rcases eq_or_eq_invert C c with rfl | rfl
    all_goals
      rw [any_mem_pair]
      simp [Ne.symm homeCell_ne_invert]
    all_goals rfl

omit [Globals] in
theorem movedCells_of_ne (f : Square → Cell) (C : Color) {u : Square} (hu : ¬(u = s ∨ u = t))
    (hep : k = .enpassant → u ≠ toSquare (enpassantPawnPos C (toCoord t)))
    (hca : k = .castlingKingside ∨ k = .castlingQueenside → ∀ j, u ≠ homeCell C j) :
    movedCells f C k s t u = f u := by
  rw [not_or] at hu
  have hrel : ∀ (g : Square → Cell) x, relocateCells g s t x u = g u := fun g x => by
    rw [relocateCells, Function.update_of_ne hu.2, Function.update_of_ne hu.1]
  cases k with
  | null | invalid => rfl
  | simple | pawnDoubleMove | promoteKnight | promoteBishop | promoteRook | promoteQueen =>
    exact hrel _ _
  | enpassant => rw [movedCells, Function.update_of_ne (hep rfl), hrel]
  | castlingKingside =>
    rw [movedCells, relocateCells, Function.update_of_ne (hca (Or.inl rfl) 5),
      Function.update_of_ne (hca (Or.inl rfl) 7), hrel]
  | castlingQueenside =>
    rw [movedCells, relocateCells, Function.update_of_ne (hca (Or.inr rfl) 3),
      Function.update_of_ne (hca (Or.inr rfl) 0), hrel]

omit [Globals] in
theorem movedCells_home {f : Square → Cell} (hm : Shape f C k s t) {c : Color} {i : Fin 8}
    {p : Piece} (hp : p ≠ .pawn) (hf : f (homeCell c i) = makeCell c p)
    (h4 : ¬(homeCell c 4 = s ∨ homeCell c 4 = t)) (hi : ¬(homeCell c i = s ∨ homeCell c i = t)) :
    movedCells f C k s t (homeCell c i) = makeCell c p := by
  rw [← hf]
  refine movedCells_of_ne f C hi ?_ ?_
  · rintro rfl he
    have ht := hm.2.2.2.2.2
    rw [← he, hf, makeCell_inj] at ht
    exact hp ht.2
  · have hs : k = .castlingKingside ∨ k = .castlingQueenside → s = homeCell C 4 := by
      rintro (rfl | rfl)
      · exact hm.1
      · exact hm.1
    intro hk j
    rcases eq_or_eq_invert C c with rfl | rfl
    · exact absurd (Or.inl (hs hk).symm) h4
    · exact homeCell_ne_invert.symm

omit [Globals] in
theorem castlingOk_of_flags {b' : Board} (hc : CastlingOk b) (hm : Shape b.cells C k s t)
    (hf : b'.cells = movedCells b.cells C k s t)
    (hflag : ∀ c, isKingsideCastling b' c = (isKingsideCastling b c &&
        !(([homeCell c 4, homeCell c 7] : List Square).any (· ∈ [s, t]))) ∧
      isQueensideCastling b' c = (isQueensideCastling b c &&
        !(([homeCell c 4, homeCell c 0] : List Square).any (· ∈ [s, t])))) : CastlingOk b' := by
  intro c
  obtain ⟨h0, -, -, h4, -, -, h7⟩ := castlingSquare_homeCell c
  have hok := hc c
  rw [h0, h4, h7] at hok ⊢
  rw [hf, (hflag c).1, (hflag c).2, any_mem_pair, any_mem_pair]
  simp only [Bool.and_eq_true, Bool.not_eq_true', Bool.or_eq_false_iff, decide_eq_false_iff_not]
  constructor
  · rintro ⟨hfl, hk, hr⟩
    exact ⟨movedCells_home hm (by decide) (hok.1 hfl).1 hk hk,
      movedCells_home hm (by decide) (hok.1 hfl).2 hk hr⟩
  · rintro ⟨hfl, hk, hr⟩
    exact ⟨movedCells_home hm (by decide) (hok.2 hfl).1 hk hk,
      movedCells_home hm (by decide) (hok.2 hfl).2 hk hr⟩

end Castling

section Sane

/-- What `validate` asks of the cells alone. -/
structure Sane (f : Square → Cell) : Prop where
  cells : ∀ s, isCellValid (f s) = true
  count : ∀ c, (Finset.univ.filter fun s => ∃ p, f s = makeCell c p).card ≤ 16
  king : ∀ c, ∃ k, ∀ s, f s = makeCell c .king ↔ s = k
  pawns : ∀ c s, f s = makeCell c .pawn → row s ≠ 0 ∧ row s ≠ 7

variable {f : Square → Cell} {C : Color} {p q : Piece} {s t : Square}

theorem relocateCells_apply (f : Square → Cell) (s t : Square) (x : Cell) (u : Square) :
    relocateCells f s t x u = if u = t then x else if u = s then emptyCell else f u := by
  rw [relocateCells, Function.update_apply, Function.update_apply]

/-- Taking a pawn off the board. -/
theorem Sane.erase (h : Sane f) {c : Color} (hs : f s = makeCell c .pawn) :
    Sane (Function.update f s emptyCell) := by
  have hsub : ∀ {u : Square} {d : Color} {r : Piece},
      Function.update f s emptyCell u = makeCell d r → f u = makeCell d r := by
    intro u d r hu
    rw [Function.update_apply] at hu
    split at hu
    · exact absurd hu (emptyCell_ne_makeCell d r)
    · exact hu
  constructor
  · intro u
    rw [Function.update_apply]
    split
    · rfl
    · exact h.cells u
  · intro d
    refine (Finset.card_le_card fun u hu => ?_).trans (h.count d)
    simp only [Finset.mem_filter, Finset.mem_univ, true_and] at hu ⊢
    exact hu.imp fun _ => hsub
  · intro d
    obtain ⟨k, hk⟩ := h.king d
    refine ⟨k, fun u => ⟨fun hu => (hk u).mp (hsub hu), fun hu => ?_⟩⟩
    have hne : u ≠ s := by
      rintro rfl
      have := (hk u).mpr hu
      simp [hs] at this
    rw [Function.update_of_ne hne]
    exact (hk u).mpr hu
  · intro d u hu
    exact h.pawns d u (hsub hu)

/-- Moving a piece of colour `C`, perhaps promoting it, perhaps capturing. -/
theorem Sane.relocate (h : Sane f) (hst : s ≠ t) (hs : f s = makeCell C p)
    (ht : Takeable C (f t)) (hk : f t ≠ makeCell (invert C) .king)
    (hq : q = .king ↔ p = .king) (hrow : q = .pawn → row t ≠ 0 ∧ row t ≠ 7) :
    Sane (relocateCells f s t (makeCell C q)) := by
  have hsub : ∀ {u : Square} {d : Color} {r : Piece}, u ≠ t →
      relocateCells f s t (makeCell C q) u = makeCell d r → u ≠ s ∧ f u = makeCell d r := by
    intro u d r hu he
    rw [relocateCells_apply, if_neg hu] at he
    split at he
    · exact absurd he (emptyCell_ne_makeCell d r)
    · exact ⟨‹_›, he⟩
  have hat : relocateCells f s t (makeCell C q) t = makeCell C q := by simp [relocateCells]
  constructor
  · intro u
    rw [relocateCells_apply]
    split_ifs
    · exact isCellValid_makeCell C q
    · rfl
    · exact h.cells u
  · intro d
    refine le_trans ?_ (h.count d)
    rcases eq_or_eq_invert C d with rfl | rfl
    · have hmem : s ∈ Finset.univ.filter fun u => ∃ r, f u = makeCell d r := by simp [hs]
      rw [← Finset.card_erase_add_one hmem]
      refine (Finset.card_le_card fun u hu => ?_).trans (Finset.card_insert_le t _)
      simp only [Finset.mem_filter, Finset.mem_univ, true_and, Finset.mem_insert,
        Finset.mem_erase] at hu ⊢
      by_cases hut : u = t
      · exact Or.inl hut
      · obtain ⟨r, hr⟩ := hu
        exact Or.inr ⟨(hsub hut hr).1, r, (hsub hut hr).2⟩
    · refine Finset.card_le_card fun u hu => ?_
      simp only [Finset.mem_filter, Finset.mem_univ, true_and] at hu ⊢
      obtain ⟨r, hr⟩ := hu
      by_cases hut : u = t
      · subst hut
        simp [hat] at hr
      · exact ⟨r, (hsub hut hr).2⟩
  · intro d
    obtain ⟨k, hk'⟩ := h.king d
    by_cases hd : d = C ∧ p = .king
    · obtain ⟨rfl, rfl⟩ := hd
      have hsk : s = k := (hk' s).mp hs
      refine ⟨t, fun u => ⟨fun hu => ?_, ?_⟩⟩
      · by_contra hut
        exact (hsub hut hu).1 (((hk' u).mp (hsub hut hu).2).trans hsk.symm)
      · rintro rfl
        rw [hat, hq.mpr rfl]
    · have hks : k ≠ s := by
        rintro rfl
        have hkk := (hk' k).mpr rfl
        rw [hs, makeCell_inj] at hkk
        exact hd ⟨hkk.1.symm, hkk.2⟩
      have hkt : k ≠ t := by
        rintro rfl
        have hkk := (hk' k).mpr rfl
        rcases eq_or_eq_invert C d with rfl | rfl
        · rcases ht with he | ⟨r, he⟩ <;> simp [he] at hkk
        · exact hk hkk
      refine ⟨k, fun u => ⟨fun hu => ?_, ?_⟩⟩
      · by_cases hut : u = t
        · subst hut
          rw [hat, makeCell_inj] at hu
          exact absurd ⟨hu.1.symm, hq.mp hu.2⟩ hd
        · exact (hk' u).mp (hsub hut hu).2
      · rintro rfl
        rw [relocateCells_apply, if_neg hkt, if_neg hks]
        exact (hk' u).mpr rfl
  · intro d u hu
    by_cases hut : u = t
    · subst hut
      rw [hat, makeCell_inj] at hu
      exact hrow hu.2
    · exact h.pawns d u (hsub hut hu).2

end Sane

end SoFCheck.Core.MakeValid
