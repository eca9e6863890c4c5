import SoFCheck.Core.PseudoLegal

namespace SoFCheck.Core.Legality

open SoFCheck.Util.Bits SoFCheck.Util.Scan
open SoFCheck.Core.Types SoFCheck.Core.Grid SoFCheck.Core.Geometry SoFCheck.Core.BoardState
open SoFCheck.Core.Moves SoFCheck.Core.Attack SoFCheck.Core.Mailbox SoFCheck.Core.Validate
open SoFCheck.Core.Position SoFCheck.Core.MoveMake SoFCheck.Core.MakeBoard
open SoFCheck.Core.MakeCells SoFCheck.Core.MakeRegular SoFCheck.Core.MakeRefine
open SoFCheck.Core.PseudoLegal
open SoFCheck.Core.Movegen

section Reach

variable {occ occ' : Square → Bool} {c : Color} {pc : Piece} {s t : Square}

theorem reaches_congr (h : ∀ v, v ≠ s → v ≠ t → occ v = occ' v) :
    Reaches occ c pc s t ↔ Reaches occ' c pc s t := by
  have hscan : ∀ {d}, d ∈ dirs → (t ∈ scan occ (ray d s) ↔ t ∈ scan occ' (ray d s)) := by
    intro d hd
    rw [mem_scan, mem_scan]
    refine and_congr_right fun _ => forall₂_congr fun v hv => ?_
    have hvs : v ≠ s := by
      rintro rfl
      exact self_notMem_ray hd _ (mem_of_mem_before hv)
    rw [h v hvs (ne_of_mem_before hv)]
  have hslide : (∃ d ∈ lines pc, t ∈ scan occ (ray d s)) ↔
      ∃ d ∈ lines pc, t ∈ scan occ' (ray d s) :=
    exists_congr fun d => and_congr_right fun hd => hscan (lines_subset hd)
  cases pc with
  | pawn | king | knight => rfl
  | bishop | rook | queen => exact hslide

end Reach

variable [Globals] {b : Board} {k : MoveKind} {s t K : Square}

theorem inCheck_iff (hb : Regular b) {c : Color}
    (hK : (position b).pieceAt K = some (c, .king)) :
    (position b).InCheck c ↔ (position b).Attacked (invert c) K := by
  obtain ⟨K', hK'⟩ := hb.king c
  have he : K = K' := (hK' K).mp (pieceAt_eq_some.mp hK)
  subst he
  constructor
  · rintro ⟨u, hu, ha⟩
    rwa [(hK' u).mp (pieceAt_eq_some.mp hu)] at ha
  · exact fun ha => ⟨K, hK, ha⟩

theorem isAttackedMasked_iff_attacked (hb : Regular b) {p : Position} {c : Color}
    {bbAll mask : Bitboard}
    (hpieces : ∀ u, u ≠ K → ∀ pc, p.pieceAt u = some (c, pc) ↔
      (position b).pieceAt u = some (c, pc) ∧ hasBit mask u = true)
    (hocc : ∀ v, v ≠ K → hasBit bbAll v = p.occupied v) :
    isAttackedMasked c b K bbAll mask = true ↔ p.Attacked c K := by
  rw [isAttackedMasked_iff]
  simp only [hasBit_bbPieces hb.synced, ← pieceAt_eq_some]
  refine exists_congr fun u => exists_congr fun pc => ?_
  by_cases huK : u = K
  · subst huK
    constructor
    · exact fun h => absurd rfl h.2.ne
    · exact fun h => absurd rfl h.2.ne
  · rw [← hpieces u huK]
    exact and_congr_right fun _ => reaches_congr fun v _ hvK => hocc v hvK

omit [Globals] in
theorem relocate_eq_some {f : Square → Option (Color × Piece)} {x y : Color × Piece} {u : Square} :
    Position.relocate f s t (some x) u = some y ↔ u = t ∧ x = y ∨ u ≠ t ∧ u ≠ s ∧ f u = some y := by
  rw [Position.relocate, Function.update_apply, Function.update_apply]
  split_ifs with h1 h2
  · simp [h1]
  · subst h2
    simp [h1]
  · simp [h1, h2]

omit [Globals] in
theorem relocate_isSome {f : Square → Option (Color × Piece)} {x : Color × Piece} {u : Square} :
    (Position.relocate f s t (some x) u).isSome =
      (decide (u = t) || (decide (u ≠ s) && (f u).isSome)) := by
  rw [Position.relocate, Function.update_apply, Function.update_apply]
  split_ifs with h1 h2
  · simp [h1]
  · subst h2
    simp [h1]
  · simp [h1, h2]

section Patch

theorem attacked_king (hb : Regular b) (hs : (position b).pieceAt s = some (b.side, .king))
    {p : Position} (hp : p.pieceAt = Position.relocate (position b).pieceAt s t (some (b.side, .king))) :
    isAttackedMasked (invert b.side) b t (b.bbAll ^^^ coordToBitboard s) bbFull = true ↔
      p.Attacked (invert b.side) t := by
  have hocc : (position b).occupied s = true := by rw [Position.occupied, hs]; rfl
  refine isAttackedMasked_iff_attacked hb (fun u hut pc => ?_) fun v hvt => ?_
  · rw [hp, relocate_eq_some, hasBit_bbFull]
    simp only [hut, false_and, false_or, ne_eq, not_false_eq_true, true_and, and_true,
      and_iff_right_iff_imp]
    rintro h rfl
    rw [hs] at h
    simp at h
  · rw [Position.occupied, hp, relocate_isSome, hasBit_xor, hasBit_bbAll hb.cells hb.synced,
      coordToBitboard, hasBit_single]
    by_cases hvs : v = s
    · subst hvs
      simp [hocc, hvt]
    · simp [hvs, hvt, Ne.symm hvs, Position.occupied]

theorem attacked_other (hb : Regular b) {x y : Piece}
    (hs : (position b).pieceAt s = some (b.side, x)) {p : Position}
    (hp : p.pieceAt = Position.relocate (position b).pieceAt s t (some (b.side, y))) :
    isAttackedMasked (invert b.side) b K ((b.bbAll ^^^ coordToBitboard s) ||| coordToBitboard t)
      (~~~(coordToBitboard t)) = true ↔ p.Attacked (invert b.side) K := by
  have hocc : (position b).occupied s = true := by rw [Position.occupied, hs]; rfl
  refine isAttackedMasked_iff_attacked hb (fun u _ pc => ?_) fun v _ => ?_
  · rw [hp, relocate_eq_some, hasBit_not, coordToBitboard, hasBit_single]
    by_cases hut : u = t
    · simp [hut]
    · simp only [hut, false_and, false_or, ne_eq, not_false_eq_true, true_and, Ne.symm hut,
        decide_false, Bool.not_false, and_true, and_iff_right_iff_imp]
      rintro h rfl
      rw [hs] at h
      simp at h
  · rw [Position.occupied, hp, relocate_isSome, hasBit_or, hasBit_xor,
      hasBit_bbAll hb.cells hb.synced, coordToBitboard, coordToBitboard, hasBit_single,
      hasBit_single]
    by_cases hvs : v = s
    · subst hvs
      simp [hocc, eq_comm]
    · simp [hvs, Ne.symm hvs, Position.occupied, Bool.or_comm, eq_comm]

omit [Globals] in
theorem advancePawnForward_single {c : Color} {e t : Square}
    (ho : offset (forward c, 0) e = some t) :
    advancePawnForward (invert c) (coordToBitboard t) = coordToBitboard e := by
  refine hasBit_ext fun v => ?_
  rw [Bool.eq_iff_iff, hasBit_advancePawnForward, coordToBitboard, coordToBitboard]
  simp only [hasBit_single, decide_eq_true_eq, exists_eq_left', offset_back ho, Option.some_inj]

/-- An en passant capture, after which two cells of a line are empty. -/
theorem attacked_enpassant (hb : Regular b) {e : Square}
    (hs : (position b).pieceAt s = some (b.side, .pawn))
    (he : (position b).pieceAt e = some (invert b.side, .pawn))
    (ht : (position b).pieceAt t = none) {p : Position}
    (hp : p.pieceAt = Function.update
      (Position.relocate (position b).pieceAt s t (some (b.side, .pawn))) e none) :
    isAttackedMasked (invert b.side) b K
      (((b.bbAll ^^^ coordToBitboard s) ||| coordToBitboard t) ^^^ coordToBitboard e)
      (~~~(coordToBitboard t) ^^^ coordToBitboard e) = true ↔ p.Attacked (invert b.side) K := by
  have hocc : (position b).occupied s = true := by rw [Position.occupied, hs]; rfl
  have hocce : (position b).occupied e = true := by rw [Position.occupied, he]; rfl
  have hte : t ≠ e := by
    rintro rfl
    rw [ht] at he
    cases he
  have hse : s ≠ e := by
    rintro rfl
    rw [hs] at he
    simp at he
  refine isAttackedMasked_iff_attacked hb (fun u _ pc => ?_) fun v _ => ?_
  · rw [hp, Function.update_apply, hasBit_xor, hasBit_not, coordToBitboard, coordToBitboard,
      hasBit_single, hasBit_single]
    by_cases hue : u = e
    · subst hue
      simp [hte]
    rw [if_neg hue, relocate_eq_some]
    by_cases hut : u = t
    · subst hut
      simp [ht]
    · simp only [hut, false_and, false_or, ne_eq, not_false_eq_true, true_and, Ne.symm hut,
        Ne.symm hue, decide_false, Bool.not_false, Bool.xor_false, and_true, and_iff_right_iff_imp]
      rintro h rfl
      rw [hs] at h
      simp at h
  · rw [Position.occupied, hp, Function.update_apply, hasBit_xor, hasBit_or, hasBit_xor,
      hasBit_bbAll hb.cells hb.synced, coordToBitboard, coordToBitboard, coordToBitboard,
      hasBit_single, hasBit_single, hasBit_single]
    by_cases hve : v = e
    · subst hve
      simp [hocce, hse, hte]
    rw [if_neg hve, relocate_isSome]
    by_cases hvs : v = s
    · subst hvs
      simp [hocc, eq_comm, Ne.symm hve]
    · simp [hvs, Ne.symm hvs, Ne.symm hve, Position.occupied, Bool.or_comm, eq_comm]

end Patch

section Castling

omit [Globals] in
theorem ray_homeCell (C : Color) :
    ray (0, -1) (homeCell C 6) = homeCell C 5 :: homeCell C 4 :: ray (0, -1) (homeCell C 4) ∧
    ray (0, 1) (homeCell C 6) = [homeCell C 7] ∧
    ray (0, 1) (homeCell C 2) = homeCell C 3 :: homeCell C 4 :: ray (0, 1) (homeCell C 4) ∧
    ray (0, -1) (homeCell C 2) = [homeCell C 1, homeCell C 0] := by
  revert C
  decide

omit [Globals] in
theorem ray_not_home {C : Color} {i j : Fin 8} {d : Dir} (hd : d ∈ dirs) (hr : d ≠ (0, 1))
    (hl : d ≠ (0, -1)) : homeCell C j ∉ ray d (homeCell C i) := by
  intro h
  obtain ⟨n, h1, hsteps, -⟩ := (mem_ray hd).mp h
  have hrow : ∀ i, row (homeCell C i) = row (homeCell C 0) := by cases C <;> decide
  rw [hrow j, hrow i] at hsteps
  have hd1 : ∀ d ∈ dirs, d ≠ (0, 1) → d ≠ (0, -1) → d.1 ≠ 0 := by decide
  have hn : (n : Int) * d.1 = 0 := by omega
  obtain hn | hn := mul_eq_zero.mp hn
  · omega
  · exact hd1 d hd hr hl hn

omit [Globals] in
theorem reaches_of_line {occ occ' : Square → Bool} {c : Color} {pc : Piece} {d : Dir} {u : Square}
    (hside : ∀ e ∈ dirs, e ≠ d → e ≠ -d → ∀ v ∈ ray e K, occ v = occ' v)
    (h : -d ∈ lines pc → u ∉ scan occ (ray d K)) (h' : -d ∈ lines pc → u ∉ scan occ' (ray d K))
    (hu : u ∉ ray (-d) K) : Reaches occ c pc u K ↔ Reaches occ' c pc u K := by
  have hscan : ∀ {e}, e ∈ lines pc → (K ∈ scan occ (ray e u) ↔ K ∈ scan occ' (ray e u)) := by
    intro e he
    have hd := lines_subset he
    rw [mem_scan_ray_comm hd, mem_scan_ray_comm hd]
    by_cases h1 : -e = d
    · have he' : -d = e := neg_eq_iff_eq_neg.mpr h1.symm
      rw [h1]
      exact iff_of_false (h (he' ▸ he)) (h' (he' ▸ he))
    by_cases h2 : -e = -d
    · rw [h2]
      exact iff_of_false (fun hm => hu ((mem_scan occ).mp hm).1)
        (fun hm => hu ((mem_scan occ').mp hm).1)
    · rw [mem_scan, mem_scan]
      refine and_congr_right fun _ => forall₂_congr fun v hv => ?_
      rw [hside (-e) (neg_mem_dirs e hd) h1 h2 v (mem_of_mem_before hv)]
  have hslide : (∃ e ∈ lines pc, K ∈ scan occ (ray e u)) ↔
      ∃ e ∈ lines pc, K ∈ scan occ' (ray e u) :=
    exists_congr fun e => and_congr_right hscan
  cases pc with
  | pawn | king | knight => rfl
  | bishop | rook | queen => exact hslide

/-- The king goes from `s` to `K` and the rook to the cell `r` between them. No
enemy looks through, as it would have attacked the king before. -/
structure Passage (p : Position) (d : Dir) (s r K : Square) : Prop where
  dir : d ∈ dirs
  line : ray d K = r :: s :: ray d s
  own : p.Own s
  passed : p.pieceAt r = none
  behind : ∀ v ∈ ray (-d) K, ¬p.Enemy v
  safe : ¬p.Attacked (invert p.side) s

omit [Globals] in
/-- Before the move, with the king lifted and after the move the same enemies
attack the target of the king. -/
theorem Passage.reaches {p : Position} {d : Dir} {r : Square} (h : Passage p d s r K) {u : Square}
    {pc : Piece} (hu : p.pieceAt u = some (invert p.side, pc)) {occ : Square → Bool}
    (hside : ∀ e ∈ dirs, e ≠ d → e ≠ -d → ∀ v ∈ ray e K, occ v = p.occupied v)
    (hocc : occ r = true ∨ ∀ v, v ≠ s → occ v = p.occupied v) :
    Reaches occ (invert p.side) pc u K ↔ Reaches p.occupied (invert p.side) pc u K := by
  have hus : u ≠ s := by
    rintro rfl
    obtain ⟨q, hq⟩ := h.own
    rw [hq] at hu
    simp at hu
  have hur : u ≠ r := by
    rintro rfl
    rw [h.passed] at hu
    cases hu
  have hfar : -d ∈ lines pc → u ∉ scan p.occupied (ray d s) := by
    intro hd hm
    refine h.safe ⟨u, pc, hu, ?_⟩
    rw [mem_scan_ray_comm h.dir] at hm
    cases pc with
    | pawn | king | knight => cases hd
    | bishop | rook | queen => exact ⟨-d, hd, hm⟩
  have hwall : ∀ {f : Square → Bool} {l : List Square}, f r = true ∨ u ∉ scan f l →
      u ∉ scan f (r :: s :: l) := by
    intro f l hf hm
    rw [scan, List.mem_cons, scan] at hm
    have hm := hm.resolve_left hur
    rcases hf with hf | hf
    · simp [hf] at hm
    · split at hm
      · cases hm
      rw [List.mem_cons] at hm
      have hm := hm.resolve_left hus
      split at hm
      · cases hm
      · exact hf hm
  refine reaches_of_line hside (fun hd => ?_) (fun hd => ?_) fun hm => h.behind u hm ⟨pc, hu⟩
  · rw [h.line]
    refine hwall (hocc.imp_right fun hocc hm => hfar hd ?_)
    rw [mem_scan] at hm ⊢
    refine ⟨hm.1, fun v hv => ?_⟩
    have hvs : v ≠ s := by
      rintro rfl
      exact self_notMem_ray h.dir _ (mem_of_mem_before hv)
    rw [← hocc v hvs]
    exact hm.2 v hv
  · rw [h.line]
    exact hwall (Or.inr (hfar hd))

omit [Globals] in
theorem passage_kingside {p : Position} (h : p.Pseudo .castlingKingside s t) :
    Passage p (0, -1) s (homeCell p.side 5) t := by
  cases h with
  | push hs ho ht hk => exact absurd (pawnKind_cases hk) (by decide)
  | capture hs hr ht hk => exact absurd (pawnKind_cases hk) (by decide)
  | castlingKingside hf hk hr h5 h6 ha ha' =>
    obtain ⟨h1, h2, -⟩ := ray_homeCell p.side
    refine ⟨by decide, h1, ⟨_, hk⟩, h5, fun v hv => ?_, ha⟩
    have hv : v ∈ ray (0, 1) (homeCell p.side 6) := hv
    rw [h2, List.mem_singleton] at hv
    rintro ⟨pc, hpc⟩
    rw [hv, hr] at hpc
    simp at hpc

omit [Globals] in
theorem passage_queenside {p : Position} (h : p.Pseudo .castlingQueenside s t) :
    Passage p (0, 1) s (homeCell p.side 3) t := by
  cases h with
  | push hs ho ht hk => exact absurd (pawnKind_cases hk) (by decide)
  | capture hs hr ht hk => exact absurd (pawnKind_cases hk) (by decide)
  | castlingQueenside hf hk hr h1 h2 h3 ha ha' =>
    obtain ⟨-, -, hray, hray'⟩ := ray_homeCell p.side
    refine ⟨by decide, hray, ⟨_, hk⟩, h3, fun v hv => ?_, ha⟩
    have hv : v ∈ ray (0, -1) (homeCell p.side 2) := hv
    rw [hray', List.mem_cons, List.mem_singleton] at hv
    rintro ⟨pc, hpc⟩
    rcases hv with hv | hv
    · rw [hv, h1] at hpc
      cases hpc
    · rw [hv, hr] at hpc
      simp at hpc

omit [Globals] in
/-- The king and the rook after castling, seen by the enemy. -/
theorem Passage.attacked {p p' : Position} {d : Dir} {r h : Square} (hP : Passage p d s r K)
    (hK : p.pieceAt K = none) (hh : p.pieceAt h = some (p.side, .rook))
    (hp : p'.pieceAt = Position.relocate
      (Position.relocate p.pieceAt s K (some (p.side, .king))) h r (some (p.side, .rook)))
    (hside : ∀ e ∈ dirs, e ≠ d → e ≠ -d → ∀ v ∈ ray e K, v ≠ s ∧ v ≠ r ∧ v ≠ h) :
    p'.Attacked (invert p.side) K ↔ p.Attacked (invert p.side) K := by
  have hrK : r ≠ K := by
    rintro rfl
    have hmem : r ∈ ray d r := hP.line ▸ List.mem_cons_self
    exact self_notMem_ray hP.dir _ hmem
  have hpiece : ∀ u pc, p'.pieceAt u = some (invert p.side, pc) ↔
      p.pieceAt u = some (invert p.side, pc) := by
    intro u pc
    rw [hp, relocate_eq_some, relocate_eq_some]
    constructor
    · rintro (⟨-, h⟩ | ⟨-, -, ⟨-, h⟩ | ⟨-, -, h⟩⟩)
      · simp at h
      · simp at h
      · exact h
    · intro hu
      have hne : ∀ {w : Square}, (p.pieceAt w = none ∨ ∃ q, p.pieceAt w = some (p.side, q)) →
          u ≠ w := by
        rintro w (hw | ⟨q, hq⟩) rfl
        · rw [hw] at hu
          cases hu
        · rw [hq] at hu
          simp at hu
      exact Or.inr ⟨hne (Or.inl hP.passed), hne (Or.inr ⟨_, hh⟩),
        Or.inr ⟨hne (Or.inl hK), hne (Or.inr hP.own), hu⟩⟩
  refine exists_congr fun u => exists_congr fun pc => ?_
  rw [hpiece]
  refine and_congr_right fun hu => hP.reaches hu (fun e he h1 h2 v hv => ?_) (Or.inl ?_)
  · obtain ⟨hvs, hvr, hvh⟩ := hside e he h1 h2 v hv
    have hvK : v ≠ K := by
      rintro rfl
      exact self_notMem_ray he _ hv
    rw [Position.occupied, hp, relocate_isSome, relocate_isSome]
    simp [hvs, hvr, hvh, hvK, Position.occupied]
  · rw [Position.occupied, hp, relocate_isSome]
    simp

omit [Globals] in
theorem castling_attacked {p : Position} (h : p.Pseudo k s t)
    (hk : k = .castlingKingside ∨ k = .castlingQueenside) :
    (p.play k s t).Attacked (invert p.side) t ↔ p.Attacked (invert p.side) t := by
  have hside : ∀ i : Fin 8, ∀ e ∈ dirs, e ≠ (0, 1) → e ≠ (0, -1) → ∀ v ∈ ray e (homeCell p.side i),
      ∀ j, v ≠ homeCell p.side j := by
    rintro i e he h1 h2 v hv j rfl
    exact ray_not_home he h1 h2 hv
  rcases hk with rfl | rfl
  · have hP := passage_kingside h
    cases h with
    | push hs ho ht hk => exact absurd (pawnKind_cases hk) (by decide)
    | capture hs hr ht hk => exact absurd (pawnKind_cases hk) (by decide)
    | castlingKingside hf hk hr h5 h6 ha ha' =>
      refine hP.attacked h6 hr (by rw [← hk]; rfl) fun e he h1 h2 v hv => ?_
      have hne := hside 6 e he h2 h1 v hv
      exact ⟨hne 4, hne 5, hne 7⟩
  · have hP := passage_queenside h
    cases h with
    | push hs ho ht hk => exact absurd (pawnKind_cases hk) (by decide)
    | capture hs hr ht hk => exact absurd (pawnKind_cases hk) (by decide)
    | castlingQueenside hf hk hr h1 h2 h3 ha ha' =>
      refine hP.attacked h2 hr (by rw [← hk]; rfl) fun e he h1 h2 v hv => ?_
      have hne := hside 2 e he h1 h2 v hv
      exact ⟨hne 4, hne 3, hne 0⟩

theorem attacked_castling (hb : Regular b) {d : Dir} {r : Square}
    (hP : Passage (position b) d s r K) (hocc : ∀ e ∈ dirs, e ≠ d → e ≠ -d → s ∉ ray e K) :
    isAttackedMasked (invert b.side) b K (b.bbAll ^^^ coordToBitboard s) bbFull = true ↔
      (position b).Attacked (invert b.side) K := by
  rw [isAttackedMasked_iff]
  simp only [hasBit_bbPieces hb.synced, hasBit_bbFull, and_true, ← pieceAt_eq_some]
  have hxor : ∀ v, v ≠ s → hasBit (b.bbAll ^^^ coordToBitboard s) v = (position b).occupied v := by
    intro v hv
    rw [hasBit_xor, hasBit_bbAll hb.cells hb.synced, coordToBitboard, hasBit_single]
    simp [Ne.symm hv]
  refine exists_congr fun u => exists_congr fun pc => and_congr_right fun hu => ?_
  refine hP.reaches hu (fun e he h1 h2 v hv => hxor v ?_) (Or.inr hxor)
  rintro rfl
  exact hocc e he h1 h2 hv

end Castling

section Test

theorem isMoveLegal_king (hk : k ≠ .null) (hs : (position b).pieceAt s = some (b.side, .king)) :
    isMoveLegal b (mkMove k s t) =
      !isAttackedMasked (invert b.side) b t (b.bbAll ^^^ coordToBitboard s) bbFull := by
  simp only [isMoveLegal, isMoveLegalImpl, mkMove, hk, if_false, toSquare_toCoord,
    pieceAt_eq_some.mp hs, if_true]

theorem isMoveLegal_other (hk : k ≠ .null) {x : Piece} (hx : x ≠ .king)
    (hs : (position b).pieceAt s = some (b.side, x)) (hkind : k ≠ .enpassant) :
    isMoveLegal b (mkMove k s t) = !isAttackedMasked (invert b.side) b (kingPos b b.side)
      ((b.bbAll ^^^ coordToBitboard s) ||| coordToBitboard t) (~~~(coordToBitboard t)) := by
  simp only [isMoveLegal, isMoveLegalImpl, mkMove, hk, if_false, toSquare_toCoord,
    pieceAt_eq_some.mp hs, makeCell_inj, hx, and_false, hkind]

theorem isMoveLegal_enpassant {e : Square} (hs : (position b).pieceAt s = some (b.side, .pawn))
    (ho : offset (forward b.side, 0) e = some t) :
    isMoveLegal b (mkMove .enpassant s t) = !isAttackedMasked (invert b.side) b (kingPos b b.side)
      (((b.bbAll ^^^ coordToBitboard s) ||| coordToBitboard t) ^^^ coordToBitboard e)
      (~~~(coordToBitboard t) ^^^ coordToBitboard e) := by
  simp only [isMoveLegal, isMoveLegalImpl, mkMove, reduceCtorEq, if_false, toSquare_toCoord,
    pieceAt_eq_some.mp hs, makeCell_inj, and_false, if_true, advancePawnForward_single ho]

theorem isMoveLegal_of_attacked (hb : Regular b) (hl : wasMoveLegal b = true)
    (h : (position b).Pseudo k s t) {bbAll mask : Bitboard}
    (hK : ((position b).play k s t).pieceAt K = some (b.side, .king))
    (ha : isAttackedMasked (invert b.side) b K bbAll mask = true ↔
      ((position b).play k s t).Attacked (invert b.side) K) :
    (!isAttackedMasked (invert b.side) b K bbAll mask) = true ↔
      ¬((position b).play k s t).InCheck b.side := by
  rw [← position_moveMake hb h] at hK ha ⊢
  rw [inCheck_iff (regular_moveMake hb hl h) hK, Bool.not_eq_true', ← Bool.not_eq_true, ha]

omit [Globals] in
theorem king_stays {x y : Piece} (hK : (position b).pieceAt K = some (b.side, .king))
    (hx : x ≠ .king) (hs : (position b).pieceAt s = some (b.side, x)) (ht : ¬(position b).Own t) :
    Position.relocate (position b).pieceAt s t (some (b.side, y)) K = some (b.side, .king) := by
  refine relocate_eq_some.mpr (Or.inr ⟨?_, ?_, hK⟩)
  · rintro rfl
    exact ht ⟨_, hK⟩
  · rintro rfl
    rw [hs, Option.some_inj, Prod.mk.injEq] at hK
    exact hx hK.2

omit [Globals] in
theorem placement_of_pawnKind {p : Position} (hk : p.PawnKind k t)
    (hs : p.pieceAt s = some (p.side, .pawn)) :
    ∃ y, p.placement k s t = Position.relocate p.pieceAt s t (some (p.side, y)) := by
  cases k with
  | simple => exact ⟨.pawn, by rw [← hs]; rfl⟩
  | promoteKnight | promoteBishop | promoteRook | promoteQueen => exact ⟨_, rfl⟩
  | _ => exact absurd (pawnKind_cases hk) (by decide)

/-- The test before the move is the mailbox condition on the king. -/
theorem isMoveLegal_iff (hb : Regular b) (hl : wasMoveLegal b = true)
    (h : (position b).Pseudo k s t) : isMoveLegal b (mkMove k s t) = true ↔
      ¬((position b).play k s t).InCheck b.side := by
  have hknull := ne_null_of_pseudo h
  obtain ⟨K, hking⟩ := hb.king b.side
  have hpos := kingPos_eq hb.synced hking
  have hK : (position b).pieceAt K = some (b.side, .king) := pieceAt_eq_some.mpr ((hking K).mpr rfl)
  have hother : ∀ {x y : Piece}, x ≠ .king → k ≠ .enpassant →
      (position b).pieceAt s = some (b.side, x) → ¬(position b).Own t →
      (position b).placement k s t =
        Position.relocate (position b).pieceAt s t (some (b.side, y)) →
      (isMoveLegal b (mkMove k s t) = true ↔ ¬((position b).play k s t).InCheck b.side) := by
    intro x y hx hkind hs ht hp
    rw [isMoveLegal_other hknull hx hs hkind, hpos]
    refine isMoveLegal_of_attacked hb hl h ?_ (attacked_other hb hs hp)
    rw [Position.play_pieceAt, hp]
    exact king_stays hK hx hs ht
  have hnone : ∀ {u}, (position b).pieceAt u = none → ¬(position b).Own u := by
    rintro u hu ⟨q, hq⟩
    rw [hu] at hq
    cases hq
  have hpawn : (position b).PawnKind k t → (position b).pieceAt s = some (b.side, .pawn) →
      ¬(position b).Own t →
      (isMoveLegal b (mkMove k s t) = true ↔ ¬((position b).play k s t).InCheck b.side) := by
    intro hk hs ht
    obtain ⟨y, hy⟩ := placement_of_pawnKind hk hs
    refine hother (by decide) ?_ hs ht hy
    rintro rfl
    exact absurd (pawnKind_cases hk) (by decide)
  cases h with
  | @piece pc s t hs hpc hr ht =>
    rw [position_side] at hs
    have hp : (position b).placement .simple s t =
        Position.relocate (position b).pieceAt s t (some (b.side, pc)) := by rw [← hs]; rfl
    by_cases hpk : pc = .king
    · subst hpk
      rw [isMoveLegal_king hknull hs]
      refine isMoveLegal_of_attacked hb hl (.piece hs hpc hr ht) ?_ (attacked_king hb hs hp)
      rw [Position.play_pieceAt, hp, relocate_eq_some]
      exact Or.inl ⟨rfl, rfl⟩
    · exact hother hpk (by decide) hs ht hp
  | push hs ho ht hk => exact hpawn hk hs (hnone ht)
  | capture hs hr ht hk =>
    refine hpawn hk hs ?_
    rintro ⟨q, hq⟩
    obtain ⟨q', hq'⟩ := ht
    rw [hq] at hq'
    simp at hq'
  | double hs hrow ho ho' hu ht =>
    exact hother (by decide) (by decide) hs (hnone ht) (by rw [← position_side, ← hs]; rfl)
  | @enpassant e s t he hpe hs hr hc ho ht =>
    rw [position_side] at hs hpe
    have hp : (position b).placement .enpassant s t = Function.update
        (Position.relocate (position b).pieceAt s t (some (b.side, .pawn))) e none := by
      rw [Position.placement, he, ← hs]
    rw [isMoveLegal_enpassant hs ho, hpos]
    refine isMoveLegal_of_attacked hb hl (.enpassant he hpe hs hr hc ho ht) ?_
      (attacked_enpassant hb hs hpe ht hp)
    rw [Position.play_pieceAt, hp, Function.update_of_ne]
    · exact king_stays hK (by decide) hs (hnone ht)
    · rintro rfl
      rw [hK] at hpe
      simp at hpe
  | castlingKingside hf hk hr h5 h6 ha ha' =>
    have h := Position.Pseudo.castlingKingside hf hk hr h5 h6 ha ha'
    rw [isMoveLegal_king hknull hk]
    refine isMoveLegal_of_attacked hb hl h ?_
      ((attacked_castling hb (passage_kingside h) fun e he h1 h2 => ?_).trans
        (castling_attacked h (Or.inl rfl)).symm)
    · rw [Position.play_pieceAt, Position.placement, hk, relocate_eq_some]
      refine Or.inr ⟨?_, ?_, relocate_eq_some.mpr (Or.inl ⟨rfl, rfl⟩)⟩ <;> simp [homeCell_inj]
    · exact ray_not_home he h2 h1
  | castlingQueenside hf hk hr hp1 hp2 hp3 ha ha' =>
    have h := Position.Pseudo.castlingQueenside hf hk hr hp1 hp2 hp3 ha ha'
    rw [isMoveLegal_king hknull hk]
    refine isMoveLegal_of_attacked hb hl h ?_
      ((attacked_castling hb (passage_queenside h) fun e he h1 h2 => ?_).trans
        (castling_attacked h (Or.inr rfl)).symm)
    · rw [Position.play_pieceAt, Position.placement, hk, relocate_eq_some]
      refine Or.inr ⟨?_, ?_, relocate_eq_some.mpr (Or.inl ⟨rfl, rfl⟩)⟩ <;> simp [homeCell_inj]
    · exact ray_not_home he h1 h2

end Test

end SoFCheck.Core.Legality
