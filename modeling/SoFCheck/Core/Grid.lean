import SoFCheck.Core.Types
import SoFCheck.Util.Scan

namespace SoFCheck.Core.Grid

open SoFCheck.Core.Types SoFCheck.Util.Scan

def row (s : Square) : Nat := s.val / 8

def col (s : Square) : Nat := s.val % 8

/-- A step on the board, `dx` rows down and `dy` columns to the right. -/
abbrev Dir := Int × Int

/-- The cell in row `x` and column `y`, when there is one. -/
def cellAt (x y : Int) : Option Square :=
  if 0 ≤ x ∧ x < 8 ∧ 0 ≤ y ∧ y < 8 then some (Fin.ofNat 64 (8 * x + y).toNat) else none

def offset (d : Dir) (s : Square) : Option Square := cellAt (row s + d.1) (col s + d.2)

def walk (d : Dir) : Nat → Square → List Square
  | 0, _ => []
  | n + 1, s =>
    match offset d s with
    | none => []
    | some t => t :: walk d n t

/-- The cells met from `s` in direction `d`, up to the edge of the board. -/
def ray (d : Dir) (s : Square) : List Square := walk d 7 s

def rookDirs : List Dir := [(-1, 0), (1, 0), (0, -1), (0, 1)]

def bishopDirs : List Dir := [(-1, -1), (1, -1), (-1, 1), (1, 1)]

def dirs : List Dir := rookDirs ++ bishopDirs

/-- The cells strictly between `s` and `t`, for `t` on the ray of `d`. -/
def inner (d : Dir) (s t : Square) : List Square := before (ray d s) t

/-- `t` is `n` steps of `d` away from `s`. -/
def Steps (d : Dir) (s : Square) (n : Nat) (t : Square) : Prop :=
  (row t : Int) = row s + n * d.1 ∧ (col t : Int) = col s + n * d.2

theorem square_ext {s t : Square} (hr : row s = row t) (hc : col s = col t) : s = t := by
  rw [Fin.ext_iff, ← Nat.div_add_mod s.val 8, ← Nat.div_add_mod t.val 8]
  exact congrArg₂ (fun a b => 8 * a + b) hr hc

theorem val_eq (s : Square) : s.val = 8 * row s + col s := by
  rw [row, col]
  omega

theorem row_lt (s : Square) : row s < 8 := Nat.div_lt_of_lt_mul s.isLt

theorem col_lt (s : Square) : col s < 8 := Nat.mod_lt _ (by decide)

theorem cellAt_eq_some {x y : Int} {t : Square} :
    cellAt x y = some t ↔ (row t : Int) = x ∧ (col t : Int) = y := by
  constructor
  · intro h
    unfold cellAt at h
    split at h
    · rename_i hxy
      rw [← Option.some.inj h]
      simp only [row, col, Fin.ofNat]
      omega
    · cases h
  · rintro ⟨hx, hy⟩
    have hr := row_lt t
    have hc := col_lt t
    rw [cellAt, if_pos (by omega)]
    refine congrArg some (square_ext ?_ ?_) <;> simp only [row, col, Fin.ofNat] at * <;> omega

theorem offset_eq_some {d : Dir} {s t : Square} : offset d s = some t ↔ Steps d s 1 t := by
  rw [offset, cellAt_eq_some, Steps]
  simp

theorem offset_eq_some_iff {d : Dir} {s t : Square} :
    offset d s = some t ↔ (row t : Int) = row s + d.1 ∧ (col t : Int) = col s + d.2 := by
  rw [offset, cellAt_eq_some]

theorem offset_neg {d : Dir} {s t : Square} : offset d s = some t ↔ offset (-d) t = some s := by
  rw [offset_eq_some, offset_eq_some, Steps, Steps]
  simp only [Prod.fst_neg, Prod.snd_neg]
  omega

theorem dirs_cases {d : Dir} (hd : d ∈ dirs) :
    (d.1 = -1 ∨ d.1 = 0 ∨ d.1 = 1) ∧ (d.2 = -1 ∨ d.2 = 0 ∨ d.2 = 1) ∧ (d.1 ≠ 0 ∨ d.2 ≠ 0) := by
  revert d
  decide

theorem Steps.first {d : Dir} (hd : d ∈ dirs) {s t : Square} {n : Nat} (h : Steps d s (n + 1) t) :
    ∃ r, Steps d s 1 r ∧ Steps d r n t := by
  obtain ⟨hr, hc⟩ := h
  obtain ⟨h1, h2, -⟩ := dirs_cases hd
  have := row_lt s
  have := col_lt s
  have := row_lt t
  have := col_lt t
  have hx : 0 ≤ row s + d.1 ∧ row s + d.1 < 8 ∧ 0 ≤ col s + d.2 ∧ col s + d.2 < 8 := by
    rcases h1 with h1 | h1 | h1 <;> rcases h2 with h2 | h2 | h2 <;>
      simp only [h1, h2] at hr hc ⊢ <;> omega
  have ho : offset d s = some (Fin.ofNat 64 (8 * (row s + d.1) + (col s + d.2)).toNat) := by
    rw [offset, cellAt, if_pos hx]
  obtain ⟨hr', hc'⟩ := offset_eq_some.mp ho
  refine ⟨_, ⟨hr', hc'⟩, ?_, ?_⟩
  · rcases h1 with h1 | h1 | h1 <;> simp only [h1] at hr hr' ⊢ <;> omega
  · rcases h2 with h2 | h2 | h2 <;> simp only [h2] at hc hc' ⊢ <;> omega

theorem Steps.cons {d : Dir} {s r t : Square} {n : Nat} (h : Steps d s 1 r) (h' : Steps d r n t) :
    Steps d s (n + 1) t := by
  simp only [Steps, Nat.cast_add, Nat.cast_one, add_mul, one_mul] at *
  omega

theorem Steps.unique {d : Dir} {s t u : Square} {n : Nat} (h : Steps d s n t) (h' : Steps d s n u) :
    t = u := by
  obtain ⟨hr, hc⟩ := h
  obtain ⟨hr', hc'⟩ := h'
  exact square_ext (by omega) (by omega)

theorem mem_walk {d : Dir} (hd : d ∈ dirs) {m : Nat} {s t : Square} :
    t ∈ walk d m s ↔ ∃ n, 1 ≤ n ∧ n ≤ m ∧ Steps d s n t := by
  induction m generalizing s with
  | zero =>
    simp only [walk, List.not_mem_nil, false_iff]
    rintro ⟨n, h1, h0, -⟩
    omega
  | succ m ih =>
    rw [walk]
    cases ho : offset d s with
    | none =>
      simp only [List.not_mem_nil, false_iff]
      rintro ⟨n, h1, -, h⟩
      obtain ⟨k, rfl⟩ : ∃ k, n = k + 1 := ⟨n - 1, by omega⟩
      obtain ⟨r, hr, -⟩ := h.first hd
      rw [offset_eq_some.mpr hr] at ho
      cases ho
    | some r =>
      have hr := offset_eq_some.mp ho
      rw [List.mem_cons, ih]
      constructor
      · rintro (rfl | ⟨n, h1, hn, h⟩)
        · exact ⟨1, le_refl 1, by omega, hr⟩
        · exact ⟨n + 1, by omega, by omega, hr.cons h⟩
      · rintro ⟨n, h1, hn, h⟩
        obtain ⟨k, rfl⟩ : ∃ k, n = k + 1 := ⟨n - 1, by omega⟩
        obtain ⟨r', hr', h'⟩ := h.first hd
        obtain rfl := hr.unique hr'
        cases k with
        | zero => exact Or.inl (h.unique hr)
        | succ k => exact Or.inr ⟨k + 1, by omega, by omega, h'⟩

theorem Steps.pos {d : Dir} {s : Square} (hd : d ∈ dirs) {n m : Nat} {t : Square}
    (h : Steps d s n t) (h' : Steps d s m t) : n = m := by
  obtain ⟨hr, hc⟩ := h
  obtain ⟨hr', hc'⟩ := h'
  obtain ⟨h1, h2, h0⟩ := dirs_cases hd
  rcases h1 with h1 | h1 | h1 <;> rcases h2 with h2 | h2 | h2 <;>
    simp only [h1, h2] at hr hc hr' hc' h0 <;> omega

theorem Steps.le_seven {d : Dir} (hd : d ∈ dirs) {s t : Square} {n : Nat} (h : Steps d s n t) :
    n ≤ 7 := by
  obtain ⟨hr, hc⟩ := h
  obtain ⟨h1, h2, h0⟩ := dirs_cases hd
  have := row_lt s
  have := col_lt s
  have := row_lt t
  have := col_lt t
  rcases h1 with h1 | h1 | h1 <;> rcases h2 with h2 | h2 | h2 <;>
    simp only [h1, h2] at hr hc h0 <;> omega

theorem mem_ray {d : Dir} (hd : d ∈ dirs) {s t : Square} :
    t ∈ ray d s ↔ ∃ n, 1 ≤ n ∧ Steps d s n t := by
  rw [ray, mem_walk hd]
  constructor
  · rintro ⟨n, h1, -, h⟩
    exact ⟨n, h1, h⟩
  · rintro ⟨n, h1, h⟩
    exact ⟨n, h1, h.le_seven hd, h⟩

theorem mem_before_walk {d : Dir} (hd : d ∈ dirs) {m n : Nat} {s t u : Square}
    (h1 : 1 ≤ n) (hn : n ≤ m) (ht : Steps d s n t) :
    u ∈ before (walk d m s) t ↔ ∃ k, 1 ≤ k ∧ k < n ∧ Steps d s k u := by
  induction m generalizing s n with
  | zero => omega
  | succ m ih =>
    obtain ⟨k, rfl⟩ : ∃ k, n = k + 1 := ⟨n - 1, by omega⟩
    obtain ⟨r, hr, ht'⟩ := ht.first hd
    rw [walk, offset_eq_some.mpr hr]
    cases k with
    | zero =>
      obtain rfl := ht.unique hr
      simp only [before_self, List.not_mem_nil, false_iff]
      rintro ⟨k, h1, h2, -⟩
      omega
    | succ k =>
      have hrt : r ≠ t := by
        rintro rfl
        have := ht.pos hd hr
        omega
      dsimp only
      rw [before_cons_of_ne _ hrt, List.mem_cons, ih (by omega) (by omega) ht']
      constructor
      · rintro (rfl | ⟨i, hi, hik, h⟩)
        · exact ⟨1, le_refl 1, by omega, hr⟩
        · exact ⟨i + 1, by omega, by omega, hr.cons h⟩
      · rintro ⟨i, hi, hik, h⟩
        obtain ⟨j, rfl⟩ : ∃ j, i = j + 1 := ⟨i - 1, by omega⟩
        obtain ⟨r', hr', h'⟩ := h.first hd
        obtain rfl := hr.unique hr'
        cases j with
        | zero => exact Or.inl (h.unique hr)
        | succ j => exact Or.inr ⟨j + 1, by omega, by omega, h'⟩

theorem mem_inner {d : Dir} (hd : d ∈ dirs) {n : Nat} {s t u : Square} (h1 : 1 ≤ n)
    (ht : Steps d s n t) : u ∈ inner d s t ↔ ∃ k, 1 ≤ k ∧ k < n ∧ Steps d s k u :=
  mem_before_walk hd h1 (ht.le_seven hd) ht

theorem Steps.neg {d : Dir} {s t : Square} {n : Nat} (h : Steps d s n t) : Steps (-d) t n s := by
  simp only [Steps, Prod.fst_neg, Prod.snd_neg, mul_neg] at *
  omega

theorem neg_mem_dirs : ∀ d ∈ dirs, -d ∈ dirs := by decide

theorem neg_mem_rookDirs : ∀ d ∈ rookDirs, -d ∈ rookDirs := by decide

theorem neg_mem_bishopDirs : ∀ d ∈ bishopDirs, -d ∈ bishopDirs := by decide

theorem mem_ray_neg {d : Dir} (hd : d ∈ dirs) {s t : Square} : t ∈ ray d s ↔ s ∈ ray (-d) t := by
  rw [mem_ray hd, mem_ray (neg_mem_dirs d hd)]
  exact exists_congr fun n => and_congr_right fun _ =>
    ⟨Steps.neg, fun h => by simpa using h.neg⟩

theorem mem_inner_neg {d : Dir} (hd : d ∈ dirs) {s t u : Square} (ht : t ∈ ray d s) :
    u ∈ inner d s t ↔ u ∈ inner (-d) t s := by
  obtain ⟨n, h1, h⟩ := (mem_ray hd).mp ht
  rw [mem_inner hd h1 h, mem_inner (neg_mem_dirs d hd) h1 h.neg]
  constructor <;> rintro ⟨k, hk, hkn, hu⟩ <;>
    refine ⟨n - k, by omega, by omega, ?_⟩ <;>
    simp only [Steps, Prod.fst_neg, Prod.snd_neg, Nat.cast_sub hkn.le, sub_mul, mul_neg] at * <;>
    omega

theorem dir_unique {d e : Dir} (hd : d ∈ dirs) (he : e ∈ dirs) {s t : Square}
    (ht : t ∈ ray d s) (ht' : t ∈ ray e s) : d = e := by
  obtain ⟨n, h1, hr, hc⟩ := (mem_ray hd).mp ht
  obtain ⟨m, h1', hr', hc'⟩ := (mem_ray he).mp ht'
  obtain ⟨ha, hb, h0⟩ := dirs_cases hd
  obtain ⟨ha', hb', h0'⟩ := dirs_cases he
  have hx : d.1 = e.1 := by
    rcases ha with ha | ha | ha <;> rcases ha' with ha' | ha' | ha' <;>
      simp only [ha, ha'] at hr hr' ⊢ <;> omega
  have hy : d.2 = e.2 := by
    rcases hb with hb | hb | hb <;> rcases hb' with hb' | hb' | hb' <;>
      simp only [hb, hb'] at hc hc' ⊢ <;> omega
  exact Prod.ext hx hy

theorem self_notMem_ray {d : Dir} (hd : d ∈ dirs) (s : Square) : s ∉ ray d s := by
  intro h
  obtain ⟨n, h1, h⟩ := (mem_ray hd).mp h
  have h0 : Steps d s 0 s := by simp [Steps]
  have := h.pos hd h0
  omega

end SoFCheck.Core.Grid
