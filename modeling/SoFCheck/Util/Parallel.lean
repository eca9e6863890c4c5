import Mathlib

namespace SoFCheck.Util.Parallel

variable {α β ι : Type}

section Segments

/-- Blocks of consecutive numbers, the first `remainder` of which are longer by
one. -/
def blocks (blockSize remainder : Nat) : (jobs i curLeft : Nat) → List (List Nat)
  | 0, _, _ => []
  | jobs + 1, i, curLeft =>
    let curSize := if i < remainder then blockSize + 1 else blockSize
    List.range' curLeft curSize :: blocks blockSize remainder jobs (i + 1) (curLeft + curSize)

/-- The numbers from `left` below `right`, split among `jobs` workers, of which
none is left without work. -/
def segments (left right jobs : Nat) : List (List Nat) :=
  if right ≤ left then []
  else
    let distance := right - left
    let jobs := min jobs distance
    if jobs = 1 then [List.range' left distance]
    else blocks (distance / jobs) (distance % jobs) jobs 0 left

theorem flatten_blocks (blockSize remainder jobs i curLeft : Nat) :
    (blocks blockSize remainder jobs i curLeft).flatten =
      List.range' curLeft (jobs * blockSize + min jobs (remainder - i)) := by
  induction jobs generalizing i curLeft with
  | zero => simp [blocks]
  | succ jobs ih =>
    rw [blocks, List.flatten_cons, ih, List.range'_append_1]
    congr 1
    rw [Nat.succ_mul]
    split <;> omega

theorem flatten_segments (left right : Nat) {jobs : Nat} (h : 0 < jobs) :
    (segments left right jobs).flatten = List.range' left (right - left) := by
  unfold segments
  split
  · rename_i hle
    rw [Nat.sub_eq_zero_of_le hle]
    rfl
  · rename_i hlt
    simp only
    split
    · simp
    · have hpos : 0 < min jobs (right - left) := by omega
      rw [flatten_blocks]
      congr 1
      have hmod := Nat.mod_lt (right - left) hpos
      have hdiv := Nat.div_add_mod (right - left) (min jobs (right - left))
      rw [Nat.sub_zero, min_eq_right (Nat.le_of_lt hmod)]
      exact hdiv

theorem segments_singles (n : Nat) :
    segments 0 (n + 2) (n + 2) = [0] :: [1] :: blocks 1 0 n 2 2 := by
  have hdiv : (n + 2) / (n + 2) = 1 := Nat.div_self (by omega)
  rw [segments, if_neg (by omega)]
  simp only [Nat.sub_zero, Nat.min_self, hdiv, Nat.mod_self]
  rw [if_neg (by omega), blocks, blocks]
  rfl

theorem length_segments_one (left right : Nat) : (segments left right 1).length ≤ 1 := by
  unfold segments
  split
  · exact Nat.zero_le 1
  · rename_i h
    have hone : min 1 (right - left) = 1 := by omega
    simp [hone]

end Segments

section Interleaving

/-- Run the workers step by step. The order tells whose turn it is; when it is
used up, they finish one after the other. -/
def interleave : List (List α) → List Nat → List α
  | ls, [] => ls.flatten
  | ls, j :: order =>
    match ls[j]? with
    | some (a :: l) => a :: interleave (ls.set j l) order
    | _ => interleave ls order

/-- The ways in which the steps of the workers can follow one another. -/
inductive Interleaved : List (List α) → List α → Prop
  | done {ls : List (List α)} (h : ∀ l ∈ ls, l = []) : Interleaved ls []
  | step (xs : List (List α)) {ys : List (List α)} {a : α} {l l' : List α}
      (h : Interleaved (xs ++ l :: ys) l') : Interleaved (xs ++ (a :: l) :: ys) (a :: l')

theorem turn_cases (ls : List (List α)) (j : Nat) :
    (∃ xs a l ys, ls = xs ++ (a :: l) :: ys ∧ xs.length = j) ∨
      ∀ order, interleave ls (j :: order) = interleave ls order := by
  cases hj : ls[j]? with
  | none => exact Or.inr fun order => by simp [interleave, hj]
  | some l =>
    cases l with
    | nil => exact Or.inr fun order => by simp [interleave, hj]
    | cons a l =>
      obtain ⟨hlt, hget⟩ := List.getElem?_eq_some_iff.mp hj
      refine Or.inl ⟨ls.take j, a, l, ls.drop (j + 1), ?_, List.length_take_of_le (Nat.le_of_lt hlt)⟩
      rw [← hget, List.getElem_cons_drop, List.take_append_drop]

theorem interleave_step (xs ys : List (List α)) (a : α) (l : List α) (order : List Nat) :
    interleave (xs ++ (a :: l) :: ys) (xs.length :: order) =
      a :: interleave (xs ++ l :: ys) order := by
  simp [interleave]

/-- Every order is a way to run the workers, and they have no other ways. -/
theorem interleaved_iff {ls : List (List α)} {l : List α} :
    Interleaved ls l ↔ ∃ order, interleave ls order = l := by
  constructor
  · intro h
    induction h with
    | done h => exact ⟨[], List.flatten_eq_nil_iff.mpr h⟩
    | @step xs ys a l l' h ih =>
      obtain ⟨order, rfl⟩ := ih
      exact ⟨xs.length :: order, interleave_step xs ys a l order⟩
  · rintro ⟨order, rfl⟩
    induction order generalizing ls with
    | nil =>
      rw [interleave]
      induction ls with
      | nil => exact .done fun l h => absurd h List.not_mem_nil
      | cons l ls ih =>
        induction l with
        | nil =>
          have hskip : ∀ {ls : List (List α)} {l : List α}, Interleaved ls l →
              Interleaved ([] :: ls) l := by
            intro ls l h
            induction h with
            | done h => exact .done (by simpa using h)
            | @step xs ys a l l' h ih => exact .step ([] :: xs) ih
          exact hskip ih
        | cons a l ihl => exact .step [] ihl
    | cons j order ih =>
      rcases turn_cases ls j with ⟨xs, a, l, ys, rfl, rfl⟩ | h
      · rw [interleave_step]
        exact .step _ ih
      · rw [h order]
        exact ih

theorem Interleaved.perm {ls : List (List α)} {l : List α} (h : Interleaved ls l) :
    l.Perm ls.flatten := by
  induction h with
  | done h => rw [List.flatten_eq_nil_iff.mpr h]
  | step xs h ih =>
    rw [List.flatten_append, List.flatten_cons] at ih ⊢
    rw [List.cons_append]
    exact (ih.cons _).trans List.perm_middle.symm

theorem mem_interleave {ls : List (List α)} {order : List Nat} {a : α} :
    a ∈ interleave ls order ↔ ∃ l ∈ ls, a ∈ l := by
  rw [(interleaved_iff.mpr ⟨order, rfl⟩).perm.mem_iff, List.mem_flatten]

/-- Steps that belong to one worker keep their order. -/
theorem Interleaved.filter_eq {ls : List (List α)} {l : List α} (h : Interleaved ls l)
    {p : α → Bool} (hp : ls.Pairwise fun x y => x.filter p = [] ∨ y.filter p = []) :
    l.filter p = ls.flatten.filter p := by
  induction h with
  | done h => rw [List.flatten_eq_nil_iff.mpr h]
  | @step xs ys a l l' h ih =>
    have hp' : (xs ++ l :: ys).Pairwise fun x y => x.filter p = [] ∨ y.filter p = [] := by
      have hdrop : (a :: l).filter p = [] → l.filter p = [] := fun h => by
        rw [List.filter_cons] at h
        split at h
        · cases h
        · exact h
      rw [List.pairwise_append, List.pairwise_cons] at hp ⊢
      obtain ⟨hxs, ⟨hl, hys⟩, hcross⟩ := hp
      refine ⟨hxs, ⟨fun y hy => (hl y hy).imp_left hdrop, hys⟩, fun x hx y hy => ?_⟩
      cases List.mem_cons.mp hy with
      | inl he => exact he ▸ (hcross x hx _ List.mem_cons_self).imp_right hdrop
      | inr hy => exact hcross x hx y (List.mem_cons_of_mem _ hy)
    rw [List.filter_cons, ih hp']
    split
    · rename_i ha
      have hxs : xs.flatten.filter p = [] := by
        rw [List.filter_flatten, List.flatten_eq_nil_iff]
        intro x hx
        obtain ⟨x, hx', rfl⟩ := List.mem_map.mp hx
        refine ((List.pairwise_append.mp hp).2.2 x hx' _ List.mem_cons_self).resolve_right ?_
        rw [List.filter_cons, if_pos ha]
        exact List.cons_ne_nil _ _
      simp [hxs, ha]
    · rename_i ha
      simp [ha]

theorem filter_interleave {xs ys : List (List α)} {l : List α} {p : α → Bool}
    (h : ∀ x ∈ xs ++ ys, x.filter p = []) (order : List Nat) :
    (interleave (xs ++ l :: ys) order).filter p = l.filter p := by
  have hxs : ∀ x ∈ xs, x.filter p = [] := fun x hx => h x (List.mem_append_left ys hx)
  have hys : ∀ y ∈ ys, y.filter p = [] := fun y hy => h y (List.mem_append_right xs hy)
  have hp : (xs ++ l :: ys).Pairwise fun x y => x.filter p = [] ∨ y.filter p = [] := by
    rw [List.pairwise_append, List.pairwise_cons]
    refine ⟨List.pairwise_of_forall_mem_list fun x hx _ _ => Or.inl (hxs x hx),
      ⟨fun y hy => Or.inr (hys y hy),
        List.pairwise_of_forall_mem_list fun y hy _ _ => Or.inl (hys y hy)⟩,
      fun x hx _ _ => Or.inl (hxs x hx)⟩
  have hnil : ∀ zs : List (List α), (∀ z ∈ zs, z.filter p = []) → zs.flatten.filter p = [] := by
    intro zs hz
    rw [List.filter_flatten, List.flatten_eq_nil_iff]
    intro z hz'
    obtain ⟨z, hzs, rfl⟩ := List.mem_map.mp hz'
    exact hz z hzs
  rw [(interleaved_iff.mpr ⟨order, rfl⟩).filter_eq hp, List.flatten_append, List.flatten_cons,
    List.filter_append, List.filter_append, hnil xs hxs, hnil ys hys, List.nil_append,
    List.append_nil]

theorem interleave_eq_flatten {ls : List (List α)} (h : ls.length ≤ 1) (order : List Nat) :
    interleave ls order = ls.flatten := by
  have hp : ls.Pairwise fun x y => x.filter (fun _ => true) = [] ∨ y.filter (fun _ => true) = [] := by
    match ls, h with
    | [], _ => exact List.Pairwise.nil
    | [l], _ => exact List.pairwise_singleton _ l
  have h := (interleaved_iff.mpr ⟨order, rfl⟩).filter_eq hp
  rwa [List.filter_true, List.filter_true] at h

theorem Interleaved.append {ls ls' : List (List α)} {l l' : List α} (h : Interleaved ls l)
    (h' : Interleaved ls' l') : Interleaved (ls' ++ ls) (l ++ l') := by
  induction h with
  | @done ls h =>
    rw [List.nil_append]
    induction h' with
    | done h' => exact .done fun l hl => (List.mem_append.mp hl).elim (h' l) (h l)
    | @step xs ys a l l' _ ih =>
      rw [List.append_assoc, List.cons_append] at ih ⊢
      exact .step _ ih
  | @step xs ys a l l'' _ ih =>
    rw [← List.append_assoc] at ih ⊢
    exact .step _ ih

end Interleaving

section Memory

variable [DecidableEq ι]

/-- Carry out steps each of which changes one location. -/
def writeAll (m : ι → β) (l : List (ι × (β → β))) : ι → β :=
  l.foldl (fun m w => Function.update m w.1 (w.2 (m w.1))) m

variable {m : ι → β} {l l' : List (ι × (β → β))} {i : ι}

@[simp] theorem writeAll_nil : writeAll m [] = m := rfl

theorem writeAll_cons (w : ι × (β → β)) :
    writeAll m (w :: l) = writeAll (Function.update m w.1 (w.2 (m w.1))) l := rfl

theorem writeAll_append : writeAll m (l ++ l') = writeAll (writeAll m l) l' := List.foldl_append

theorem writeAll_apply : writeAll m l i =
    (l.filter fun w => decide (w.1 = i)).foldl (fun x w => w.2 x) (m i) := by
  induction l generalizing m with
  | nil => rfl
  | cons w l ih =>
    rw [writeAll_cons, ih, List.filter_cons]
    by_cases h : w.1 = i
    · subst h
      simp
    · simp [h, Function.update_of_ne (Ne.symm h)]

theorem writeAll_keeps {P : β → Prop} (h : ∀ w ∈ l, w.1 = i → ∀ x, P x → P (w.2 x))
    (hm : P (m i)) : P (writeAll m l i) := by
  induction l generalizing m with
  | nil => exact hm
  | cons w l ih =>
    rw [writeAll_cons]
    refine ih (fun w' hw' => h w' (List.mem_cons_of_mem _ hw')) ?_
    by_cases hi : w.1 = i
    · subst hi
      rw [Function.update_self]
      exact h w List.mem_cons_self rfl _ hm
    · rwa [Function.update_of_ne (Ne.symm hi)]

theorem writeAll_of_mem {P : β → Prop} (h : ∀ w ∈ l, w.1 = i → ∀ x, P x → P (w.2 x))
    {w : ι × (β → β)} (hw : w ∈ l) (hi : w.1 = i) (hP : ∀ x, P (w.2 x)) : P (writeAll m l i) := by
  obtain ⟨l₁, l₂, rfl⟩ := List.append_of_mem hw
  rw [writeAll_append, writeAll_cons]
  refine writeAll_keeps (fun w' hw' => h w' ?_) ?_
  · exact List.mem_append_right _ (List.mem_cons_of_mem _ hw')
  · subst hi
    rw [Function.update_self]
    exact hP _

end Memory

end SoFCheck.Util.Parallel
