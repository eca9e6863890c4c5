import SoFCheck.Core.Grid
import SoFCheck.Util.Sight

namespace SoFCheck.Core.QueenLines

open SoFCheck.Core.Types SoFCheck.Core.Grid SoFCheck.Util.Sight

/-- One of each two opposite directions. -/
def lineDirs : List Dir := [(0, 1), (1, 0), (1, 1), (1, -1)]

/-- The lines of a direction, each from edge to edge of the board. -/
def linesOf (d : Dir) : List (List Square) :=
  ((List.finRange 64).filter fun s => offset (-d) s = none).map fun s => s :: ray d s

/-- A share of the cells of its line for the piece on `s`. -/
def room (d : Dir) (s : Square) : Nat :=
  let before := (ray (-d) s).length
  let after := (ray d s).length
  min 3 (before + after) + if 5 ≤ before + after ∧ (before = 0 ∨ after = 0) then 1 else 0

section Lines

theorem rays_of_line : ∀ d ∈ lineDirs, ∀ l ∈ linesOf d, ∀ i : Fin l.length,
    ray d l[i] = l.drop (i + 1) ∧ ray (-d) l[i] = (l.take i).reverse := by
  decide +kernel

theorem linesOf_perm : ∀ d ∈ lineDirs, (linesOf d).flatten.Perm (List.finRange 64) := by
  decide +kernel

theorem length_line_le : ∀ d ∈ lineDirs, ∀ l ∈ linesOf d, l.length ≤ 8 := by
  decide +kernel

theorem sum_free : (lineDirs.map fun d => ((linesOf d).map fun l => l.length - 4).sum).sum = 96 := by
  decide +kernel

theorem sum_room_le : ∀ s, (lineDirs.map fun d => room d s).sum ≤ 13 := by
  decide +kernel

variable {d : Dir} {l : List Square} {s : Square} {l₁ l₂ : List Square}

theorem rays_of_split (hd : d ∈ lineDirs) (hl : l ∈ linesOf d) (h : l = l₁ ++ s :: l₂) :
    ray d s = l₂ ∧ ray (-d) s = l₁.reverse := by
  subst h
  have hlt : l₁.length < (l₁ ++ s :: l₂).length := by
    rw [List.length_append, List.length_cons]
    omega
  have hget : (l₁ ++ s :: l₂)[(⟨l₁.length, hlt⟩ : Fin (l₁ ++ s :: l₂).length)] = s := by simp
  have hdrop : (l₁ ++ s :: l₂).drop (l₁.length + 1) = l₂ := by simp
  have hrays := rays_of_line d hd _ hl ⟨l₁.length, hlt⟩
  rw [hget] at hrays
  exact ⟨hrays.1.trans hdrop, hrays.2.trans (congrArg List.reverse List.take_left)⟩

theorem room_of_split (hd : d ∈ lineDirs) (hl : l ∈ linesOf d) (h : l = l₁ ++ s :: l₂) :
    room d s = min 3 (l.length - 1) +
      if 5 ≤ l.length - 1 ∧ (l₁.length = 0 ∨ l₂.length = 0) then 1 else 0 := by
  obtain ⟨hafter, hbefore⟩ := rays_of_split hd hl h
  have hlen : l₁.length + l₂.length = l.length - 1 := by
    rw [h, List.length_append, List.length_cons]
    omega
  rw [room, hafter, hbefore, List.length_reverse, hlen]

theorem sum_line_le (p : Square → Bool) (hd : d ∈ lineDirs) (hl : l ∈ linesOf d) :
    ((l.filter p).map fun s => lead p (ray d s) + lead p (ray (-d) s)).sum ≤
      (l.length - 4) + ((l.filter p).map (room d)).sum := by
  have hright : ((l.filter p).map fun s => lead p (ray d s)).sum = seen p l :=
    sum_lead_eq_seen p fun l₁ s l₂ h => by rw [(rays_of_split hd hl h).1]
  have hleft : ((l.filter p).map fun s => lead p (ray (-d) s)).sum = seen p l.reverse := by
    rw [← sum_lead_eq_seen p (f := fun s => lead p (ray (-d) s)), List.filter_reverse,
      List.map_reverse, List.sum_reverse]
    intro l₁ s l₂ h
    have hsplit : l = l₂.reverse ++ s :: l₁.reverse := by
      rw [← List.reverse_reverse l, h]
      simp
    rw [(rays_of_split hd hl hsplit).2, List.reverse_reverse]
  rw [List.sum_map_add, hright, hleft]
  apply seen_both_le (length_line_le d hd l hl)
  · intro s hs
    obtain ⟨l₁, l₂, h⟩ := List.append_of_mem hs
    rw [room_of_split hd hl h]
    omega
  · intro first mid last h hlong
    have hfirst : l = [] ++ first :: (mid ++ [last]) := h
    have hlast : l = (first :: mid) ++ last :: [] := h
    rw [room_of_split hd hl hfirst, room_of_split hd hl hlast, if_pos (by simp; omega),
      if_pos (by simp; omega)]
    omega

end Lines

section Board

theorem sum_lines {d : Dir} (hd : d ∈ lineDirs) (S : Finset Square) (f : Square → Nat) :
    ((linesOf d).map fun l => ((l.filter fun s => decide (s ∈ S)).map f).sum).sum = ∑ s ∈ S, f s := by
  have hline : ∀ l : List Square, ((l.filter fun s => decide (s ∈ S)).map f).sum =
      (l.map fun s => if s ∈ S then f s else 0).sum := by
    intro l
    induction l with
    | nil => rfl
    | cons s l ih =>
      rw [List.filter_cons, List.map_cons, List.sum_cons, ← ih]
      split_ifs with h h' h'
      · rw [List.map_cons, List.sum_cons]
      · exact absurd (of_decide_eq_true h) h'
      · exact absurd (decide_eq_true h') h
      · rw [Nat.zero_add]
  have hall : ∑ s ∈ S, f s = ((List.finRange 64).map fun s => if s ∈ S then f s else 0).sum := by
    rw [← Fin.sum_univ_def, Finset.sum_ite_mem, Finset.univ_inter]
  rw [hall, ← ((linesOf_perm d hd).map _).sum_eq, List.map_flatten, List.sum_flatten, List.map_map]
  apply congrArg List.sum
  apply List.map_congr_left
  intro l _
  exact hline l

/-- Pieces that move like queens and block one another. -/
theorem sum_queens_le (S : Finset Square) :
    ∑ s ∈ S, (dirs.map fun d => lead (fun t => decide (t ∈ S)) (ray d s)).sum ≤ 96 + 13 * S.card := by
  have hdir : ∀ d ∈ lineDirs, ∑ s ∈ S, (lead (fun t => decide (t ∈ S)) (ray d s) +
      lead (fun t => decide (t ∈ S)) (ray (-d) s)) ≤
      ((linesOf d).map fun l => l.length - 4).sum + ∑ s ∈ S, room d s := by
    intro d hd
    rw [← sum_lines hd, ← sum_lines hd, ← List.sum_map_add]
    apply List.sum_le_sum
    intro l hl
    exact sum_line_le _ hd hl
  have hdirs : ∀ g : Dir → Nat, (dirs.map g).sum = (lineDirs.map fun d => g d + g (-d)).sum := by
    intro g
    have hneg : -((0, 1) : Dir) = (0, -1) ∧ -((1, 0) : Dir) = (-1, 0) ∧ -((1, 1) : Dir) = (-1, -1) ∧
        -((1, -1) : Dir) = (-1, 1) := by decide
    simp only [dirs, rookDirs, bishopDirs, lineDirs, List.map_cons, List.map_nil, List.map_append,
      List.sum_append, List.sum_cons, List.sum_nil, hneg]
    omega
  have hroom : ∑ s ∈ S, (lineDirs.map fun d => room d s).sum ≤ 13 * S.card := by
    rw [Nat.mul_comm, ← smul_eq_mul]
    exact Finset.sum_le_card_nsmul S _ 13 fun s _ => sum_room_le s
  have hfree := sum_free
  have hright := hdir (0, 1) (by decide)
  have hdown := hdir (1, 0) (by decide)
  have hdiag := hdir (1, 1) (by decide)
  have hanti := hdir (1, -1) (by decide)
  simp only [hdirs]
  simp only [lineDirs, List.map_cons, List.map_nil, List.sum_cons, List.sum_nil,
    Finset.sum_add_distrib] at *
  omega

end Board

end SoFCheck.Core.QueenLines
