import SoFCheck.Util.Parallel

namespace SoFCheck.Util.SegmentCalls

open SoFCheck.Util.Parallel

/-- What `processSegmentParallel` does: the calls of `func` in the order of the threads, and
the operands of all additions made on the way. -/
structure Outcome where
  calls : List (BitVec 64 × BitVec 64)
  additions : List (BitVec 64 × BitVec 64)
  deriving DecidableEq

/-- The loop over the threads, of which `turns` are left to start. -/
def startThreads (blockSize blockRemainder : BitVec 64) : (turns : Nat) → (i curLeft : BitVec 64) →
    Outcome
  | 0, _, _ => ⟨[], []⟩
  | turns + 1, i, curLeft =>
    let curSize := if i < blockRemainder then blockSize + 1 else blockSize
    let increment := if i < blockRemainder then [(blockSize, 1)] else []
    let curRight := curLeft + curSize
    let rest := startThreads blockSize blockRemainder turns (i + 1) curRight
    ⟨(curLeft, curRight) :: rest.calls, increment ++ (curLeft, curSize) :: (i, 1) :: rest.additions⟩

def processSegmentParallel (left right jobs : BitVec 64) : Outcome :=
  if right ≤ left then ⟨[], []⟩
  else
    let distance := right - left
    let jobs := if distance < jobs then distance else jobs
    if jobs = 1 then ⟨[(left, right)], []⟩
    else startThreads (distance / jobs) (distance % jobs) jobs.toNat 0 left

/-- Non-empty segments that follow one another from `left` to `right`. -/
def Tiles : (left right : Nat) → List (Nat × Nat) → Prop
  | left, right, [] => left = right
  | left, right, (l, r) :: segments => l = left ∧ l < r ∧ Tiles r right segments

/-- The numbers of a call. -/
def bounds (call : BitVec 64 × BitVec 64) : Nat × Nat := (call.1.toNat, call.2.toNat)

section Tiles

variable {left right : Nat} {segments : List (Nat × Nat)}

theorem Tiles.le (h : Tiles left right segments) : left ≤ right := by
  induction segments generalizing left with
  | nil => exact Nat.le_of_eq h
  | cons segment segments ih =>
    obtain ⟨l, r⟩ := segment
    obtain ⟨rfl, hlt, hrest⟩ := h
    exact (Nat.le_of_lt hlt).trans (ih hrest)

theorem Tiles.flatMap_eq (h : Tiles left right segments) :
    (segments.flatMap fun s => List.range' s.1 (s.2 - s.1)) = List.range' left (right - left) := by
  induction segments generalizing left with
  | nil =>
    have hzero : right - left = 0 := by
      rw [Tiles] at h
      omega
    rw [hzero]
    rfl
  | cons segment segments ih =>
    obtain ⟨l, r⟩ := segment
    obtain ⟨rfl, hlt, hrest⟩ := h
    have hle := hrest.le
    have hr : r = l + (r - l) := by omega
    rw [List.flatMap_cons, ih hrest]
    dsimp only
    nth_rewrite 2 [hr]
    rw [List.range'_append_1]
    congr 1
    omega

end Tiles

section Loop

variable {B R : BitVec 64}

/-- The sizes of the calls. -/
def sizeAt (B R i : Nat) : Nat := if i < R then B + 1 else B

theorem sizeAt_cases (B R i : Nat) : sizeAt B R i = B + 1 ∧ i < R ∨ sizeAt B R i = B ∧ R ≤ i := by
  rw [sizeAt]
  split
  · exact Or.inl ⟨rfl, by assumption⟩
  · exact Or.inr ⟨rfl, by omega⟩

/-- What is left to process by `turns` more threads. -/
def workLeft (B R turns i : Nat) : Nat := turns * B + min turns (R - i)

theorem workLeft_succ (B R turns i : Nat) :
    workLeft B R (turns + 1) i = sizeAt B R i + workLeft B R turns (i + 1) := by
  rw [workLeft, workLeft, Nat.succ_mul]
  rcases sizeAt_cases B R i with ⟨h, hi⟩ | ⟨h, hi⟩ <;> rw [h] <;> omega

/-- What the loop does when the numbers that it adds up stay small. -/
structure Works (B R i left right turns : Nat) (outcome : Outcome) : Prop where
  ranges : outcome.calls.map (fun c => List.range' (bounds c).1 ((bounds c).2 - (bounds c).1)) =
    blocks B R turns i left
  tiles : Tiles left right (outcome.calls.map bounds)
  length : outcome.calls.length = turns
  sizes : ∀ c ∈ outcome.calls, (bounds c).2 - (bounds c).1 = B ∨ (bounds c).2 - (bounds c).1 = B + 1
  adds : ∀ a ∈ outcome.additions, a.1.toNat + a.2.toNat < 2 ^ 64

theorem toNat_add_of_lt {x y : BitVec 64} (h : x.toNat + y.toNat < 2 ^ 64) :
    (x + y).toNat = x.toNat + y.toNat := by
  rw [BitVec.toNat_add]
  exact Nat.mod_eq_of_lt h

theorem works_startThreads (hB : 0 < B.toNat) (hB' : B.toNat + 1 < 2 ^ 64) (turns : Nat)
    (i curLeft : BitVec 64) (hi : i.toNat + turns < 2 ^ 64)
    (hwork : curLeft.toNat + workLeft B.toNat R.toNat turns i.toNat < 2 ^ 64) :
    Works B.toNat R.toNat i.toNat curLeft.toNat
      (curLeft.toNat + workLeft B.toNat R.toNat turns i.toNat) turns
      (startThreads B R turns i curLeft) := by
  induction turns generalizing i curLeft with
  | zero =>
    refine ⟨rfl, ?_, rfl, fun c hc => absurd hc List.not_mem_nil,
      fun a ha => absurd ha List.not_mem_nil⟩
    have hnone : workLeft B.toNat R.toNat 0 i.toNat = 0 := by
      rw [workLeft]
      omega
    exact (congrArg (curLeft.toNat + ·) hnone).symm
  | succ turns ih =>
    have hone : (1 : BitVec 64).toNat = 1 := rfl
    obtain ⟨curSize, increment, hstep, hsize, hincrement⟩ : ∃ curSize increment,
        startThreads B R (turns + 1) i curLeft =
          ⟨(curLeft, curLeft + curSize) :: (startThreads B R turns (i + 1) (curLeft + curSize)).calls,
            increment ++ (curLeft, curSize) :: (i, 1) ::
              (startThreads B R turns (i + 1) (curLeft + curSize)).additions⟩ ∧
          curSize.toNat = sizeAt B.toNat R.toNat i.toNat ∧
          ∀ a ∈ increment, a = (B, 1) := by
      by_cases hlt : i < R
      · refine ⟨B + 1, [(B, 1)], by simp [startThreads, hlt], ?_, fun a => List.mem_singleton.mp⟩
        rw [toNat_add_of_lt (by omega), sizeAt, if_pos (BitVec.lt_def.mp hlt), hone]
      · refine ⟨B, [], by simp [startThreads, hlt], ?_, fun a ha => absurd ha List.not_mem_nil⟩
        rw [sizeAt, if_neg (fun h => hlt (BitVec.lt_def.mpr h))]
    rw [workLeft_succ, ← hsize] at hwork ⊢
    have hcases := sizeAt_cases B.toNat R.toNat i.toNat
    have hnext : (i + 1).toNat = i.toNat + 1 := toNat_add_of_lt (by omega)
    have hright : (curLeft + curSize).toNat = curLeft.toNat + curSize.toNat :=
      toNat_add_of_lt (by omega)
    have hrest := ih (i + 1) (curLeft + curSize) (by omega) (by rw [hright, hnext]; omega)
    rw [hright, hnext] at hrest
    rw [hstep]
    refine ⟨?_, ⟨rfl, ?_, ?_⟩, congrArg Nat.succ hrest.length, fun c hc => ?_, fun a ha => ?_⟩
    · rw [List.map_cons, hrest.ranges, blocks, bounds, hright, hsize]
      dsimp only
      rw [Nat.add_sub_cancel_left]
      rfl
    · dsimp only
      rw [hright]
      omega
    · rw [hright, ← Nat.add_assoc]
      exact hrest.tiles
    · cases List.mem_cons.mp hc with
      | inl he =>
        rw [he, bounds, hright]
        dsimp only
        omega
      | inr hc => exact hrest.sizes c hc
    · cases List.mem_append.mp ha with
      | inl ha =>
        rw [hincrement a ha, hone]
        exact hB'
      | inr ha =>
        rcases List.mem_cons.mp ha with rfl | ha
        · dsimp only
          omega
        · rcases List.mem_cons.mp ha with rfl | ha
          · dsimp only
            omega
          · exact hrest.adds a ha

end Loop

section Calls

variable {left right jobs : BitVec 64}

/-- How many threads there are. -/
def threadCount (left right jobs : BitVec 64) : BitVec 64 :=
  if right - left < jobs then right - left else jobs

theorem toNat_distance (hlt : left < right) :
    (right - left).toNat = right.toNat - left.toNat :=
  BitVec.toNat_sub_of_le (BitVec.le_of_lt hlt)

theorem toNat_threadCount (hlt : left < right) :
    (threadCount left right jobs).toNat = min jobs.toNat (right.toNat - left.toNat) := by
  have hdistance := toNat_distance hlt
  rw [threadCount]
  split
  · rename_i h
    rw [BitVec.lt_def] at h
    omega
  · rename_i h
    rw [BitVec.lt_def] at h
    omega

theorem processSegmentParallel_eq (hlt : left < right) : processSegmentParallel left right jobs =
    if threadCount left right jobs = 1 then ⟨[(left, right)], []⟩
    else startThreads ((right - left) / threadCount left right jobs)
      ((right - left) % threadCount left right jobs) (threadCount left right jobs).toNat 0 left :=
  if_neg (BitVec.not_le.mpr hlt)

theorem works_threads {count : BitVec 64} (hlt : left < right) (hpos : 1 < count.toNat)
    (hle : count.toNat ≤ right.toNat - left.toNat) :
    Works ((right.toNat - left.toNat) / count.toNat) ((right.toNat - left.toNat) % count.toNat) 0
      left.toNat right.toNat count.toNat
      (startThreads ((right - left) / count) ((right - left) % count) count.toNat 0 left) := by
  have hB : ((right - left) / count).toNat = (right.toNat - left.toNat) / count.toNat := by
    rw [BitVec.toNat_udiv, toNat_distance hlt]
  have hR : ((right - left) % count).toNat = (right.toNat - left.toNat) % count.toNat := by
    rw [BitVec.toNat_umod, toNat_distance hlt]
  have hlt' := BitVec.lt_def.mp hlt
  have hright := right.isLt
  have hone : 0 < (right.toNat - left.toNat) / count.toNat := Nat.div_pos hle (by omega)
  have hhalf : (right.toNat - left.toNat) / count.toNat ≤ (right.toNat - left.toNat) / 2 :=
    Nat.div_le_div_left hpos (by omega)
  have hdiv := Nat.div_add_mod (right.toNat - left.toNat) count.toNat
  have hmod := Nat.mod_lt (right.toNat - left.toNat) (show 0 < count.toNat by omega)
  have hwork : workLeft ((right.toNat - left.toNat) / count.toNat)
      ((right.toNat - left.toNat) % count.toNat) count.toNat (0 : BitVec 64).toNat =
        right.toNat - left.toNat := by
    have hzero : (0 : BitVec 64).toNat = 0 := rfl
    rw [workLeft, hzero]
    omega
  have hend : left.toNat + (right.toNat - left.toNat) = right.toNat := by omega
  have h := works_startThreads (B := (right - left) / count) (R := (right - left) % count)
    (by rw [hB]; exact hone) (by rw [hB]; omega) count.toNat 0 left
    ((Nat.zero_add _).trans_lt count.isLt) (by rw [hB, hR, hwork, hend]; exact hright)
  rwa [hB, hR, hwork, hend] at h

theorem segments_eq (hlt : left < right) (hjobs : 1 ≤ jobs) :
    segments left.toNat right.toNat jobs.toNat = (processSegmentParallel left right jobs).calls.map
      fun c => List.range' (bounds c).1 ((bounds c).2 - (bounds c).1) := by
  have hlt' := BitVec.lt_def.mp hlt
  have hjobs' : 1 ≤ jobs.toNat := BitVec.le_def.mp hjobs
  have hcount := @toNat_threadCount left right jobs hlt
  rw [processSegmentParallel_eq hlt, segments, if_neg (by omega)]
  dsimp only
  rw [← hcount]
  by_cases hone : threadCount left right jobs = 1
  · rw [if_pos hone, hone]
    rfl
  · have hne : (threadCount left right jobs).toNat ≠ 1 := fun h => hone (BitVec.eq_of_toNat_eq h)
    rw [if_neg hone, if_neg hne]
    exact (works_threads hlt (by omega) (by omega)).ranges.symm

/-- The threads share the numbers from `left` below `right`: their segments are not empty,
follow one another and are of about one size, and there are as many of them as possible. -/
theorem processSegmentParallel_spec (hlt : left < right) (hjobs : 1 ≤ jobs) :
    let outcome := processSegmentParallel left right jobs
    Tiles left.toNat right.toNat (outcome.calls.map bounds) ∧
      ((outcome.calls.map bounds).flatMap fun s => List.range' s.1 (s.2 - s.1)) =
        List.range' left.toNat (right.toNat - left.toNat) ∧
      outcome.calls.length = min jobs.toNat (right.toNat - left.toNat) ∧
      (∀ c ∈ outcome.calls, ∀ c' ∈ outcome.calls,
        (bounds c).2 - (bounds c).1 ≤ (bounds c').2 - (bounds c').1 + 1) ∧
      ∀ a ∈ outcome.additions, a.1.toNat + a.2.toNat < 2 ^ 64 := by
  have hlt' := BitVec.lt_def.mp hlt
  have hjobs' : 1 ≤ jobs.toNat := BitVec.le_def.mp hjobs
  have hcount := @toNat_threadCount left right jobs hlt
  rw [processSegmentParallel_eq hlt]
  by_cases hone : threadCount left right jobs = 1
  · rw [if_pos hone]
    have htiles : Tiles left.toNat right.toNat [(left.toNat, right.toNat)] := ⟨rfl, hlt', rfl⟩
    have hlength : 1 = min jobs.toNat (right.toNat - left.toNat) := by
      rw [← hcount, hone]
      rfl
    refine ⟨htiles, htiles.flatMap_eq, hlength, fun c hc c' hc' => ?_, fun a ha => ?_⟩
    · rw [List.mem_singleton.mp hc, List.mem_singleton.mp hc']
      exact Nat.le_succ _
    · exact absurd ha List.not_mem_nil
  · have hne : (threadCount left right jobs).toNat ≠ 1 := fun h => hone (BitVec.eq_of_toNat_eq h)
    rw [if_neg hone]
    have h := @works_threads left right (threadCount left right jobs) hlt (by omega) (by omega)
    refine ⟨h.tiles, h.tiles.flatMap_eq, h.length.trans hcount, fun c hc c' hc' => ?_, h.adds⟩
    have hsize := h.sizes c hc
    have hsize' := h.sizes c' hc'
    omega

theorem processSegmentParallel_spec_table :
    let outcome := processSegmentParallel 1440 2881 16
    Tiles 1440 2881 (outcome.calls.map bounds) ∧
      ((outcome.calls.map bounds).flatMap fun s => List.range' s.1 (s.2 - s.1)) =
        List.range' 1440 1441 ∧
      outcome.calls.length = 16 ∧
      (∀ c ∈ outcome.calls, ∀ c' ∈ outcome.calls,
        (bounds c).2 - (bounds c).1 ≤ (bounds c').2 - (bounds c').1 + 1) ∧
      ∀ a ∈ outcome.additions, a.1.toNat + a.2.toNat < 2 ^ 64 :=
  processSegmentParallel_spec (by decide : (1440 : BitVec 64) < 2881) (by decide : (1 : BitVec 64) ≤ 16)

end Calls

end SoFCheck.Util.SegmentCalls
