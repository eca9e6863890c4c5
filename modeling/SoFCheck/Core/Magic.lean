import SoFCheck.Core.Geometry
import SoFCheck.Util.Deposit

namespace SoFCheck.Core.Magic

open SoFCheck.Util.Bits SoFCheck.Util.Scan SoFCheck.Util.Deposit
open SoFCheck.Core.Types SoFCheck.Core.Grid SoFCheck.Core.Geometry

inductive MagicType where
  | rook
  | bishop
  deriving DecidableEq

def coordDiag1 (c : Square) : Fin 15 := Fin.ofNat 15 (row c + col c)

def coordDiag2 (c : Square) : Fin 15 := Fin.ofNat 15 (7 - row c + col c)

def buildMagicMask : MagicType → Square → Bitboard
  | .rook, c =>
    let x := rowIdx (coordX (toCoord c))
    let y := rowIdx (coordY (toCoord c))
    ((bbRow x &&& ~~~bbRowFrame) ||| (bbCol y &&& ~~~bbColFrame)) &&& ~~~(coordToBitboard c)
  | .bishop, c => (bbDiag1 (coordDiag1 c) ^^^ bbDiag2 (coordDiag2 c)) &&& ~~~bbDiagFrame

def buildMagicPostMask : MagicType → Square → Bitboard
  | .rook, c =>
    let x := rowIdx (coordX (toCoord c))
    let y := rowIdx (coordY (toCoord c))
    bbRow x ^^^ bbCol y
  | .bishop, c => bbDiag1 (coordDiag1 c) ^^^ bbDiag2 (coordDiag2 c)

def getMagicMaskBitSize (M : MagicType) (c : Square) : Nat := popcount (buildMagicMask M c)

def submaskCnt (M : MagicType) (c : Square) : Nat := 2 ^ getMagicMaskBitSize M c

/-- The index of the multiply-shift scheme. -/
def magicIndex (M : MagicType) (c : Square) (magic : BitVec 64) (occupied : Bitboard) : Nat :=
  ((occupied * magic) >>> (64 - getMagicMaskBitSize M c)).toNat

def validLoop (idx : Nat → Nat) : List Nat → (Nat → Bool) → Bool
  | [], _ => true
  | submask :: rest, used =>
    if used (idx submask) then false
    else validLoop idx rest (Function.update used (idx submask) true)

def isValidMagic (M : MagicType) (c : Square) (magic : BitVec 64) : Bool :=
  validLoop
    (fun submask =>
      magicIndex M c magic (depositBits (BitVec.ofNat 64 submask) (buildMagicMask M c)))
    (List.range (submaskCnt M c)) (fun _ => false)

/-- The generated constants: any numbers that the generator accepts. -/
structure MagicConsts where
  magics : MagicType → Square → BitVec 64
  valid : ∀ M c, isValidMagic M c (magics M c) = true

/-- `USE_BMI2` selects how the lookup tables are indexed. -/
inductive Build where
  | bmi2
  | portable (consts : MagicConsts)

def lookupIndex (build : Build) (M : MagicType) (c : Square) (occupied : Bitboard) : Nat :=
  match build with
  | .bmi2 => extract occupied (extractAll (buildMagicMask M c))
  | .portable consts => magicIndex M c (consts.magics M c) (occupied &&& buildMagicMask M c)

/-- The groups of cells that share one block of the lookup array. -/
def groups : MagicType → List (List Square)
  | .rook => (List.finRange 64).filterMap fun c1 =>
      let c2 := c1 ^^^ 9
      if c1 > c2 then none else some [c1, c2]
  | .bishop =>
      (List.zip ([0, 1, 32, 33, 2, 10, 18, 26, 34, 42, 50, 58, 6, 7, 38, 39] : List Square)
        ([8, 8, 8, 8, 1, 1, 1, 1, 1, 1, 1, 1, 8, 8, 8, 8] : List Square)).map fun (c, offs) =>
          [c + 0 * offs, c + 1 * offs, c + 2 * offs, c + 3 * offs]

def blockSize (M : MagicType) (g : List Square) : Nat :=
  2 ^ (g.map (getMagicMaskBitSize M)).foldr max 0

def addBlock (M : MagicType) (acc : (Square → Nat) × Nat) (g : List Square) :
    (Square → Nat) × Nat :=
  (fun c => if c ∈ g then acc.2 else acc.1 c, acc.2 + blockSize M g)

def initOffsets (M : MagicType) : (Square → Nat) × Nat :=
  (groups M).foldl (addBlock M) (fun _ => 0, 0)

structure MagicEntry where
  lookup : Nat
  mask : Bitboard
  postMask : Bitboard

def magicEntry (M : MagicType) (c : Square) : MagicEntry :=
  ⟨(initOffsets M).1 c, buildMagicMask M c, buildMagicPostMask M c⟩

def magicDirs : MagicType → List Dir
  | .rook => rookDirs
  | .bishop => bishopDirs

/-- The inner loop of `initMagic` along one direction; a line of the board has
at most eight cells. -/
def walkDirection (occupied : Bitboard) (d : Dir) : Nat → Square → Bitboard → Bitboard
  | 0, _, res => res
  | n + 1, p, res =>
    let res := res ||| coordToBitboard p
    match offset d p with
    | none => res
    | some q => if hasBit occupied p then res else walkDirection occupied d n q res

def occupiedOf (M : MagicType) (c : Square) (submask : Nat) : Bitboard :=
  depositBits (BitVec.ofNat 64 submask) (buildMagicMask M c)

/-- The index of the table entry that `initMagic` writes for `submask`. -/
def submaskIndex (build : Build) (M : MagicType) (c : Square) (submask : Nat) : Nat :=
  match build with
  | .bmi2 => submask
  | .portable consts => magicIndex M c (consts.magics M c) (occupiedOf M c submask)

abbrev Table := Nat → Bitboard

def fillEntry (build : Build) (M : MagicType) (table : Table) (w : Square × Nat) : Table :=
  let (c, submask) := w
  let pos := (magicEntry M c).lookup + submaskIndex build M c submask
  let res := (magicDirs M).foldl
    (fun res d => walkDirection (occupiedOf M c submask) d 8 c res) (table pos)
  Function.update table pos (res &&& ~~~(coordToBitboard c))

def submasks (M : MagicType) : List (Square × Nat) :=
  (List.finRange 64).flatMap fun c => (List.range (submaskCnt M c)).map fun submask => (c, submask)

/-- The array `g_rookLookup` or `g_bishopLookup`, statically zero, after
`initMagic`. -/
def initMagic (build : Build) (M : MagicType) : Table :=
  (submasks M).foldl (fillEntry build M) (fun _ => 0)

def attackBitboard (build : Build) (M : MagicType) (occupied : Bitboard) (pos : Square) : Bitboard :=
  let entry := magicEntry M pos
  initMagic build M (entry.lookup + lookupIndex build M pos occupied) &&& entry.postMask

def attackBitboardMasked (build : Build) (M : MagicType) (occupied : Bitboard) (pos : Square)
    (postMask : Bitboard) : Bitboard :=
  let entry := magicEntry M pos
  let entryMask := entry.postMask &&& postMask
  if entryMask = 0 then 0
  else initMagic build M (entry.lookup + lookupIndex build M pos occupied) &&& entryMask

section Masks

theorem rowIdx_coordX : ∀ c : Square, (rowIdx (coordX (toCoord c))).val = row c := by decide

theorem rowIdx_coordY : ∀ c : Square, (rowIdx (coordY (toCoord c))).val = col c := by decide

theorem hasBit_bbRowFrame : ∀ s : Square, hasBit bbRowFrame s = decide (col s = 0 ∨ col s = 7) := by
  decide

theorem hasBit_bbColFrame : ∀ s : Square, hasBit bbColFrame s = decide (row s = 0 ∨ row s = 7) := by
  decide

theorem hasBit_bbDiagFrame : ∀ s : Square, hasBit bbDiagFrame s =
    decide (row s = 0 ∨ row s = 7 ∨ col s = 0 ∨ col s = 7) := by decide

theorem hasBit_bbDiags : ∀ c s : Square,
    hasBit (bbDiag1 (coordDiag1 c)) s = decide (row s + col s = row c + col c) ∧
      hasBit (bbDiag2 (coordDiag2 c)) s = decide (row c + col s = row s + col c) := by
  decide +kernel

theorem hasBit_bbDiag1 (c s : Square) :
    hasBit (bbDiag1 (coordDiag1 c)) s = decide (row s + col s = row c + col c) :=
  (hasBit_bbDiags c s).1

theorem hasBit_bbDiag2 (c s : Square) :
    hasBit (bbDiag2 (coordDiag2 c)) s = decide (row c + col s = row s + col c) :=
  (hasBit_bbDiags c s).2

theorem mem_rookPostMask {c q : Square} : hasBit (buildMagicPostMask .rook c) q = true ↔
    ¬(row q = row c ↔ col q = col c) := by
  simp only [buildMagicPostMask, hasBit_xor, hasBit_bbRow, hasBit_bbCol, rowIdx_coordX,
    rowIdx_coordY, bne_iff_ne, ne_eq, decide_eq_decide]

theorem mem_bishopPostMask {c q : Square} : hasBit (buildMagicPostMask .bishop c) q = true ↔
    ¬(row q + col q = row c + col c ↔ row c + col q = row q + col c) := by
  simp only [buildMagicPostMask, hasBit_xor, hasBit_bbDiag1, hasBit_bbDiag2, bne_iff_ne, ne_eq,
    decide_eq_decide]

theorem mem_rookMask {c q : Square} : hasBit (buildMagicMask .rook c) q = true ↔
    (row q = row c ∧ col q ≠ 0 ∧ col q ≠ 7 ∨ col q = col c ∧ row q ≠ 0 ∧ row q ≠ 7) ∧ c ≠ q := by
  simp [buildMagicMask, coordToBitboard, hasBit_bbRow, hasBit_bbCol, rowIdx_coordX, rowIdx_coordY,
    hasBit_bbRowFrame, hasBit_bbColFrame]

theorem mem_bishopMask {c q : Square} : hasBit (buildMagicMask .bishop c) q = true ↔
    ¬(row q + col q = row c + col c ↔ row c + col q = row q + col c) ∧
      row q ≠ 0 ∧ row q ≠ 7 ∧ col q ≠ 0 ∧ col q ≠ 7 := by
  simp [buildMagicMask, hasBit_bbDiag1, hasBit_bbDiag2, hasBit_bbDiagFrame]

theorem rookSteps_cases {d : Dir} (hd : d ∈ rookDirs) {c q : Square} {n : Nat} :
    Steps d c n q → row q = row c ∧ (col q + n = col c ∨ col q = col c + n) ∨
      col q = col c ∧ (row q + n = row c ∨ row q = row c + n) := by
  simp only [rookDirs, List.mem_cons, List.not_mem_nil, or_false] at hd
  rcases hd with rfl | rfl | rfl | rfl <;> simp only [Steps] <;> omega

theorem bishopSteps_cases {d : Dir} (hd : d ∈ bishopDirs) {c q : Square} {n : Nat} :
    Steps d c n q → (row q + n = row c ∨ row q = row c + n) ∧
      (col q + n = col c ∨ col q = col c + n) := by
  simp only [bishopDirs, List.mem_cons, List.not_mem_nil, or_false] at hd
  rcases hd with rfl | rfl | rfl | rfl <;> simp only [Steps] <;> omega

end Masks

section Facts

theorem magicDirs_subset {M : MagicType} {d : Dir} (hd : d ∈ magicDirs M) : d ∈ dirs := by
  revert d
  cases M <;> decide

theorem mask_self (M : MagicType) (c : Square) : hasBit (buildMagicMask M c) c = false := by
  rw [← Bool.not_eq_true]
  cases M with
  | rook => simp [mem_rookMask]
  | bishop => simp [mem_bishopMask]

theorem mem_postMask {M : MagicType} {c q : Square} {d : Dir} (hd : d ∈ magicDirs M)
    (hq : q ∈ ray d c) : hasBit (buildMagicPostMask M c) q = true := by
  obtain ⟨n, h1, h⟩ := (mem_ray (magicDirs_subset hd)).mp hq
  cases M with
  | rook =>
    have := rookSteps_cases hd h
    rw [mem_rookPostMask]
    omega
  | bishop =>
    have := bishopSteps_cases hd h
    rw [mem_bishopPostMask]
    omega

theorem inner_subset_mask {M : MagicType} {c q u : Square} {d : Dir} (hd : d ∈ magicDirs M)
    (hq : q ∈ ray d c) (hu : u ∈ inner d c q) : hasBit (buildMagicMask M c) u = true := by
  obtain ⟨n, h1, h⟩ := (mem_ray (magicDirs_subset hd)).mp hq
  obtain ⟨k, hk, hkn, hu⟩ := (mem_inner (magicDirs_subset hd) h1 h).mp hu
  have := row_lt c
  have := col_lt c
  have := row_lt q
  have := col_lt q
  have hne : row u = row c → col u = col c → False := fun hr hc => by
    obtain rfl := square_ext hr hc
    have := hu.pos (magicDirs_subset hd) (show Steps d u 0 u by simp [Steps])
    omega
  cases M with
  | rook =>
    have hd' : d ∈ rookDirs := hd
    rw [mem_rookMask]
    refine ⟨?_, fun h => hne (by rw [h]) (by rw [h])⟩
    simp only [rookDirs, List.mem_cons, List.not_mem_nil, or_false] at hd'
    rcases hd' with rfl | rfl | rfl | rfl <;> simp only [Steps] at h hu <;> omega
  | bishop =>
    have hd' : d ∈ bishopDirs := hd
    rw [mem_bishopMask]
    simp only [bishopDirs, List.mem_cons, List.not_mem_nil, or_false] at hd'
    rcases hd' with rfl | rfl | rfl | rfl <;> simp only [Steps] at h hu <;> omega

theorem groups_disjoint (M : MagicType) : (groups M).Pairwise fun g h => ∀ c ∈ g, c ∉ h := by
  cases M with
  | rook =>
    have hxor : ∀ a : Square, a ^^^ 9 ^^^ 9 = a := by decide
    refine List.pairwise_filterMap.mpr ((List.pairwise_lt_finRange 64).imp ?_)
    intro a b hab g hg h hh c hc hc'
    dsimp only at hg hh
    split_ifs at hg hh with ha hb
    cases hg
    cases hh
    simp only [List.mem_cons, List.not_mem_nil, or_false] at hc hc'
    obtain rfl | rfl := hc
    · obtain rfl | rfl := hc'
      · exact absurd hab (lt_irrefl _)
      · exact hb hab
    · obtain h | h := hc'
      · rw [← h, hxor] at hb
        exact hb (h ▸ hab)
      · rw [← hxor a, h, hxor] at hab
        exact absurd hab (lt_irrefl _)
  | bishop => decide +kernel

theorem groups_spec (M : MagicType) : (∀ c, ∃ g ∈ groups M, c ∈ g) ∧
    ∀ g ∈ groups M, ∀ c ∈ g, ∀ c' ∈ g, c ≠ c' →
      match M with
      | .rook => (row c + 1 = row c' ∨ row c = row c' + 1) ∧ (col c + 1 = col c' ∨ col c = col c' + 1)
      | .bishop => row c = row c' ∧ col c < col c' + 4 ∧ col c' < col c + 4 ∨
          col c = col c' ∧ row c < row c' + 4 ∧ row c' < row c + 4 := by
  refine ⟨?_, ?_⟩ <;> cases M <;> decide +kernel

theorem group_notMem_postMask {M : MagicType} {g : List Square} (hg : g ∈ groups M) {c c' : Square}
    (hc : c ∈ g) (hc' : c' ∈ g) : hasBit (buildMagicPostMask M c) c' = false := by
  rw [← Bool.not_eq_true]
  by_cases hne : c = c'
  · subst hne
    cases M with
    | rook => simp [mem_rookPostMask]
    | bishop => simp [mem_bishopPostMask]
  have h := (groups_spec M).2 g hg c hc c' hc' hne
  have hx : ¬(row c = row c' ∧ col c = col c') := fun h => hne (square_ext h.1 h.2)
  cases M with
  | rook =>
    rw [mem_rookPostMask]
    dsimp only at h
    omega
  | bishop =>
    rw [mem_bishopPostMask]
    dsimp only at h
    omega

theorem group_rays {M : MagicType} {g : List Square} (hg : g ∈ groups M) {c c' q : Square}
    (hc : c ∈ g) (hc' : c' ∈ g) (hne : c ≠ c') {d : Dir} (hd : d ∈ magicDirs M) (hq : q ∈ ray d c')
    (hm : hasBit (buildMagicPostMask M c) q = true) :
    ∃ e ∈ magicDirs M, offset e c = some q := by
  have h := (groups_spec M).2 g hg c hc c' hc' hne
  obtain ⟨n, h1, hn⟩ := (mem_ray (magicDirs_subset hd)).mp hq
  have hx : ¬(row c = row c' ∧ col c = col c') := fun h => hne (square_ext h.1 h.2)
  have := row_lt q
  have := col_lt q
  cases M with
  | rook =>
    rw [mem_rookPostMask] at hm
    dsimp only at h
    have hs := rookSteps_cases hd hn
    simp only [magicDirs, rookDirs, List.mem_cons, List.not_mem_nil, or_false, offset_eq_some,
      exists_eq_or_imp, exists_eq_left, Steps]
    omega
  | bishop =>
    rw [mem_bishopPostMask] at hm
    dsimp only at h
    have hs := bishopSteps_cases hd hn
    simp only [magicDirs, bishopDirs, List.mem_cons, List.not_mem_nil, or_false, offset_eq_some,
      exists_eq_or_imp, exists_eq_left, Steps]
    omega

end Facts

section Blocks

/-- The blocks handed out so far lie apart below the running count. -/
structure Blocks (M : MagicType) (gs : List (List Square)) (acc : (Square → Nat) × Nat) : Prop where
  fits : ∀ g ∈ gs, ∀ c ∈ g, acc.1 c + blockSize M g ≤ acc.2
  same : ∀ g ∈ gs, ∀ c ∈ g, ∀ c' ∈ g, acc.1 c = acc.1 c'
  apart : ∀ g ∈ gs, ∀ h ∈ gs, g ≠ h → ∀ c ∈ g, ∀ c' ∈ h,
    acc.1 c + blockSize M g ≤ acc.1 c' ∨ acc.1 c' + blockSize M h ≤ acc.1 c

theorem Blocks.addBlock {M : MagicType} {gs : List (List Square)} {acc : (Square → Nat) × Nat}
    (hb : Blocks M gs acc) {h : List Square} (hd : ∀ g ∈ gs, ∀ c ∈ g, c ∉ h) :
    Blocks M (gs ++ [h]) (addBlock M acc h) := by
  have old : ∀ g ∈ gs, ∀ c ∈ g, (Magic.addBlock M acc h).1 c = acc.1 c := fun g hg c hc => by
    simp [Magic.addBlock, hd g hg c hc]
  have new : ∀ c ∈ h, (Magic.addBlock M acc h).1 c = acc.2 := fun c hc => by
    simp [Magic.addBlock, hc]
  have count : (Magic.addBlock M acc h).2 = acc.2 + blockSize M h := rfl
  constructor
  · intro g hg c hc
    rcases List.mem_append.mp hg with hg | hg
    · rw [old g hg c hc, count]
      exact (hb.fits g hg c hc).trans (Nat.le_add_right _ _)
    · obtain rfl := List.mem_singleton.mp hg
      rw [new c hc, count]
  · intro g hg c hc c' hc'
    rcases List.mem_append.mp hg with hg | hg
    · rw [old g hg c hc, old g hg c' hc', hb.same g hg c hc c' hc']
    · obtain rfl := List.mem_singleton.mp hg
      rw [new c hc, new c' hc']
  · intro g hg k hk hne c hc c' hc'
    rcases List.mem_append.mp hg with hg' | hg' <;> rcases List.mem_append.mp hk with hk' | hk'
    · rw [old g hg' c hc, old k hk' c' hc']
      exact hb.apart g hg' k hk' hne c hc c' hc'
    · obtain rfl := List.mem_singleton.mp hk'
      rw [old g hg' c hc, new c' hc']
      exact Or.inl (hb.fits g hg' c hc)
    · obtain rfl := List.mem_singleton.mp hg'
      rw [new c hc, old k hk' c' hc']
      exact Or.inr (hb.fits k hk' c' hc')
    · exact absurd ((List.mem_singleton.mp hg').trans (List.mem_singleton.mp hk').symm) hne

theorem blocks_foldl (M : MagicType) (rest gs : List (List Square)) (acc : (Square → Nat) × Nat)
    (hb : Blocks M gs acc) (hp : (gs ++ rest).Pairwise fun g h => ∀ c ∈ g, c ∉ h) :
    Blocks M (gs ++ rest) (rest.foldl (Magic.addBlock M) acc) := by
  induction rest generalizing gs acc with
  | nil => simpa using hb
  | cons h rest ih =>
    have hd : ∀ g ∈ gs, ∀ c ∈ g, c ∉ h := fun g hg =>
      (List.pairwise_append.mp hp).2.2 g hg h (by simp)
    have hp' : ((gs ++ [h]) ++ rest).Pairwise fun g h => ∀ c ∈ g, c ∉ h := by simpa using hp
    simpa using ih (gs ++ [h]) _ (hb.addBlock hd) hp'

theorem initOffsets_blocks (M : MagicType) : Blocks M (groups M) (initOffsets M) := by
  have h0 : Blocks M [] (fun _ => 0, 0) := ⟨by simp, by simp, by simp⟩
  have h := blocks_foldl M (groups M) [] _ h0 (by simpa using groups_disjoint M)
  rwa [List.nil_append] at h

theorem submaskCnt_le_blockSize {M : MagicType} {g : List Square} {c : Square} (hc : c ∈ g) :
    submaskCnt M c ≤ blockSize M g := by
  refine Nat.pow_le_pow_right (by decide) ?_
  induction g with
  | nil => simp at hc
  | cons b g ih =>
    rw [List.map_cons, List.foldr_cons]
    rcases List.mem_cons.mp hc with rfl | hc
    · exact le_max_left _ _
    · exact (ih hc).trans (le_max_right _ _)

theorem same_group {M : MagicType} {c c' : Square} {i i' : Nat} (hi : i < submaskCnt M c)
    (hi' : i' < submaskCnt M c')
    (he : (magicEntry M c).lookup + i = (magicEntry M c').lookup + i') :
    ∃ g ∈ groups M, c ∈ g ∧ c' ∈ g := by
  obtain ⟨g, hg, hc⟩ := (groups_spec M).1 c
  obtain ⟨h, hh, hc'⟩ := (groups_spec M).1 c'
  have hb := initOffsets_blocks M
  have hs := submaskCnt_le_blockSize (M := M) hc
  have hs' := submaskCnt_le_blockSize (M := M) hc'
  by_cases hgh : g = h
  · subst hgh
    exact ⟨g, hg, hc, hc'⟩
  · have ha := hb.apart g hg h hh hgh c hc c' hc'
    simp only [magicEntry] at he
    omega

end Blocks

section Index

theorem getMagicMaskBitSize_le (M : MagicType) (c : Square) : getMagicMaskBitSize M c ≤ 64 :=
  BitVec.toNat_cpop_le _

theorem submaskCnt_eq (M : MagicType) (c : Square) :
    submaskCnt M c = 2 ^ (extractAll (buildMagicMask M c)).length := by
  rw [submaskCnt, getMagicMaskBitSize, popcount_eq_length]

theorem magicIndex_lt (M : MagicType) (c : Square) (magic : BitVec 64) (occupied : Bitboard) :
    magicIndex M c magic occupied < submaskCnt M c := by
  have hle := getMagicMaskBitSize_le M c
  have hx := (occupied * magic).isLt
  rw [magicIndex, BitVec.toNat_ushiftRight, Nat.shiftRight_eq_div_pow, submaskCnt,
    Nat.div_lt_iff_lt_mul (Nat.two_pow_pos _), ← Nat.pow_add]
  rwa [Nat.add_sub_cancel' hle]

theorem lookupIndex_lt (build : Build) (M : MagicType) (c : Square) (occupied : Bitboard) :
    lookupIndex build M c occupied < submaskCnt M c := by
  cases build with
  | bmi2 =>
    rw [submaskCnt_eq]
    exact extract_lt _ _
  | portable consts => exact magicIndex_lt M c _ _

theorem submaskIndex_lt (build : Build) {M : MagicType} {c : Square} {submask : Nat}
    (h : submask < submaskCnt M c) : submaskIndex build M c submask < submaskCnt M c := by
  cases build with
  | bmi2 => exact h
  | portable consts => exact magicIndex_lt M c _ _

theorem validLoop_injOn {idx : Nat → Nat} {l : List Nat} {used : Nat → Bool}
    (h : validLoop idx l used = true) :
    (∀ s ∈ l, used (idx s) = false) ∧ ∀ s ∈ l, ∀ t ∈ l, idx s = idx t → s = t := by
  induction l generalizing used with
  | nil => simp
  | cons a l ih =>
    rw [validLoop] at h
    split at h
    · cases h
    rename_i hu
    obtain ⟨hused, hinj⟩ := ih h
    have hne : ∀ s ∈ l, idx s ≠ idx a := fun s hs he => by
      have := hused s hs
      simp [he] at this
    have hold : ∀ s ∈ l, used (idx s) = false := fun s hs => by
      have := hused s hs
      rwa [Function.update_of_ne (hne s hs)] at this
    refine ⟨List.forall_mem_cons.mpr ⟨by simpa using hu, hold⟩, ?_⟩
    intro s hs t ht he
    rcases List.mem_cons.mp hs with rfl | hs' <;> rcases List.mem_cons.mp ht with rfl | ht'
    · rfl
    · exact absurd he.symm (hne t ht')
    · exact absurd he (hne s hs')
    · exact hinj s hs' t ht' he

theorem submaskIndex_inj (build : Build) {M : MagicType} {c : Square} {s t : Nat}
    (hs : s < submaskCnt M c) (ht : t < submaskCnt M c)
    (he : submaskIndex build M c s = submaskIndex build M c t) : s = t := by
  cases build with
  | bmi2 => exact he
  | portable consts =>
    exact (validLoop_injOn (consts.valid M c)).2 s (List.mem_range.mpr hs) t
      (List.mem_range.mpr ht) he

theorem occupiedOf_eq {M : MagicType} {c : Square} {submask : Nat} (h : submask < submaskCnt M c) :
    occupiedOf M c submask = deposit (extractAll (buildMagicMask M c)) submask := by
  have h64 : submask < 2 ^ 64 :=
    h.trans_le (Nat.pow_le_pow_right (by decide) (getMagicMaskBitSize_le M c))
  rw [occupiedOf, depositBits_eq, BitVec.toNat_ofNat, Nat.mod_eq_of_lt h64]

theorem occupiedOf_self {M : MagicType} {c : Square} {submask : Nat} (h : submask < submaskCnt M c) :
    hasBit (occupiedOf M c submask) c = false := by
  rw [occupiedOf_eq h]
  refine hasBit_deposit_notMem (fun hm => ?_) _
  rw [mem_extractAll, mask_self] at hm
  cases hm

theorem exists_submask (build : Build) (M : MagicType) (c : Square) (occupied : Bitboard) :
    ∃ s < submaskCnt M c, occupiedOf M c s = occupied &&& buildMagicMask M c ∧
      submaskIndex build M c s = lookupIndex build M c occupied := by
  have hlt : extract occupied (extractAll (buildMagicMask M c)) < submaskCnt M c := by
    rw [submaskCnt_eq]
    exact extract_lt _ _
  have hocc : occupiedOf M c (extract occupied (extractAll (buildMagicMask M c))) =
      occupied &&& buildMagicMask M c := by
    rw [occupiedOf_eq hlt]
    refine hasBit_ext fun i => ?_
    rw [hasBit_deposit_extract (extractAll_nodup _), hasBit_and, Bool.and_comm]
    simp only [mem_extractAll, Bool.decide_eq_true]
  refine ⟨_, hlt, hocc, ?_⟩
  cases build with
  | bmi2 => rfl
  | portable consts => rw [submaskIndex, lookupIndex, hocc]

end Index

section Fill

theorem hasBit_walkDirection (occupied : Bitboard) (d : Dir) (n : Nat) (p q : Square)
    (res : Bitboard) : hasBit (walkDirection occupied d (n + 1) p res) q = true ↔
      hasBit res q = true ∨ p = q ∨
        hasBit occupied p = false ∧ q ∈ scan (hasBit occupied) (walk d n p) := by
  induction n generalizing p res with
  | zero =>
    rw [walkDirection]
    cases offset d p with
    | none => simp [walk, scan, coordToBitboard]
    | some r => cases hasBit occupied p <;> simp [walk, scan, walkDirection, coordToBitboard]
  | succ n ih =>
    rw [walkDirection, walk]
    cases offset d p with
    | none => simp [scan, coordToBitboard]
    | some r =>
      cases hp : hasBit occupied p with
      | true => simp [coordToBitboard]
      | false =>
        simp only [Bool.false_eq_true, if_false, ih, scan, List.mem_cons, coordToBitboard,
          hasBit_or, hasBit_single, Bool.or_eq_true, decide_eq_true_eq, true_and, or_assoc]
        cases hasBit occupied r <;> simp [eq_comm (a := q)]

theorem hasBit_foldl_walkDirection (occupied : Bitboard) {c q : Square} (hcq : c ≠ q)
    (hc : hasBit occupied c = false) (ds : List Dir) (res : Bitboard) :
    hasBit (ds.foldl (fun res d => walkDirection occupied d 8 c res) res) q = true ↔
      hasBit res q = true ∨ ∃ d ∈ ds, q ∈ scan (hasBit occupied) (ray d c) := by
  induction ds generalizing res with
  | nil => simp
  | cons d ds ih =>
    rw [List.foldl_cons, ih, hasBit_walkDirection]
    simp [hcq, hc, ray, or_assoc]

theorem hasBit_foldl_update {ι : Type} (key : ι → Nat) (step : ι → Bitboard → Bitboard)
    (seen : ι → Prop) (ws : List ι) (table : Table) (j : Nat) (q : Square)
    (h : ∀ w ∈ ws, key w = j → ∀ res, hasBit (step w res) q = true ↔ hasBit res q = true ∨ seen w) :
    hasBit (ws.foldl (fun t w => Function.update t (key w) (step w (t (key w)))) table j) q = true ↔
      hasBit (table j) q = true ∨ ∃ w ∈ ws, key w = j ∧ seen w := by
  induction ws generalizing table with
  | nil => simp
  | cons w ws ih =>
    rw [List.foldl_cons, ih _ fun v hv => h v (List.mem_cons_of_mem w hv)]
    by_cases hw : key w = j
    · subst hw
      simp [h w (by simp) rfl, or_assoc]
    · simp [Function.update_of_ne (Ne.symm hw), hw]

theorem mem_submasks {M : MagicType} {w : Square × Nat} :
    w ∈ submasks M ↔ w.2 < submaskCnt M w.1 := by
  obtain ⟨c, s⟩ := w
  simp [submasks]

/-- What a slider on `c` sees: the cells of its rays up to and including the
first occupied one. -/
def Sees (M : MagicType) (occupied : Square → Bool) (c q : Square) : Prop :=
  ∃ d ∈ magicDirs M, q ∈ scan occupied (ray d c)

theorem sees_masked {M : MagicType} {occupied : Bitboard} {c q : Square} :
    Sees M (hasBit (occupied &&& buildMagicMask M c)) c q ↔ Sees M (hasBit occupied) c q := by
  refine exists_congr fun d => and_congr_right fun hd => ?_
  rw [mem_scan, mem_scan]
  refine and_congr_right fun hq => forall₂_congr fun u hu => ?_
  simp [inner_subset_mask hd hq hu]

theorem sees_of_offset {M : MagicType} (occupied : Square → Bool) {c q : Square} {d : Dir}
    (hd : d ∈ magicDirs M) (h : offset d c = some q) : Sees M occupied c q := by
  refine ⟨d, hd, ?_⟩
  rw [ray, walk, h]
  simp [scan]

theorem hasBit_initMagic (build : Build) (M : MagicType) (occupied : Bitboard) {c q : Square}
    (hq : hasBit (buildMagicPostMask M c) q = true) :
    hasBit (initMagic build M ((magicEntry M c).lookup + lookupIndex build M c occupied)) q = true ↔
      Sees M (hasBit occupied) c q := by
  obtain ⟨s, hs, hocc, hidx⟩ := exists_submask build M c occupied
  have hgroup : ∀ w ∈ submasks M, (magicEntry M w.1).lookup + submaskIndex build M w.1 w.2 =
      (magicEntry M c).lookup + lookupIndex build M c occupied →
      ∃ g ∈ groups M, c ∈ g ∧ w.1 ∈ g := fun w hw he =>
    same_group (lookupIndex_lt build M c occupied)
      (submaskIndex_lt build (mem_submasks.mp hw)) he.symm
  have hstep : ∀ w ∈ submasks M, (magicEntry M w.1).lookup + submaskIndex build M w.1 w.2 =
      (magicEntry M c).lookup + lookupIndex build M c occupied → ∀ res : Bitboard,
      hasBit ((magicDirs M).foldl (fun res d => walkDirection (occupiedOf M w.1 w.2) d 8 w.1 res)
        res &&& ~~~(coordToBitboard w.1)) q = true ↔
      hasBit res q = true ∨ Sees M (hasBit (occupiedOf M w.1 w.2)) w.1 q := by
    intro w hw he res
    obtain ⟨g, hg, hc, hw1⟩ := hgroup w hw he
    have hne : w.1 ≠ q := by
      rintro rfl
      rw [group_notMem_postMask hg hc hw1] at hq
      cases hq
    simp only [hasBit_and, hasBit_not, coordToBitboard, hasBit_single, hne, decide_false,
      Bool.not_false, Bool.and_true]
    exact hasBit_foldl_walkDirection _ hne (occupiedOf_self (mem_submasks.mp hw)) _ res
  have hfill := hasBit_foldl_update
    (fun w : Square × Nat => (magicEntry M w.1).lookup + submaskIndex build M w.1 w.2)
    (fun w res => (magicDirs M).foldl
      (fun res d => walkDirection (occupiedOf M w.1 w.2) d 8 w.1 res) res &&&
        ~~~(coordToBitboard w.1))
    (fun w => Sees M (hasBit (occupiedOf M w.1 w.2)) w.1 q) (submasks M) (fun _ => 0)
    ((magicEntry M c).lookup + lookupIndex build M c occupied) q hstep
  rw [hasBit_ofNat_zero] at hfill
  refine hfill.trans ⟨?_, fun h => Or.inr ⟨(c, s), mem_submasks.mpr hs, ?_, ?_⟩⟩
  · rintro (h | ⟨⟨c', s'⟩, hw, he, hseen⟩)
    · cases h
    obtain ⟨g, hg, hc, hc'⟩ := hgroup _ hw he
    by_cases hcc : c = c'
    · subst hcc
      have hs' : s' = s := submaskIndex_inj build (mem_submasks.mp hw) hs
        (by rw [hidx]; exact Nat.add_left_cancel he)
      dsimp only at hseen
      rw [hs', hocc] at hseen
      exact sees_masked.mp hseen
    · obtain ⟨d, hd, hscan⟩ := hseen
      obtain ⟨e, he, ho⟩ := group_rays hg hc hc' hcc hd ((mem_scan _).mp hscan).1 hq
      exact sees_of_offset _ he ho
  · rw [← hidx]
  · dsimp only
    rw [hocc]
    exact sees_masked.mpr h

end Fill

theorem hasBit_attackBitboard (build : Build) (M : MagicType) (occupied : Bitboard)
    (c q : Square) :
    hasBit (attackBitboard build M occupied c) q = true ↔ Sees M (hasBit occupied) c q := by
  rw [attackBitboard, hasBit_and, Bool.and_eq_true]
  constructor
  · rintro ⟨h, hq⟩
    exact (hasBit_initMagic build M occupied hq).mp h
  · intro h
    obtain ⟨d, hd, hscan⟩ := h
    have hq : hasBit (buildMagicPostMask M c) q = true :=
      mem_postMask hd ((mem_scan _).mp hscan).1
    exact ⟨(hasBit_initMagic build M occupied hq).mpr ⟨d, hd, hscan⟩, hq⟩

theorem attackBitboardMasked_eq (build : Build) (M : MagicType) (occupied : Bitboard) (c : Square)
    (postMask : Bitboard) : attackBitboardMasked build M occupied c postMask =
      attackBitboard build M occupied c &&& postMask := by
  rw [attackBitboardMasked, attackBitboard]
  split
  · rename_i h
    rw [BitVec.and_assoc, h]
    simp
  · rw [BitVec.and_assoc]

/-- The lengths of `g_rookLookup` and `g_bishopLookup`. -/
def lookupSize : MagicType → Nat
  | .rook => 65536
  | .bishop => 1792

theorem initOffsets_size (M : MagicType) : (initOffsets M).2 = lookupSize M := by
  cases M <;> decide +kernel

theorem lookup_add_lt {M : MagicType} {c : Square} {i : Nat} (hi : i < submaskCnt M c) :
    (magicEntry M c).lookup + i < lookupSize M := by
  obtain ⟨g, hg, hc⟩ := (groups_spec M).1 c
  have hfits := (initOffsets_blocks M).fits g hg c hc
  have hsize := submaskCnt_le_blockSize (M := M) hc
  rw [initOffsets_size] at hfits
  change (initOffsets M).1 c + i < lookupSize M
  omega

/-- The lookups of the sliders are walks along their rays, for either build, and no
index leaves the tables. -/
theorem attackBitboard_walks (build : Build) (M : MagicType) (c : Square) :
    (∀ occupied q, hasBit (attackBitboard build M occupied c) q = true ↔
        Sees M (hasBit occupied) c q) ∧
      (∀ occupied postMask, attackBitboardMasked build M occupied c postMask =
        attackBitboard build M occupied c &&& postMask) ∧
      (∀ occupied, (magicEntry M c).lookup + lookupIndex build M c occupied < lookupSize M) ∧
      ∀ submask, (c, submask) ∈ submasks M →
        (magicEntry M c).lookup + submaskIndex build M c submask < lookupSize M :=
  ⟨fun occupied q => hasBit_attackBitboard build M occupied c q,
    fun occupied postMask => attackBitboardMasked_eq build M occupied c postMask,
    fun occupied => lookup_add_lt (lookupIndex_lt build M c occupied),
    fun _ h => lookup_add_lt (submaskIndex_lt build (mem_submasks.mp h))⟩

end SoFCheck.Core.Magic
