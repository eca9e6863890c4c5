import SoFCheck.Core.Magic
import SoFCheck.Util.MultiplyShift

namespace SoFCheck.Core.MagicNumbers

open SoFCheck.Util.Bits SoFCheck.Util.Deposit SoFCheck.Util.MultiplyShift
open SoFCheck.Core.Types SoFCheck.Core.Magic

theorem validLoop_of_injOn {idx : Nat → Nat} {l : List Nat} {used : Nat → Bool} (hl : l.Nodup)
    (hused : ∀ s ∈ l, used (idx s) = false) (hinj : ∀ s ∈ l, ∀ t ∈ l, idx s = idx t → s = t) :
    validLoop idx l used = true := by
  induction l generalizing used with
  | nil => rfl
  | cons s l ih =>
    obtain ⟨hs, hl⟩ := List.nodup_cons.mp hl
    rw [validLoop, hused s (List.mem_cons_self ..), if_neg (by decide)]
    apply ih hl
    · intro t ht
      have hne : idx t ≠ idx s := fun he =>
        hs (hinj s (List.mem_cons_self ..) t (List.mem_cons_of_mem s ht) he.symm ▸ ht)
      rw [Function.update_of_ne hne]
      exact hused t (List.mem_cons_of_mem s ht)
    · exact fun t ht u hu => hinj t (List.mem_cons_of_mem s ht) u (List.mem_cons_of_mem s hu)

theorem isValidMagic_of_spread {M : MagicType} {c : Square} {magic : BitVec 64}
    (h : Spread magic (getMagicMaskBitSize M c)
      ((List.finRange 64).filter fun i => hasBit (buildMagicMask M c) i)) :
    isValidMagic M c magic = true := by
  rw [← extractAll_eq_filter] at h
  have hindex : ∀ s < submaskCnt M c, magicIndex M c magic (depositBits (BitVec.ofNat 64 s)
      (buildMagicMask M c)) = ((deposit (extractAll (buildMagicMask M c)) s * magic) >>>
        (64 - getMagicMaskBitSize M c)).toNat := by
    intro s hs
    rw [magicIndex, ← occupiedOf_eq hs, occupiedOf]
  apply validLoop_of_injOn List.nodup_range
  · exact fun _ _ => rfl
  · intro s hs t ht he
    rw [List.mem_range] at hs ht
    rw [hindex s hs, hindex t ht] at he
    rw [submaskCnt_eq] at hs ht
    exact index_inj (getMagicMaskBitSize_le M c) (extractAll_nodup _) h hs ht he

/-- Multipliers with few bits, each of which brings some bits of the mask into the index. -/
def rookMagics : List (BitVec 64) :=
  [
    0x80001020400080, 0x40001000200040, 0x80081000200080, 0x80040800100080,
    0x80020400080080, 0x80010200040080, 0x80008001000200, 0x80002040800100,
    0x800020400080, 0x400020005000, 0x801000200080, 0x800800100080,
    0x800400080080, 0x800200040080, 0x800100020080, 0x800040800100,
    0x208000400080, 0x210040008100, 0x110020004100, 0x90010002100,
    0x50008001100, 0x80104102040, 0x10100020004, 0x20000408104,
    0x208080004000, 0x200040005000, 0x100080200080, 0x80080100080,
    0x40080080080, 0x20080040080, 0x10080800200, 0x4200008104,
    0x204000800080, 0x200040401000, 0x100080802000, 0x80080801000,
    0x40080800800, 0x20080800400, 0x10204000810, 0x4082000104,
    0x204000808000, 0x200040008080, 0x100020008080, 0x80010008080,
    0x40008008080, 0x20004008080, 0x10002008080, 0x4081020004,
    0x204000800080, 0x200040008080, 0x100020008080, 0x80010008080,
    0x40008008080, 0x20004008080, 0x10208100400, 0x4081040200,
    0x102040800101, 0x102040008101, 0x81020004101, 0x40810002101,
    0xc201000664480011, 0xc201000664001801, 0x8102081004, 0x2040810402]

def bishopMagics : List (BitVec 64) :=
  [
    0x2020202020200, 0x2020202020000, 0x4010202000000, 0x20a0200000000,
    0x1104000000000, 0x821040000000, 0x410410400000, 0x104104104000,
    0x40404040400, 0x20202020200, 0x40102020000, 0x20a02000000,
    0x11040000000, 0x8210400000, 0x4104104000, 0x2082082000,
    0x4000808080800, 0x2000404040400, 0x1000202020200, 0x800410220000,
    0x800400a00000, 0x200100884000, 0x400082082000, 0x200041041000,
    0x2080010101000, 0x1040008080800, 0x208004010400, 0x404004010200,
    0x404004010040, 0x404002011000, 0x808001041000, 0x404000820800,
    0x1041000202000, 0x820800101000, 0x104400080800, 0x20080080080,
    0x404040040100, 0x808100020100, 0x1010100020800, 0x808080010400,
    0x820820004000, 0x410410002000, 0x82088001000, 0xa44000800,
    0x10122000400, 0x1010101000200, 0x2020202000400, 0x1010101000200,
    0x410410400000, 0x208208200000, 0x2084100000, 0x20880000,
    0x405040000, 0x40408020000, 0x4040404040000, 0x2020202020000,
    0x104104104000, 0x2082082000, 0x20841000, 0x208800,
    0x4050400, 0x404080200, 0x40404040400, 0x2020202020200]

def sparseMagics (M : MagicType) (c : Square) : BitVec 64 :=
  match M with
  | .rook => rookMagics.getD c 0
  | .bishop => bishopMagics.getD c 0

theorem spread_sparseMagics (M : MagicType) (c : Square) :
    Spread (sparseMagics M c) (getMagicMaskBitSize M c)
      ((List.finRange 64).filter fun i => hasBit (buildMagicMask M c) i) := by
  have hall : ∀ M ∈ [MagicType.rook, .bishop], ∀ c : Square, Spread (sparseMagics M c)
      (getMagicMaskBitSize M c)
      ((List.finRange 64).filter fun i => hasBit (buildMagicMask M c) i) := by
    decide +kernel
  apply hall
  cases M <;> simp

/-- Constants that the search of the generator may find. -/
def sparseConsts : MagicConsts where
  magics := sparseMagics
  valid M c := isValidMagic_of_spread (spread_sparseMagics M c)

end SoFCheck.Core.MagicNumbers
