import SoFCheck.Core.Moves
import SoFCheck.Eval.Score

namespace SoFCheck.Search.TableData

open SoFCheck.Core.Moves

/-- `PositionCostBound`, as it is kept in the flags of an entry. -/
inductive PositionCostBound where
  | exact
  | lowerbound
  | upperbound
  deriving DecidableEq

def PositionCostBound.toBits : PositionCostBound → BitVec 8
  | .exact => 0
  | .lowerbound => 1
  | .upperbound => 2

def flagIsValid : BitVec 8 := 8

/-- Transposition table entry which contains a search result for some position. -/
structure Data where
  move_ : Move
  score_ : BitVec 16
  flags_ : BitVec 8
  epoch_ : BitVec 8
  deriving DecidableEq

namespace Data

def zero : Data := ⟨Move.null, 0, 0, 0⟩

def of (move : Move) (score depth : Int) (bound : PositionCostBound) : Data :=
  ⟨{ move with tag := BitVec.ofInt 8 depth }, BitVec.ofInt 16 score, bound.toBits ||| flagIsValid, 0⟩

def move (d : Data) : Move := { d.move_ with tag := 0 }

def score (d : Data) : Int := d.score_.toInt

def depth (d : Data) : Int := d.move_.tag.toNat

def isValid (d : Data) : Bool := d.flags_ &&& flagIsValid != 0

/-- The bits of the bound; three is none of the bounds. -/
def bound (d : Data) : BitVec 8 := d.flags_ &&& 3

section Of

variable (move : Move) (score depth : Int) (bound : PositionCostBound)

theorem isValid_of : (of move score depth bound).isValid = true := by
  have hflags : ((bound.toBits ||| flagIsValid) &&& flagIsValid != 0) = true := by
    cases bound <;> decide
  exact hflags

theorem bound_of : (of move score depth bound).bound = bound.toBits := by
  have hflags : (bound.toBits ||| flagIsValid) &&& 3 = bound.toBits := by
    cases bound <;> decide
  exact hflags

end Of

/-- The entry as a number. -/
def asUint (d : Data) : BitVec 64 :=
  d.move_.asUint.setWidth 64 ||| d.score_.setWidth 64 <<< 32 ||| d.flags_.setWidth 64 <<< 48 |||
    d.epoch_.setWidth 64 <<< 56

theorem asUint_fields (d : Data) :
    d.asUint.extractLsb' 0 8 = BitVec.ofNat 8 d.move_.kind.toNat ∧
      d.asUint.extractLsb' 8 8 = d.move_.src.toBitVec ∧
      d.asUint.extractLsb' 16 8 = d.move_.dst.toBitVec ∧
      d.asUint.extractLsb' 24 8 = d.move_.tag ∧ d.asUint.extractLsb' 32 16 = d.score_ ∧
      d.asUint.extractLsb' 48 8 = d.flags_ ∧ d.asUint.extractLsb' 56 8 = d.epoch_ := by
  have hpack : ∀ (k s t g f e : BitVec 8) (c : BitVec 16),
      let x : BitVec 64 := (k.setWidth 32 ||| s.setWidth 32 <<< 8 ||| t.setWidth 32 <<< 16 |||
        g.setWidth 32 <<< 24).setWidth 64 ||| c.setWidth 64 <<< 32 ||| f.setWidth 64 <<< 48 |||
        e.setWidth 64 <<< 56
      x.extractLsb' 0 8 = k ∧ x.extractLsb' 8 8 = s ∧ x.extractLsb' 16 8 = t ∧
        x.extractLsb' 24 8 = g ∧ x.extractLsb' 32 16 = c ∧ x.extractLsb' 48 8 = f ∧
        x.extractLsb' 56 8 = e := by
    intro k s t g f e c
    refine ⟨?_, ?_, ?_, ?_, ?_, ?_, ?_⟩
    all_goals
      apply BitVec.eq_of_getLsbD_eq
      intro i hi
      simp only [BitVec.getLsbD_extractLsb', BitVec.getLsbD_or, BitVec.getLsbD_setWidth,
        BitVec.getLsbD_shiftLeft]
      interval_cases i <;> simp
  exact hpack _ _ _ _ _ _ _

theorem asUint_injective : Function.Injective asUint := by
  intro d d' h
  obtain ⟨hk, hs, ht, hg, hc, hf, he⟩ := asUint_fields d
  obtain ⟨hk', hs', ht', hg', hc', hf', he'⟩ := asUint_fields d'
  rw [h] at hk hs ht hg hc hf he
  have hkind : d.move_.kind = d'.move_.kind := by
    have hkinds : ∀ k k' : MoveKind, BitVec.ofNat 8 k.toNat = BitVec.ofNat 8 k'.toNat → k = k' := by
      intro k k'
      cases k <;> cases k' <;> decide
    exact hkinds _ _ (hk.symm.trans hk')
  have hsrc : d.move_.src = d'.move_.src := Int8.toBitVec_inj.mp (hs.symm.trans hs')
  have hdst : d.move_.dst = d'.move_.dst := Int8.toBitVec_inj.mp (ht.symm.trans ht')
  have htag : d.move_.tag = d'.move_.tag := hg.symm.trans hg'
  obtain ⟨⟨kind, src, dst, tag⟩, score, flags, epoch⟩ := d
  obtain ⟨⟨kind', src', dst', tag'⟩, score', flags', epoch'⟩ := d'
  simp only at hkind hsrc hdst htag hc hc' hf hf' he he'
  subst hkind hsrc hdst htag hc hf he
  rw [hc', hf', he']

end Data

end SoFCheck.Search.TableData
