import Mathlib

namespace SoFCheck.Eval.Score

/-- `score_t` has 16 bits; the arithmetic is done in `int` and narrowed afterwards. -/
def toScore (x : Int) : Int := x.bmod (2 ^ 16)

def scoreInf : Int := 32767

def scoreCheckmateThreshold : Int := 28000

def scoreCheckmate : Int := 30000

def scoreCheckmateLose (plies : Int) : Int := toScore (plies - scoreCheckmate)

/-- A checkmate score is as many plies nearer or farther as `delta` says. -/
def adjustCheckmate (score delta : Int) : Int :=
  if scoreCheckmateThreshold ≤ score then toScore (score - delta)
  else if -scoreCheckmateThreshold < score then score
  else toScore (score + delta)

theorem toScore_eq {x : Int} (h : -32768 ≤ x) (h' : x ≤ 32767) : toScore x = x := by
  rw [toScore, Int.bmod_eq_of_le] <;> omega

theorem toScore_neg (x : Int) :
    toScore (-x) = -toScore x - if toScore x = -32768 then 65536 else 0 := by
  unfold toScore
  simp only [Int.bmod_def]
  split_ifs <;> omega

/-- Two scores in one number of 32 bits. -/
structure ScorePair where
  value : BitVec 32
  deriving DecidableEq

namespace ScorePair

/-- `ScorePair::from` of two scores. -/
def from2 (first second : Int) : ScorePair := ⟨BitVec.ofInt 32 (second * 0x10000 + first)⟩

def from1 (score : Int) : ScorePair := from2 score score

def first (p : ScorePair) : Int := (p.value.setWidth 16).toInt

def second (p : ScorePair) : Int :=
  let unsignedRes := (p.value >>> 16).setWidth 16
  (if p.first < 0 then unsignedRes + 1 else unsignedRes).toInt

instance : Add ScorePair := ⟨fun p q => ⟨p.value + q.value⟩⟩

instance : Sub ScorePair := ⟨fun p q => ⟨p.value - q.value⟩⟩

instance : Neg ScorePair := ⟨fun p => ⟨-p.value⟩⟩

/-- The product with a scalar, an `int32_t`. -/
instance : HMul ScorePair (BitVec 32) ScorePair := ⟨fun p k => ⟨p.value * k⟩⟩

@[simp] theorem value_add (p q : ScorePair) : (p + q).value = p.value + q.value := rfl

@[simp] theorem value_sub (p q : ScorePair) : (p - q).value = p.value - q.value := rfl

@[simp] theorem value_neg (p : ScorePair) : (-p).value = -p.value := rfl

@[simp] theorem value_mul (p : ScorePair) (k : BitVec 32) : (p * k).value = p.value * k := rfl

theorem value_from2_neg (x y : Int) : (from2 (toScore (-x)) (toScore (-y))).value =
    -(from2 (toScore x) (toScore y)).value - if toScore x = -32768 then 65536 else 0 := by
  have hcast : ∀ a b : Int, -BitVec.ofInt 32 a - BitVec.ofInt 32 b = BitVec.ofInt 32 (-a - b) := by
    intro a b
    rw [Int.sub_eq_add_neg, BitVec.ofInt_add, BitVec.ofInt_neg, BitVec.ofInt_neg,
      BitVec.sub_eq_add_neg]
  have hpair : toScore (-y) * 0x10000 + toScore (-x) = -(toScore y * 0x10000 + toScore x) -
      ((if toScore y = -32768 then 4294967296 else 0) +
        if toScore x = -32768 then 65536 else 0) := by
    rw [toScore_neg x, toScore_neg y]
    split_ifs <;> omega
  rw [from2, from2, hpair, ← hcast]
  split_ifs <;> rfl

theorem value_injective : Function.Injective ScorePair.value := fun p q h => by
  cases p
  cases q
  exact congrArg ScorePair.mk h

section Halves

variable {x y : Int}

/-- A number that a half of a pair can hold. -/
def InHalf (x : Int) : Prop := -32768 ≤ x ∧ x ≤ 32767

instance (x : Int) : Decidable (InHalf x) := inferInstanceAs (Decidable (_ ∧ _))

theorem first_from2 (h : InHalf x) : (from2 x y).first = x := by
  obtain ⟨hlo, hhi⟩ := h
  have hlow : ((from2 x y).value.setWidth 16).toInt = (y * 0x10000 + x).bmod (2 ^ 16) := by
    rw [from2, BitVec.toInt_setWidth, BitVec.toNat_ofInt]
    simp only [Int.bmod_def]
    omega
  rw [first, hlow, Int.bmod_def]
  split_ifs <;> omega

theorem second_from2 (h : InHalf x) (h' : InHalf y) : (from2 x y).second = y := by
  rw [second, first_from2 h]
  obtain ⟨hlo, hhi⟩ := h
  obtain ⟨hlo', hhi'⟩ := h'
  have hhigh : (((from2 x y).value >>> 16).setWidth 16).toNat =
      ((y * 0x10000 + x) % 2 ^ 32).toNat / 2 ^ 16 := by
    rw [from2, BitVec.toNat_setWidth, BitVec.toNat_ushiftRight, BitVec.toNat_ofInt,
      Nat.shiftRight_eq_div_pow]
    omega
  have hone : (1 : BitVec 16).toNat = 1 := rfl
  split
  · rw [BitVec.toInt_eq_toNat_bmod, BitVec.toNat_add, hhigh, hone, Int.bmod_def]
    split_ifs <;> omega
  · rw [BitVec.toInt_eq_toNat_bmod, hhigh, Int.bmod_def]
    split_ifs <;> omega

end Halves

section Expressions

/-- What is computed from pairs of scores with the operators. -/
inductive Expr where
  | pair (first second : Int16)
  | add (e e' : Expr)
  | sub (e e' : Expr)
  | neg (e : Expr)
  | mul (e : Expr) (k : BitVec 32)

namespace Expr

def eval : Expr → ScorePair
  | pair first second => from2 first.toInt second.toInt
  | add e e' => e.eval + e'.eval
  | sub e e' => e.eval - e'.eval
  | neg e => -e.eval
  | mul e k => e.eval * k

/-- The same with a pair of integers. -/
def exact : Expr → Int × Int
  | pair first second => (first.toInt, second.toInt)
  | add e e' => e.exact + e'.exact
  | sub e e' => e.exact - e'.exact
  | neg e => -e.exact
  | mul e k => (e.exact.1 * k.toInt, e.exact.2 * k.toInt)

theorem value_eval (e : Expr) : e.eval = from2 e.exact.1 e.exact.2 := by
  apply value_injective
  induction e with
  | pair first second => rfl
  | add e e' ih ih' =>
    rw [eval, value_add, ih, ih', from2, from2, from2, ← BitVec.ofInt_add]
    refine congrArg (BitVec.ofInt 32) ?_
    rw [exact, Prod.fst_add, Prod.snd_add]
    ring
  | sub e e' ih ih' =>
    rw [eval, value_sub, ih, ih', from2, from2, from2, BitVec.sub_eq_add_neg, ← BitVec.ofInt_neg,
      ← BitVec.ofInt_add]
    refine congrArg (BitVec.ofInt 32) ?_
    rw [exact, Prod.fst_sub, Prod.snd_sub]
    ring
  | neg e ih =>
    rw [eval, value_neg, ih, from2, from2, ← BitVec.ofInt_neg]
    refine congrArg (BitVec.ofInt 32) ?_
    rw [exact, Prod.fst_neg, Prod.snd_neg]
    ring
  | mul e k ih =>
    have hk : BitVec.ofInt 32 k.toInt = k := BitVec.ofInt_toInt
    rw [eval, value_mul, ih, from2, from2, ← hk, ← BitVec.ofInt_mul, hk]
    refine congrArg (BitVec.ofInt 32) ?_
    rw [exact]
    ring

/-- The halves of the result are exact when they fit, also after an overflow, which
wraps here. -/
theorem halves_eval (e : Expr) (h : InHalf e.exact.1) (h' : InHalf e.exact.2) :
    e.eval.first = e.exact.1 ∧ e.eval.second = e.exact.2 := by
  rw [value_eval]
  exact ⟨first_from2 h, second_from2 h h'⟩

/-- The sign of the low half changes on the way. -/
theorem halves_eval_borrow :
    let e : Expr := .sub (.mul (.pair (-3) 8) 41) (.neg (.add (.pair 1000 (-8000)) (.pair (-1) 5)))
    e.eval.first = 876 ∧ e.eval.second = -7667 :=
  halves_eval _ (by decide) (by decide)

end Expr

end Expressions

end ScorePair

end SoFCheck.Eval.Score
