import SoFCheck.Util.Imperative

namespace SoFCheck.Util.Imperative

variable {κ κ' ν μ α β ι ω σ ρ : Type} {A : κ → Type} {B : κ' → Type}

/-- The answers to the questions of two kinds. -/
abbrev Joint {κ κ' : Type} (A : κ → Type) (B : κ' → Type) : κ ⊕ κ' → Type
  | .inl q => A q
  | .inr q => B q

namespace Contract

/-- Two contracts at once. -/
def both (K K' : Contract A ν) : Contract A ν where
  guar v q := K.guar v q ∧ K'.guar v q
  rely v q a v' := K.rely v q a v' ∧ K'.rely v q a v'
  mayStick := K.mayStick ∧ K'.mayStick

/-- A contract that counts under a condition only. -/
def given (P : Prop) (K : Contract A ν) : Contract A ν where
  guar v q := P → K.guar v q
  rely v q a v' := P → K.rely v q a v'
  mayStick := P → K.mayStick

theorem Path.of_rely {K K' : Contract A ν} {v v' : ν} {l : List (Sigma A)} (h : K.Path v l v')
    (hrely : ∀ v q a v', K.rely v q a v' → K'.rely v q a v') : K'.Path v l v' := by
  induction h with
  | nil v => exact .nil v
  | cons hr _ ih => exact .cons (hrely _ _ _ _ hr) ih

end Contract

namespace Dialogue

variable {K K' : Contract A ν} {Q Q' : ν → α → Prop} {v : ν} {t : Dialogue A α}

theorem Keeps.both (h : t.Keeps K Q v) (h' : t.Keeps K' Q' v) :
    t.Keeps (K.both K') (fun v a => Q v a ∧ Q' v a) v := by
  induction t generalizing v with
  | done a => exact ⟨h, h'⟩
  | stuck => exact ⟨h, h'⟩
  | ask q k ih =>
    exact ⟨⟨h.1, h'.1⟩, fun a v' hr => ih a (h.2 a v' hr.1) (h'.2 a v' hr.2)⟩

theorem Keeps.given {P : Prop} (h : P → t.Keeps K Q v) :
    t.Keeps (K.given P) (fun v a => P → Q v a) v := by
  induction t generalizing v with
  | done a => exact h
  | stuck => exact h
  | ask q k ih =>
    exact ⟨fun hP => (h hP).1, fun a v' hr => ih a fun hP => (h hP).2 a v' (hr hP)⟩

theorem Keeps.adapt (hguar : ∀ v q, K.guar v q → K'.guar v q)
    (hrely : ∀ v q a v', K'.rely v q a v' → K.rely v q a v') (hstick : K.mayStick → K'.mayStick)
    (h : t.Keeps K Q v) : t.Keeps K' Q v := by
  induction t generalizing v with
  | done a => exact h
  | stuck => exact hstick h
  | ask q k ih => exact ⟨hguar v q h.1, fun a v' hr => ih a (h.2 a v' (hrely v q a v' hr))⟩

/-- A thread that may ask more questions, but does not. -/
def left (B : κ' → Type) : Dialogue A α → Dialogue (Joint A B) α
  | done a => done a
  | stuck => stuck
  | ask q k => ask (κ := κ ⊕ κ') (A := Joint A B) (.inl q) fun a => (k a).left B

/-- The larger contract has a ghost of its own. It follows that of the smaller one, as `I` says, until
the smaller contract is off. -/
theorem Keeps.left {L : Contract (Joint A B) μ} {I : ν → μ → Prop} {O : μ → Prop} {u : μ}
    (hguar : ∀ v u q, I v u → K.guar v q → L.guar u (.inl q))
    (hrely : ∀ v u q (a : A q) u', I v u → K.guar v q → L.rely u (.inl q) a u' →
      (∃ v', K.rely v q a v' ∧ I v' u') ∨ O u')
    (hoff : ∀ u q, O u → L.guar u (.inl q) ∧ ∀ (a : A q) u', L.rely u (.inl q) a u' → O u')
    (hstick : L.mayStick) (h : (∃ v, I v u ∧ t.Keeps K Q v) ∨ O u) :
    (t.left B).Keeps L (fun u a => (∃ v, I v u ∧ Q v a) ∨ O u) u := by
  induction t generalizing u with
  | done a => exact h
  | stuck => exact hstick
  | ask q k ih =>
    obtain ⟨v, hI, hq, hk⟩ | hu := h
    · refine ⟨hguar v u q hI hq, fun a u' hr => ih a ?_⟩
      obtain ⟨v', hr', hI'⟩ | hu' := hrely v u q a u' hI hq hr
      · exact Or.inl ⟨v', hI', hk a v' hr'⟩
      · exact Or.inr hu'
    · obtain ⟨hq, hk⟩ := hoff u q hu
      exact ⟨hq, fun a u' hr => ih a (Or.inr (hk a u' hr))⟩

end Dialogue

namespace Program

variable {m : Program A σ ρ α} {K K' : Contract A ν} {v : ν} {s : σ}
variable {Q Q' : α → ν → σ → Prop} {R R' : ρ → ν → σ → Prop}

theorem wp_both (h : wp K m Q R v s) (h' : wp K' m Q' R' v s) :
    wp (K.both K') m (fun a v s => Q a v s ∧ Q' a v s) (fun r v s => R r v s ∧ R' r v s) v s := by
  refine (Dialogue.Keeps.both h h').mono fun v' out hout => ?_
  obtain ⟨out, s'⟩ := out
  cases out with
  | ok a => exact hout
  | error r => exact hout

theorem wp_given {P : Prop} (h : P → wp K m Q R v s) :
    wp (K.given P) m (fun a v s => P → Q a v s) (fun r v s => P → R r v s) v s := by
  refine (Dialogue.Keeps.given h).mono fun v' out hout => ?_
  obtain ⟨out, s'⟩ := out
  cases out with
  | ok a => exact hout
  | error r => exact hout

theorem wp_adapt (hguar : ∀ v q, K.guar v q → K'.guar v q)
    (hrely : ∀ v q a v', K'.rely v q a v' → K.rely v q a v') (hstick : K.mayStick → K'.mayStick)
    (h : wp K m Q R v s) : wp K' m Q R v s := Dialogue.Keeps.adapt hguar hrely hstick h

theorem wp_and (h : wp K m Q R v s) (h' : wp K m Q' R' v s) :
    wp K m (fun a v s => Q a v s ∧ Q' a v s) (fun r v s => R r v s ∧ R' r v s) v s := by
  have hboth : wp (K.both K) m (fun a v s => Q a v s ∧ Q' a v s) (fun r v s => R r v s ∧ R' r v s) v s :=
    wp_both h h'
  refine wp_adapt ?_ ?_ ?_ hboth
  · exact fun _ _ hq => hq.1
  · exact fun _ _ _ _ hr => ⟨hr, hr⟩
  · exact fun hstick => hstick.1

def left (B : κ' → Type) (m : Program A σ ρ α) : Program (Joint A B) σ ρ α :=
  fun s => (m s).left B

theorem wp_left {L : Contract (Joint A B) μ} {I : ν → μ → Prop} {O : μ → Prop} {u : μ}
    (hguar : ∀ v u q, I v u → K.guar v q → L.guar u (.inl q))
    (hrely : ∀ v u q (a : A q) u', I v u → K.guar v q → L.rely u (.inl q) a u' →
      (∃ v', K.rely v q a v' ∧ I v' u') ∨ O u')
    (hoff : ∀ u q, O u → L.guar u (.inl q) ∧ ∀ (a : A q) u', L.rely u (.inl q) a u' → O u')
    (hstick : L.mayStick) (hI : I v u) (h : wp K m Q R v s) :
    wp L (m.left B) (fun a u s => (∃ v, I v u ∧ Q a v s) ∨ O u)
      (fun r u s => (∃ v, I v u ∧ R r v s) ∨ O u) u s := by
  have hkeeps := Dialogue.Keeps.left hguar hrely hoff hstick (Or.inl ⟨v, hI, h⟩)
  refine hkeeps.mono fun u out hout => ?_
  obtain ⟨out, s'⟩ := out
  cases out with
  | ok a => exact hout
  | error r => exact hout

end Program

section Pool

/-- Threads that share a state. -/
structure Pool (ι : Type) {κ : Type} (A : κ → Type) (α ω : Type) where
  shared : ω
  threads : ι → Dialogue A α

variable [DecidableEq ι]

/-- One thread gets an answer, or something else happens to the shared state. -/
inductive Pool.Step (answers : ω → ι → (q : κ) → A q → ω → Prop)
    (other : Pool ι A α ω → ω → Prop) : Pool ι A α ω → Pool ι A α ω → Prop
  | answer {p : Pool ι A α ω} {i : ι} {q : κ} {k : A q → Dialogue A α} {a : A q} {w : ω}
      (hask : p.threads i = .ask q k) (ha : answers p.shared i q a w) :
      Step answers other p ⟨w, Function.update p.threads i (k a)⟩
  | other {p : Pool ι A α ω} {w : ω} (h : other p w) : Step answers other p ⟨w, p.threads⟩

/-- Every thread keeps to the contract from its own ghost state. -/
structure Pool.Kept (K : Contract A ν) (Q : ν → α → Prop) (I : ω → (ι → ν) → Prop)
    (p : Pool ι A α ω) (v : ι → ν) : Prop where
  shared : I p.shared v
  threads : ∀ i, (p.threads i).Keeps K Q (v i)

variable {answers : ω → ι → (q : κ) → A q → ω → Prop} {other : Pool ι A α ω → ω → Prop}
variable {K : Contract A ν} {Q : ν → α → Prop} {I : ω → (ι → ν) → Prop} {p p' : Pool ι A α ω}

theorem Pool.Kept.step
    (hanswer : ∀ v i q a, I p.shared v → K.guar (v i) q → answers p.shared i q a p'.shared →
      ∃ v', K.rely (v i) q a v' ∧ I p'.shared (Function.update v i v'))
    (hother : ∀ v, p.Kept K Q I v → other p p'.shared → I p'.shared v) {v : ι → ν}
    (h : p.Kept K Q I v) (hs : Pool.Step answers other p p') : ∃ v', p'.Kept K Q I v' := by
  cases hs with
  | @answer i q k a w hask ha =>
    have hkeeps := h.threads i
    rw [hask] at hkeeps
    obtain ⟨v', hr, hI⟩ := hanswer v i q a h.shared hkeeps.1 ha
    refine ⟨Function.update v i v', hI, fun j => ?_⟩
    dsimp only
    by_cases hj : j = i
    · subst hj
      rw [Function.update_self, Function.update_self]
      exact hkeeps.2 a v' hr
    · rw [Function.update_of_ne hj, Function.update_of_ne hj]
      exact h.threads j
  | other hw => exact ⟨v, hother v h hw, h.threads⟩

theorem Pool.Kept.run {E : ω → Prop}
    (hback : ∀ p p', Pool.Step answers other p p' → E p'.shared → E p.shared)
    (hanswer : ∀ w v i q a w', E w' → I w v → K.guar (v i) q → answers w i q a w' →
      ∃ v', K.rely (v i) q a v' ∧ I w' (Function.update v i v'))
    (hother : ∀ p v w, Pool.Kept K Q I p v → other p w → I w v) {v : ι → ν}
    (h : p.Kept K Q I v) (hs : Relation.ReflTransGen (Pool.Step answers other) p p')
    (hE : E p'.shared) : ∃ v', p'.Kept K Q I v' := by
  induction hs with
  | refl => exact ⟨v, h⟩
  | tail _ hs ih =>
    obtain ⟨v', h'⟩ := ih (hback _ _ hs hE)
    exact h'.step (fun v i q a => hanswer _ v i q a _ hE) (fun v hkept => hother _ v _ hkept) hs

end Pool

end SoFCheck.Util.Imperative
