import Mathlib

namespace SoFCheck.Util.Imperative

variable {κ ν σ ρ α β ι : Type} {A : κ → Type}

/-- What a thread has still to do. It asks the world outside, which other threads
change as well, and goes on with the answer. -/
inductive Dialogue {κ : Type} (A : κ → Type) (α : Type) : Type where
  | done (a : α)
  | stuck
  | ask (q : κ) (k : A q → Dialogue A α)

/-- What a thread may ask, what answers it is promised, and whether it may get stuck.
The state is a ghost that remembers what was said. -/
structure Contract {κ : Type} (A : κ → Type) (ν : Type) where
  guar : ν → κ → Prop
  rely : ν → (q : κ) → A q → ν → Prop
  mayStick : Prop

namespace Dialogue

def bind : Dialogue A α → (α → Dialogue A β) → Dialogue A β
  | done a, f => f a
  | stuck, _ => stuck
  | ask q k, f => ask q fun a => (k a).bind f

/-- The conversation `l` leads from one point to another. -/
inductive Leads : Dialogue A α → List (Sigma A) → Dialogue A α → Prop
  | refl (t : Dialogue A α) : Leads t [] t
  | ask {q : κ} {k : A q → Dialogue A α} (a : A q) {l : List (Sigma A)} {t : Dialogue A α}
      (h : Leads (k a) l t) : Leads (ask q k) (⟨q, a⟩ :: l) t

theorem Leads.trans {t t' t'' : Dialogue A α} {l l' : List (Sigma A)} (h : t.Leads l t')
    (h' : t'.Leads l' t'') : t.Leads (l ++ l') t'' := by
  induction h with
  | refl t => exact h'
  | ask a h ih => exact Leads.ask a (ih h')

theorem Leads.bind {t t' : Dialogue A α} {l : List (Sigma A)} (h : t.Leads l t')
    (f : α → Dialogue A β) : (t.bind f).Leads l (t'.bind f) := by
  induction h with
  | refl t => exact Leads.refl _
  | ask a h ih => exact Leads.ask a ih

theorem Leads.split {t t'' : Dialogue A α} {l l' : List (Sigma A)} (h : t.Leads (l ++ l') t'') :
    ∃ t', t.Leads l t' ∧ t'.Leads l' t'' := by
  induction l generalizing t with
  | nil => exact ⟨t, Leads.refl t, h⟩
  | cons e l ih =>
    cases h with
    | ask a h =>
      obtain ⟨t', hl, hl'⟩ := ih h
      exact ⟨t', Leads.ask a hl, hl'⟩

theorem exists_end (t : Dialogue A α) (env : List (Sigma A) → (q : κ) → A q) :
    ∃ l t', t.Leads l t' ∧ (∀ l₁ q a l₂, l = l₁ ++ ⟨q, a⟩ :: l₂ → a = env l₁ q) ∧
      (t' = stuck ∨ ∃ a, t' = done a) := by
  induction t generalizing env with
  | done a => exact ⟨[], done a, Leads.refl _, by simp, Or.inr ⟨a, rfl⟩⟩
  | stuck => exact ⟨[], stuck, Leads.refl _, by simp, Or.inl rfl⟩
  | ask q k ih =>
    obtain ⟨l, t', hl, henv, hend⟩ := ih (env [] q) fun l => env (⟨q, env [] q⟩ :: l)
    refine ⟨_, t', Leads.ask _ hl, fun l₁ q' a l₂ he => ?_, hend⟩
    cases l₁ with
    | nil =>
      obtain ⟨he, -⟩ := List.cons.inj he
      cases he
      rfl
    | cons e l₁ =>
      obtain ⟨hfirst, hrest⟩ := List.cons.inj he
      subst hfirst
      exact henv l₁ q' a l₂ hrest

/-- The first questions of a thread whose answers are known beforehand. -/
def converse (reply : (q : κ) → A q) : (turns : Nat) → Dialogue A α → List (Sigma A)
  | turns + 1, ask q k => ⟨q, reply q⟩ :: converse reply turns (k (reply q))
  | _, _ => []

theorem leads_converse (reply : (q : κ) → A q) (turns : Nat) (t : Dialogue A α) :
    ∃ t', t.Leads (t.converse reply turns) t' := by
  induction turns generalizing t with
  | zero => exact ⟨t, Leads.refl t⟩
  | succ turns ih =>
    cases t with
    | done a => exact ⟨_, Leads.refl _⟩
    | stuck => exact ⟨_, Leads.refl _⟩
    | ask q k =>
      obtain ⟨t', h⟩ := ih (k (reply q))
      exact ⟨t', Leads.ask (reply q) h⟩

theorem eq_reply_of_mem {reply : (q : κ) → A q} {turns : Nat} {t : Dialogue A α} {e : Sigma A}
    (h : e ∈ t.converse reply turns) : e.2 = reply e.1 := by
  induction turns generalizing t with
  | zero => cases h
  | succ turns ih =>
    cases t with
    | done a => cases h
    | stuck => cases h
    | ask q k =>
      cases h with
      | head => rfl
      | tail _ h => exact ih h

variable (K : Contract A ν)

/-- The thread keeps to the contract and ends with `Q`, if it ends. -/
def Keeps (Q : ν → α → Prop) : Dialogue A α → ν → Prop
  | done a, v => Q v a
  | stuck, _ => K.mayStick
  | ask q k, v => K.guar v q ∧ ∀ a v', K.rely v q a v' → Keeps Q (k a) v'

variable {K} {Q Q' : ν → α → Prop} {v : ν}

theorem Keeps.mono {t : Dialogue A α} (h : t.Keeps K Q v) (hQ : ∀ v a, Q v a → Q' v a) :
    t.Keeps K Q' v := by
  induction t generalizing v with
  | done a => exact hQ v a h
  | stuck => exact h
  | ask q k ih => exact ⟨h.1, fun a v' hr => ih a (h.2 a v' hr)⟩

theorem keeps_bind {P : ν → β → Prop} {t : Dialogue A α} {f : α → Dialogue A β} :
    (t.bind f).Keeps K P v ↔ t.Keeps K (fun v a => (f a).Keeps K P v) v := by
  induction t generalizing v with
  | done a => exact Iff.rfl
  | stuck => exact Iff.rfl
  | ask q k ih =>
    exact and_congr_right fun _ => forall_congr' fun a => forall_congr' fun v' =>
      imp_congr_right fun _ => ih a

end Dialogue

namespace Contract

/-- The ghost states along a conversation in which the promises are kept. -/
inductive Path (K : Contract A ν) : ν → List (Sigma A) → ν → Prop
  | nil (v : ν) : K.Path v [] v
  | cons {v v' v'' : ν} {q : κ} {a : A q} {l : List (Sigma A)} (h : K.rely v q a v')
      (hp : K.Path v' l v'') : K.Path v (⟨q, a⟩ :: l) v''

variable {K : Contract A ν} {Q : ν → α → Prop} {v v' v'' : ν}

theorem Path.append {l l' : List (Sigma A)} (hp : K.Path v l v') (hp' : K.Path v' l' v'') :
    K.Path v (l ++ l') v'' := by
  induction hp with
  | nil v => exact hp'
  | cons h _ ih => exact .cons h (ih hp')

theorem Path.keeps {t t' : Dialogue A α} {l : List (Sigma A)} (hp : K.Path v l v')
    (hl : t.Leads l t') (h : t.Keeps K Q v) : t'.Keeps K Q v' := by
  induction hl generalizing v with
  | refl t =>
    cases hp
    exact h
  | ask a hl ih =>
    cases hp with
    | cons hr hp => exact ih hp (h.2 _ _ hr)

theorem Path.asks {t t' : Dialogue A α} {l l' : List (Sigma A)} {q : κ} {a : A q}
    (hp : K.Path v l v') (hl : t.Leads (l ++ ⟨q, a⟩ :: l') t') (h : t.Keeps K Q v) :
    K.guar v' q := by
  obtain ⟨t'', hl, hl'⟩ := hl.split
  have hkeeps := hp.keeps hl h
  cases hl' with
  | ask a hl' => exact hkeeps.1

end Contract

/-- A program with the private state `σ`. It ends with a value, or with the value of
a `return` in the middle of the function it belongs to. -/
def Program {κ : Type} (A : κ → Type) (σ ρ α : Type) : Type := σ → Dialogue A (Except ρ α × σ)

instance : Monad (Program A σ ρ) where
  pure a := fun s => .done (.ok a, s)
  bind m f := fun s => (m s).bind fun out =>
    match out with
    | (.ok a, s') => f a s'
    | (.error r, s') => .done (.error r, s')

namespace Program

def stuck : Program A σ ρ α := fun _ => .stuck

def earlyReturn (r : ρ) : Program A σ ρ α := fun s => .done (.error r, s)

def gets (f : σ → α) : Program A σ ρ α := fun s => .done (.ok (f s), s)

def modify (f : σ → σ) : Program A σ ρ Unit := fun s => .done (.ok (), f s)

/-- A step of the private state that cannot be taken everywhere. -/
def tryModify (f : σ → Option (α × σ)) : Program A σ ρ α := fun s =>
  match f s with
  | none => .stuck
  | some (a, s') => .done (.ok a, s')

def ask (q : κ) : Program A σ ρ (A q) := fun s => .ask q fun a => .done (.ok a, s)

/-- The body of a function, as its caller sees it. -/
def call (m : Program A σ α α) : Program A σ ρ α := fun s => (m s).bind fun out =>
  match out with
  | (.ok a, s') => .done (.ok a, s')
  | (.error a, s') => .done (.ok a, s')

/-- A scope with a guard whose destructor runs at its end, however it is left. -/
def guarded (enter : σ → α × σ) (leave : α → σ → σ) (body : Program A σ ρ β) :
    Program A σ ρ β :=
  fun s => (body (enter s).2).bind fun out => .done (out.1, leave (enter s).1 out.2)

variable (next : σ → ι → Option (α × ι)) (body : α → ι → β → Program A σ ρ β)

/-- `for (x = it.next(); x is there; x = it.next()) body`, with the local variables
`b`. A loop with more than `turns` turns gets stuck. -/
def forLoop : (turns : Nat) → ι → β → Program A σ ρ β
  | 0, _, _ => stuck
  | turns + 1, i, b => fun s =>
    match next s i with
    | none => .done (.ok b, s)
    | some (a, i') => (body a i' b >>= forLoop turns i') s

/-- The program comes to an end after the conversation `l`. -/
def Runs (m : Program A σ ρ α) (s : σ) (l : List (Sigma A)) (out : Except ρ α) (s' : σ) : Prop :=
  (m s).Leads l (.done (out, s'))

section Conversations

variable {m : Program A σ ρ α} {f : α → Program A σ ρ β} {s s' s'' : σ} {l l' : List (Sigma A)}
variable {a : α} {r : ρ} {t : Dialogue A (Except ρ β × σ)}

theorem runs_pure (a : α) (s : σ) : Runs (pure a : Program A σ ρ α) s [] (.ok a) s := .refl _

theorem runs_gets (f : σ → α) (s : σ) : Runs (gets f : Program A σ ρ α) s [] (.ok (f s)) s := .refl _

theorem runs_modify (f : σ → σ) (s : σ) : Runs (modify f : Program A σ ρ Unit) s [] (.ok ()) (f s) :=
  .refl _

theorem runs_tryModify {f : σ → Option (α × σ)} (hf : f s = some (a, s')) :
    Runs (tryModify f : Program A σ ρ α) s [] (.ok a) s' := by
  rw [Runs, tryModify, hf]
  exact .refl _

theorem runs_ask (q : κ) (a : A q) (s : σ) :
    Runs (ask q : Program A σ ρ (A q)) s [⟨q, a⟩] (.ok a) s := .ask a (.refl _)

theorem Runs.bind (hm : Runs m s l (.ok a) s') (hf : (f a s').Leads l' t) :
    ((m >>= f) s).Leads (l ++ l') t :=
  (Dialogue.Leads.bind hm _).trans hf

theorem Runs.silent (hm : Runs m s [] (.ok a) s') (hf : (f a s').Leads l t) :
    ((m >>= f) s).Leads l t := hm.bind hf

theorem leads_ask_bind {q : κ} {f : A q → Program A σ ρ β} {a : A q} (hf : (f a s).Leads l t) :
    ((ask q >>= f) s).Leads (⟨q, a⟩ :: l) t := .ask a hf

theorem Runs.bind_error (hm : Runs m s l (.error r) s') : Runs (m >>= f) s l (.error r) s' :=
  Dialogue.Leads.bind hm _

theorem Runs.call {m : Program A σ α α} (hm : Runs m s l (.ok a) s') :
    Runs (Program.call m : Program A σ ρ α) s l (.ok a) s' := Dialogue.Leads.bind hm _

theorem Runs.call_error {m : Program A σ α α} (hm : Runs m s l (.error a) s') :
    Runs (Program.call m : Program A σ ρ α) s l (.ok a) s' := Dialogue.Leads.bind hm _

theorem Runs.guarded {γ : Type} {enter : σ → γ × σ} {leave : γ → σ → σ} {out : Except ρ α}
    (hm : Runs m (enter s).2 l out s') :
    Runs (Program.guarded enter leave m) s l out (leave (enter s).1 s') := Dialogue.Leads.bind hm _

section Loops

variable {next : σ → ι → Option (α × ι)} {body : α → ι → β → Program A σ ρ β} {turns : Nat}
variable {i i' : ι} {b : β}

theorem forLoop_of_next (hn : next s i = some (a, i')) :
    forLoop next body (turns + 1) i b s = (body a i' b >>= forLoop next body turns i') s := by
  simp only [forLoop, hn]

theorem leads_forLoop (hn : next s i = some (a, i'))
    (h : ((body a i' b >>= forLoop next body turns i') s).Leads l t) :
    (forLoop next body (turns + 1) i b s).Leads l t := (forLoop_of_next hn).symm ▸ h

end Loops

end Conversations

variable (K : Contract A ν)

/-- What must hold before the program so that it keeps to its contract and `Q`
holds after it, or `R` if it returns early. -/
def wp (m : Program A σ ρ α) (Q : α → ν → σ → Prop) (R : ρ → ν → σ → Prop) (v : ν) (s : σ) :
    Prop :=
  (m s).Keeps K (fun v out =>
    match out with
    | (.ok a, s') => Q a v s'
    | (.error r, s') => R r v s') v

section Rules

variable {K} {v : ν} {s : σ} {Q Q' : α → ν → σ → Prop} {T : β → ν → σ → Prop}
variable {R R' : ρ → ν → σ → Prop}

@[simp] theorem wp_pure (a : α) : wp K (pure a) Q R v s ↔ Q a v s := Iff.rfl

@[simp] theorem wp_bind (m : Program A σ ρ α) (f : α → Program A σ ρ β) :
    wp K (m >>= f) T R v s ↔ wp K m (fun a => wp K (f a) T R) R v s := by
  unfold wp
  refine Dialogue.keeps_bind.trans (iff_of_eq (congrArg (fun P => (m s).Keeps K P v) ?_))
  funext v' out
  obtain ⟨out, s'⟩ := out
  cases out <;> rfl

@[simp] theorem wp_stuck : wp K (stuck : Program A σ ρ α) Q R v s ↔ K.mayStick := Iff.rfl

@[simp] theorem wp_earlyReturn (r : ρ) : wp K (earlyReturn r) Q R v s ↔ R r v s := Iff.rfl

@[simp] theorem wp_gets (f : σ → α) : wp K (gets f) Q R v s ↔ Q (f s) v s := Iff.rfl

@[simp] theorem wp_modify {Q : Unit → ν → σ → Prop} (f : σ → σ) :
    wp K (modify f) Q R v s ↔ Q () v (f s) := Iff.rfl

@[simp] theorem wp_tryModify (f : σ → Option (α × σ)) :
    wp K (tryModify f) Q R v s ↔
      (f s = none → K.mayStick) ∧ ∀ a s', f s = some (a, s') → Q a v s' := by
  unfold wp tryModify
  cases hf : f s with
  | none => simp [Dialogue.Keeps]
  | some out =>
    obtain ⟨a, s'⟩ := out
    simp [Dialogue.Keeps]

@[simp] theorem wp_ask {q : κ} {Q : A q → ν → σ → Prop} :
    wp K (ask q) Q R v s ↔ K.guar v q ∧ ∀ a v', K.rely v q a v' → Q a v' s := Iff.rfl

@[simp] theorem wp_call (m : Program A σ α α) : wp K (call m) Q R v s ↔ wp K m Q Q v s := by
  unfold wp call
  refine Dialogue.keeps_bind.trans (iff_of_eq (congrArg (fun P => (m s).Keeps K P v) ?_))
  funext v' out
  obtain ⟨out, s'⟩ := out
  cases out <;> rfl

@[simp] theorem wp_guarded {enter : σ → α × σ} {leave : α → σ → σ} (body : Program A σ ρ β) :
    wp K (guarded enter leave body) T R v s ↔
      wp K body (fun b v' s' => T b v' (leave (enter s).1 s'))
        (fun r v' s' => R r v' (leave (enter s).1 s')) v (enter s).2 := by
  unfold wp guarded
  refine Dialogue.keeps_bind.trans (iff_of_eq (congrArg (fun P => (body (enter s).2).Keeps K P v) ?_))
  funext v' out
  obtain ⟨out, s'⟩ := out
  cases out <;> rfl

@[simp] theorem wp_ite {c : Prop} [Decidable c] (m m' : Program A σ ρ α) :
    wp K (if c then m else m') Q R v s ↔ if c then wp K m Q R v s else wp K m' Q R v s := by
  split <;> exact Iff.rfl

theorem wp_mono {m : Program A σ ρ α} (h : wp K m Q R v s) (hQ : ∀ a v s, Q a v s → Q' a v s)
    (hR : ∀ r v s, R r v s → R' r v s) : wp K m Q' R' v s := by
  refine Dialogue.Keeps.mono h fun v' out => ?_
  obtain ⟨out, s'⟩ := out
  cases out with
  | ok a => exact hQ a v' s'
  | error r => exact hR r v' s'

/-- The rule for a loop with the invariant `I`. The loop has enough turns when it
takes an item off the pending ones in each of them. -/
theorem wp_forLoop {next : σ → ι → Option (α × ι)} {body : α → ι → β → Program A σ ρ β}
    (I : ι → β → ν → σ → Prop) (pending : ι → Nat)
    (hstep : ∀ i b v s a i', I i b v s → next s i = some (a, i') →
      (pending i' < pending i ∨ K.mayStick) ∧ wp K (body a i' b) (I i') R v s)
    (turns : Nat) {i : ι} {b : β} (hturns : pending i < turns ∨ K.mayStick) (h : I i b v s) :
    wp K (forLoop next body turns i b) (fun b' v' s' => ∃ i', I i' b' v' s' ∧ next s' i' = none)
      R v s := by
  induction turns generalizing i b v s with
  | zero => exact hturns.resolve_left (Nat.not_lt_zero _)
  | succ turns ih =>
    rw [forLoop]
    unfold wp
    simp only
    cases hn : next s i with
    | none => exact ⟨i, h, hn⟩
    | some out =>
      obtain ⟨a, i'⟩ := out
      obtain ⟨hless, hbody⟩ := hstep i b v s a i' h hn
      have hturns' : pending i' < turns ∨ K.mayStick := by
        cases hless with
        | inl hless => exact hturns.imp_left (by omega)
        | inr hmay => exact Or.inr hmay
      exact (wp_bind _ _).mpr (wp_mono hbody (fun b' v' s' hI => ih hturns' hI) fun _ _ _ hr => hr)

end Rules

/-- Where the parts of a program may be run, and what they leave of what they find. -/
structure Frame (ν σ : Type) where
  ready : ν → σ → Prop
  leaves : ν → σ → ν → σ → Prop
  refl : ∀ {v s}, ready v s → leaves v s v s
  trans : ∀ {v s v' s' v'' s''}, leaves v s v' s' → leaves v' s' v'' s'' → leaves v s v'' s''
  keeps : ∀ {v s v' s'}, ready v s → leaves v s v' s' → ready v' s'

/-- The parts leave what they may rely on. -/
def Frame.invariant (I : ν → σ → Prop) : Frame ν σ where
  ready := I
  leaves _ _ := I
  refl h := h
  trans _ h' := h'
  keeps _ h' := h'

/-- A part of a program that can be left to itself. -/
def Orderly (F : Frame ν σ) (m : Program A σ ρ α) : Prop :=
  ∀ v s, F.ready v s → wp K m (fun _ => F.leaves v s) (fun _ => F.leaves v s) v s

section Parts

variable {K} {F : Frame ν σ}

theorem orderly_pure (a : α) : Orderly K F (pure a : Program A σ ρ α) := fun _ _ h => F.refl h

theorem orderly_earlyReturn (r : ρ) : Orderly K F (earlyReturn r : Program A σ ρ α) :=
  fun _ _ h => F.refl h

theorem orderly_gets (f : σ → α) : Orderly K F (gets f : Program A σ ρ α) := fun _ _ h => F.refl h

theorem orderly_stuck (hmay : K.mayStick) : Orderly K F (stuck : Program A σ ρ α) := fun _ _ _ => hmay

theorem orderly_modify {f : σ → σ} (hf : ∀ v s, F.ready v s → F.leaves v s v (f s)) :
    Orderly K F (modify f : Program A σ ρ Unit) := hf

theorem orderly_tryModify {f : σ → Option (α × σ)} (hmay : K.mayStick)
    (hf : ∀ v s a s', F.ready v s → f s = some (a, s') → F.leaves v s v s') :
    Orderly K F (tryModify f : Program A σ ρ α) := by
  intro v s h
  rw [wp_tryModify]
  exact ⟨fun _ => hmay, fun a s' hs => hf v s a s' h hs⟩

theorem orderly_ask {q : κ} (hq : ∀ v s, F.ready v s →
    K.guar v q ∧ ∀ a v', K.rely v q a v' → F.leaves v s v' s) :
    Orderly K F (ask q : Program A σ ρ (A q)) := hq

theorem Orderly.bind {m : Program A σ ρ α} {f : α → Program A σ ρ β} (hm : Orderly K F m)
    (hf : ∀ a, Orderly K F (f a)) : Orderly K F (m >>= f) := by
  intro v s h
  rw [wp_bind]
  refine wp_mono (hm v s h) (fun a v' s' h' => ?_) fun _ _ _ h' => h'
  exact wp_mono (hf a v' s' (F.keeps h h')) (fun _ _ _ h'' => F.trans h' h'') fun _ _ _ h'' =>
    F.trans h' h''

theorem Orderly.call {m : Program A σ α α} (hm : Orderly K F m) :
    Orderly K F (Program.call m : Program A σ ρ α) := fun v s h => (wp_call m).mpr (hm v s h)

theorem orderly_ite {c : Prop} [Decidable c] {m m' : Program A σ ρ α} (hm : Orderly K F m)
    (hm' : Orderly K F m') : Orderly K F (if c then m else m') := by
  split
  · exact hm
  · exact hm'

theorem orderly_forLoop {next : σ → ι → Option (α × ι)} {body : α → ι → β → Program A σ ρ β}
    (hmay : K.mayStick) (hbody : ∀ a i b, Orderly K F (body a i b)) (turns : Nat) (i : ι) (b : β) :
    Orderly K F (forLoop next body turns i b) := by
  intro v s h
  refine wp_mono (wp_forLoop (fun _ _ => F.leaves v s) (fun _ => 0) ?_ turns (Or.inr hmay) (F.refl h))
    (fun _ _ _ h' => ?_) fun _ _ _ h' => h'
  · intro i b v' s' a i' h' _
    refine ⟨Or.inr hmay, ?_⟩
    exact wp_mono (hbody a i' b v' s' (F.keeps h h')) (fun _ _ _ h'' => F.trans h' h'')
      fun _ _ _ h'' => F.trans h' h''
  · obtain ⟨_, h', -⟩ := h'
    exact h'

end Parts

end Program

/-- Nothing is promised. -/
def Contract.free : Contract A Unit := ⟨fun _ _ => True, fun _ _ _ _ => True, True⟩

theorem Dialogue.keeps_free (t : Dialogue A α) : t.Keeps Contract.free (fun _ _ => True) () := by
  induction t with
  | done a => trivial
  | stuck => trivial
  | ask q k ih => exact ⟨trivial, fun a _ _ => ih a⟩

theorem Dialogue.bind_congr {t : Dialogue A α} {P : α → Prop} {f g : α → Dialogue A β}
    (ht : t.Keeps Contract.free (fun _ => P) ()) (hfg : ∀ a, P a → f a = g a) : t.bind f = t.bind g := by
  induction t with
  | done a => exact hfg a ht
  | stuck => rfl
  | ask q k ih => exact congrArg (Dialogue.ask q) (funext fun a => ih a (ht.2 a () trivial))

/-- Nothing may be asked. -/
def Contract.mute : Contract A Unit := ⟨fun _ _ => False, fun _ _ _ _ => True, False⟩

namespace Program

theorem runs_of_mute {m : Program A σ ρ α} {Q : α → Unit → σ → Prop} {s : σ}
    (h : wp Contract.mute m Q (fun _ _ _ => False) () s) : ∃ a s', Runs m s [] (.ok a) s' ∧ Q a () s' := by
  rw [wp] at h
  cases hm : m s with
  | stuck =>
    rw [hm] at h
    exact h.elim
  | ask q k =>
    rw [hm] at h
    exact h.1.elim
  | done a =>
    rw [hm] at h
    obtain ⟨out, s'⟩ := a
    cases out with
    | error r => exact h.elim
    | ok a =>
      refine ⟨a, s', ?_, h⟩
      rw [Runs, hm]
      exact .refl _

theorem wp_free (m : Program A σ ρ α) (s : σ) :
    wp Contract.free m (fun _ _ _ => True) (fun _ _ _ => True) () s := by
  refine Dialogue.Keeps.mono (m s).keeps_free fun v out _ => ?_
  obtain ⟨out, s'⟩ := out
  cases out <;> trivial

theorem bind_congr {m : Program A σ ρ α} {P : α → Prop} {f g : α → Program A σ ρ β}
    (hm : ∀ s, wp Contract.free m (fun a _ _ => P a) (fun _ _ _ => True) () s)
    (hfg : ∀ a, P a → f a = g a) : m >>= f = m >>= g := by
  funext s
  refine Dialogue.bind_congr (hm s) fun out hout => ?_
  obtain ⟨out, s'⟩ := out
  cases out with
  | ok a => exact congrFun (hfg a hout) s'
  | error r => rfl

end Program

end SoFCheck.Util.Imperative
