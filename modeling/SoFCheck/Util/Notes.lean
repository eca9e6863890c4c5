import SoFCheck.Util.Imperative

namespace SoFCheck.Util.Imperative

variable {κ ν σ ρ α β ι η : Type} {A : κ → Type}

/-- A thread that also makes notes of what it does. There is no answer to a note. -/
abbrev Noted {κ : Type} (A : κ → Type) (η : Type) : κ ⊕ η → Type
  | .inl q => A q
  | .inr _ => Unit

namespace Dialogue

/-- What is left without the notes. -/
def erase : Dialogue (Noted A η) α → Dialogue A α
  | done a => done a
  | stuck => stuck
  | ask (.inl q) k => ask q fun a => (k a).erase
  | ask (.inr _) k => (k ()).erase

/-- A thread that makes no notes. -/
def embed (η : Type) : Dialogue A α → Dialogue (Noted A η) α
  | done a => done a
  | stuck => stuck
  | ask q k => ask (κ := κ ⊕ η) (.inl q) fun a => (k a).embed η

@[simp] theorem erase_embed (t : Dialogue A α) : (t.embed η).erase = t := by
  induction t with
  | done a => rfl
  | stuck => rfl
  | ask q k ih => exact congrArg (ask q) (funext ih)

theorem erase_bind (t : Dialogue (Noted A η) α) (f : α → Dialogue (Noted A η) β) :
    (t.bind f).erase = t.erase.bind fun a => (f a).erase := by
  induction t with
  | done a => rfl
  | stuck => rfl
  | ask q k ih =>
    cases q with
    | inl q => exact congrArg (ask q) (funext ih)
    | inr n => exact ih ()

/-- The questions of a conversation. -/
def answers (l : List (Sigma (Noted A η))) : List (Sigma A) :=
  l.filterMap fun e =>
    match e with
    | ⟨.inl q, a⟩ => some ⟨q, a⟩
    | ⟨.inr _, _⟩ => none

theorem mem_answers {l : List (Sigma (Noted A η))} {q : κ} {a : A q} :
    (⟨q, a⟩ : Sigma A) ∈ answers l ↔ (⟨.inl q, a⟩ : Sigma (Noted A η)) ∈ l := by
  rw [answers, List.mem_filterMap]
  constructor
  · intro h
    obtain ⟨⟨q', a'⟩, hmem, he⟩ := h
    cases q' with
    | inl q' =>
      cases he
      exact hmem
    | inr n => cases he
  · intro h
    exact ⟨_, h, rfl⟩

theorem Leads.erase {t t' : Dialogue (Noted A η) α} {l : List (Sigma (Noted A η))}
    (h : t.Leads l t') : t.erase.Leads (answers l) t'.erase := by
  induction h with
  | refl t => exact Leads.refl _
  | ask a h ih =>
    rename_i q k l t
    cases q with
    | inl q => exact Leads.ask (A := A) (k := fun a => (k a).erase) a ih
    | inr n => exact ih

theorem exists_noted {t : Dialogue (Noted A η) α} {l : List (Sigma A)} {u : Dialogue A α}
    (h : t.erase.Leads l u) : ∃ l' t', t.Leads l' t' ∧ answers l' = l ∧ t'.erase = u := by
  induction t generalizing l with
  | done a =>
    cases h
    exact ⟨[], done a, Leads.refl _, rfl, rfl⟩
  | stuck =>
    cases h
    exact ⟨[], stuck, Leads.refl _, rfl, rfl⟩
  | ask q k ih =>
    cases q with
    | inl q =>
      cases h with
      | refl => exact ⟨[], _, Leads.refl _, rfl, rfl⟩
      | ask a h =>
        obtain ⟨l', t', hl, rfl, hu⟩ := ih a h
        exact ⟨⟨.inl q, a⟩ :: l', t', Leads.ask (A := Noted A η) (k := k) a hl, rfl, hu⟩
    | inr n =>
      obtain ⟨l', t', hl, rfl, hu⟩ := ih () h
      exact ⟨⟨.inr n, ()⟩ :: l', t', Leads.ask (A := Noted A η) (k := k) () hl, rfl, hu⟩

end Dialogue

namespace Contract

/-- The contract for the thread without its notes. -/
def erase (K : Contract (Noted A η) ν) : Contract A ν where
  guar v q := K.guar v (.inl q)
  rely v q a v' := K.rely v (.inl q) a v'
  mayStick := K.mayStick

/-- Notes do not change the ghost. -/
def Silent (K : Contract (Noted A η) ν) : Prop := ∀ v n, K.rely v (.inr n) () v

end Contract

variable {K : Contract (Noted A η) ν} {Q : ν → α → Prop} {v : ν}

theorem Dialogue.Keeps.erase (hK : K.Silent) {t : Dialogue (Noted A η) α} (h : t.Keeps K Q v) :
    t.erase.Keeps K.erase Q v := by
  induction t generalizing v with
  | done a => exact h
  | stuck => exact h
  | ask q k ih =>
    cases q with
    | inl q => exact ⟨h.1, fun a v' hr => ih a (h.2 a v' hr)⟩
    | inr n => exact ih () (h.2 () v (hK v n))

theorem Dialogue.Keeps.embed {t : Dialogue A α} (h : t.Keeps K.erase Q v) :
    (t.embed η).Keeps K Q v := by
  induction t generalizing v with
  | done a => exact h
  | stuck => exact h
  | ask q k ih => exact ⟨h.1, fun a v' hr => ih a (h.2 a v' hr)⟩

namespace Program

def note (n : η) : Program (Noted A η) σ ρ Unit := ask (κ := κ ⊕ η) (.inr n)

def embed (η : Type) (m : Program A σ ρ α) : Program (Noted A η) σ ρ α := fun s => (m s).embed η

def erase (m : Program (Noted A η) σ ρ α) : Program A σ ρ α := fun s => (m s).erase

section Erasing

variable {m : Program (Noted A η) σ ρ α} {f : α → Program (Noted A η) σ ρ β}

@[simp] theorem erase_embed (m : Program A σ ρ α) : (m.embed η).erase = m :=
  funext fun s => (m s).erase_embed

@[simp] theorem erase_pure (a : α) : (pure a : Program (Noted A η) σ ρ α).erase = pure a := rfl

@[simp] theorem erase_stuck : (stuck : Program (Noted A η) σ ρ α).erase = stuck := rfl

@[simp] theorem erase_earlyReturn (r : ρ) :
    (earlyReturn r : Program (Noted A η) σ ρ α).erase = earlyReturn r := rfl

@[simp] theorem erase_gets (f : σ → α) : (gets f : Program (Noted A η) σ ρ α).erase = gets f := rfl

@[simp] theorem erase_modify (f : σ → σ) :
    (modify f : Program (Noted A η) σ ρ Unit).erase = modify f := rfl

@[simp] theorem erase_tryModify (f : σ → Option (α × σ)) :
    (tryModify f : Program (Noted A η) σ ρ α).erase = tryModify f := by
  funext s
  rw [erase, tryModify, tryModify]
  split <;> rfl

@[simp] theorem erase_bind : (m >>= f).erase = m.erase >>= fun a => (f a).erase := by
  funext s
  refine (Dialogue.erase_bind _ _).trans (congrArg (fun g => (m s).erase.bind g) (funext fun out => ?_))
  obtain ⟨out, s'⟩ := out
  cases out <;> rfl

/-- A note leaves no trace. -/
@[simp] theorem erase_note_bind (n : η) {f : Unit → Program (Noted A η) σ ρ β} :
    (note n >>= f).erase = (f ()).erase := rfl

@[simp] theorem erase_call (m : Program (Noted A η) σ α α) :
    (call m : Program (Noted A η) σ ρ α).erase = call m.erase := by
  funext s
  refine (Dialogue.erase_bind _ _).trans (congrArg (fun g => (m s).erase.bind g) (funext fun out => ?_))
  obtain ⟨out, s'⟩ := out
  cases out <;> rfl

@[simp] theorem erase_guarded {γ : Type} (enter : σ → γ × σ) (leave : γ → σ → σ)
    (m : Program (Noted A η) σ ρ β) : (guarded enter leave m).erase = guarded enter leave m.erase := by
  funext s
  exact Dialogue.erase_bind _ _

@[simp] theorem erase_ite {c : Prop} [Decidable c] (m m' : Program (Noted A η) σ ρ α) :
    (if c then m else m').erase = if c then m.erase else m'.erase := apply_ite erase c m m'

@[simp] theorem erase_forLoop (next : σ → ι → Option (α × ι))
    (body : α → ι → β → Program (Noted A η) σ ρ β) (turns : Nat) (i : ι) (b : β) :
    (forLoop next body turns i b).erase = forLoop next (fun a i b => (body a i b).erase) turns i b := by
  induction turns generalizing i b with
  | zero => rfl
  | succ turns ih =>
    funext s
    rw [erase, forLoop, forLoop]
    dsimp only
    cases next s i with
    | none => rfl
    | some out =>
      obtain ⟨a, i'⟩ := out
      have hbody : (body a i' b >>= forLoop next body turns i').erase =
          (body a i' b).erase >>= forLoop next (fun a i b => (body a i b).erase) turns i' := by
        rw [erase_bind]
        exact congrArg _ (funext fun b' => ih i' b')
      exact congrFun hbody s

end Erasing

variable {s : σ} {Q : α → ν → σ → Prop} {R : ρ → ν → σ → Prop}

theorem wp_note {T : Unit → ν → σ → Prop} (n : η) : wp K (note n) T R v s ↔
    K.guar v (.inr n) ∧ ∀ v', K.rely v (.inr n) () v' → T () v' s :=
  ⟨fun h => ⟨h.1, h.2 ()⟩, fun h => ⟨h.1, fun _ => h.2⟩⟩

theorem wp_embed {m : Program A σ ρ α} (h : wp K.erase m Q R v s) : wp K (m.embed η) Q R v s :=
  Dialogue.Keeps.embed h

theorem wp_erase (hK : K.Silent) {m : Program (Noted A η) σ ρ α} (h : wp K m Q R v s) :
    wp K.erase m.erase Q R v s := Dialogue.Keeps.erase hK h

end Program

end SoFCheck.Util.Imperative
