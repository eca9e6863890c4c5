import Mathlib

namespace SoFCheck.Util.CString

/-- One `char` of a string. -/
abbrev Byte := UInt8

instance : Coe Char Byte := ⟨Char.toUInt8⟩

/-- What a program must not do while it reads a string. -/
inductive Fault where
  | readPastEnd
  | outOfBounds
  | assertion
  deriving DecidableEq, Repr

/-- Why a scan ends early. -/
inductive Stop (ε : Type) where
  | reject (e : ε)
  | fault (f : Fault)
  deriving DecidableEq, Repr

/-- A program that moves a pointer through a string. The state is what lies
between the pointer and the end of the memory that may be read. -/
abbrev Scanner (ε α : Type) := StateT (List Byte) (Except (Stop ε)) α

variable {ε α β σ : Type}

def reject (e : ε) : Scanner ε α := throw (.reject e)

def check (cond : Prop) [Decidable cond] (e : ε) : Scanner ε Unit :=
  if cond then pure () else reject e

/-- `*(fen++)`. -/
def next : Scanner ε Byte := fun fen =>
  match fen with
  | [] => .error (.fault .readPastEnd)
  | c :: fen => .ok (c, fen)

/-- `*fen`. -/
def peek : Scanner ε Byte := fun fen =>
  match fen with
  | [] => .error (.fault .readPastEnd)
  | c :: fen => .ok (c, c :: fen)

/-- `++fen`. -/
def advance : Scanner ε Unit := do
  let _ ← next

/-- `while (true) { char c = *(fen++); .. }`, where one turn either goes on with
a new state or leaves the loop. -/
def loopOn (body : σ → Byte → Except (Stop ε) (σ ⊕ α)) :
    σ → List Byte → Except (Stop ε) (α × List Byte)
  | _, [] => .error (.fault .readPastEnd)
  | s, c :: fen =>
    match body s c with
    | .error e => .error e
    | .ok (.inl s') => loopOn body s' fen
    | .ok (.inr a) => .ok (a, fen)

def loop (body : σ → Byte → Except (Stop ε) (σ ⊕ α)) (s : σ) : Scanner ε α := loopOn body s

/-- `while (p(*fen)) { ++fen; }`, with the characters that were passed. -/
def spanOn (p : Byte → Bool) : List Byte → Except (Stop ε) (List Byte × List Byte)
  | [] => .error (.fault .readPastEnd)
  | c :: fen =>
    if p c then
      match spanOn p fen with
      | .error e => .error e
      | .ok (u, rest) => .ok (c :: u, rest)
    else .ok ([], c :: fen)

def span (p : Byte → Bool) : Scanner ε (List Byte) := spanOn p

section Recognises

/-- A string up to its terminating zero. -/
def Terminated (fen : List Byte) : Prop := ∃ s, fen = s ++ [0] ∧ (0 : Byte) ∉ s

/-- On every terminated string the scan stays inside, and it succeeds exactly
when what it reads is in the language. The language may look at what follows. -/
structure Recognises (p : Scanner ε α) (L : List Byte → α → List Byte → Prop) : Prop where
  safe : ∀ {fen}, Terminated fen → ∀ f, p.run fen ≠ .error (.fault f)
  run_iff : ∀ {fen}, Terminated fen → ∀ {a rest}, p.run fen = .ok (a, rest) ↔
    ∃ u, fen = u ++ rest ∧ (0 : Byte) ∉ u ∧ L u a rest

variable {p : Scanner ε α} {L L' : List Byte → α → List Byte → Prop}

theorem not_terminated_nil : ¬Terminated [] := by
  rintro ⟨s, hs, -⟩
  simp at hs

theorem Terminated.append {u rest : List Byte} (h : Terminated (u ++ rest)) (hu : (0 : Byte) ∉ u) :
    Terminated rest := by
  obtain ⟨s, hs, h0⟩ := h
  obtain ⟨v, rfl, hr⟩ | ⟨v, rfl, hr⟩ := List.append_eq_append_iff.mp hs
  · exact ⟨v, hr, fun hv => h0 (List.mem_append_right _ hv)⟩
  · cases v with
    | nil => exact ⟨[], by simpa using hr.symm, by simp⟩
    | cons c v =>
      rw [List.cons_append, List.cons.injEq] at hr
      exact absurd (by simp [← hr.1]) hu

theorem Terminated.tail {c : Byte} {rest : List Byte} (h : Terminated (c :: rest)) (hc : c ≠ 0) :
    Terminated rest :=
  Terminated.append (u := [c]) h (by simpa using hc.symm)

theorem Terminated.eq_of_head {rest : List Byte} (h : Terminated rest) (h0 : rest.head? = some 0) :
    rest = [0] := by
  obtain ⟨s, rfl, hs⟩ := h
  cases s with
  | nil => rfl
  | cons c s =>
    rw [List.cons_append, List.head?_cons, Option.some_inj] at h0
    exact absurd (by simp [h0]) hs

theorem Recognises.congr (h : Recognises p L) (hL : ∀ u a rest, L u a rest ↔ L' u a rest) :
    Recognises p L' where
  safe := h.safe
  run_iff hf _ _ := by
    rw [h.run_iff hf]
    exact exists_congr fun u => and_congr_right fun _ => and_congr_right fun _ => hL _ _ _

theorem recognises_pure (a : α) :
    Recognises (pure a : Scanner ε α) fun u b _ => u = [] ∧ b = a where
  safe _ f h := by cases h
  run_iff _ _ _ := by
    rw [StateT.run_pure]
    simp [pure, Except.pure, eq_comm, and_comm]

theorem recognises_reject (e : ε) : Recognises (reject e : Scanner ε α) fun _ _ _ => False where
  safe _ f h := by cases h
  run_iff _ _ _ := by
    simp only [and_false, exists_false, iff_false]
    intro h
    cases h

theorem recognises_check (cond : Prop) [Decidable cond] (e : ε) :
    Recognises (check cond e) fun u _ _ => u = [] ∧ cond := by
  rw [check]
  split
  · rename_i hc
    exact (recognises_pure ()).congr fun u _ _ => by simp [hc]
  · rename_i hc
    exact (recognises_reject e).congr fun u _ _ => by simp [hc]

theorem run_check_of_not {cond : Prop} [Decidable cond] (h : ¬cond) (e : ε)
    (k : Unit → Scanner ε β) (fen : List Byte) :
    ∃ e', (check cond e >>= k).run fen = .error (.reject e') := by
  rw [check, if_neg h]
  exact ⟨e, rfl⟩

theorem Recognises.bind {q : α → Scanner ε β} {M : α → List Byte → β → List Byte → Prop}
    (hp : Recognises p L) (hq : ∀ a, Recognises (q a) (M a)) :
    Recognises (p >>= q) fun u b rest =>
      ∃ v w a, u = v ++ w ∧ L v a (w ++ rest) ∧ M a w b rest where
  safe {fen} hf f := by
    rw [StateT.run_bind]
    cases hr : p.run fen with
    | error e =>
      intro h
      cases h
      exact hp.safe hf f hr
    | ok r =>
      obtain ⟨a, rest⟩ := r
      obtain ⟨u, rfl, hu, -⟩ := (hp.run_iff hf).mp hr
      exact (hq a).safe (hf.append hu) f
  run_iff {fen} hf b rest := by
    rw [StateT.run_bind]
    constructor
    · intro h
      cases hr : p.run fen with
      | error e =>
        rw [hr] at h
        cases h
      | ok r =>
        obtain ⟨a, rest'⟩ := r
        obtain ⟨v, rfl, hv, hL⟩ := (hp.run_iff hf).mp hr
        rw [hr] at h
        obtain ⟨w, rfl, hw0, hM⟩ := ((hq a).run_iff (hf.append hv)).mp h
        exact ⟨v ++ w, by rw [List.append_assoc], by simp [hv, hw0], v, w, a, rfl, hL, hM⟩
    · rintro ⟨u, rfl, hu, v, w, a, rfl, hL, hM⟩
      simp only [List.mem_append, not_or] at hu
      rw [List.append_assoc] at hf ⊢
      rw [(hp.run_iff hf).mpr ⟨v, rfl, hu.1, hL⟩]
      exact ((hq a).run_iff (hf.append hu.1)).mpr ⟨w, rfl, hu.2, hM⟩

/-- A read that moves on must turn down the terminating zero. -/
theorem recognises_next {k : Byte → Scanner ε β} {M : Byte → List Byte → β → List Byte → Prop}
    (h0 : ∀ fen, ∃ e, (k 0).run fen = .error (.reject e))
    (hk : ∀ c, c ≠ 0 → Recognises (k c) (M c)) :
    Recognises (next >>= k) fun u b rest => ∃ c w, u = c :: w ∧ M c w b rest where
  safe {fen} hf f := by
    cases fen with
    | nil => exact absurd hf not_terminated_nil
    | cons c fen =>
      change (k c).run fen ≠ _
      by_cases hc : c = 0
      · obtain ⟨e, he⟩ := h0 fen
        rw [hc, he]
        intro h
        cases h
      · exact (hk c hc).safe (hf.tail hc) f
  run_iff {fen} hf b rest := by
    cases fen with
    | nil => exact absurd hf not_terminated_nil
    | cons c fen =>
      change (k c).run fen = _ ↔ _
      constructor
      · intro h
        have hc : c ≠ 0 := by
          rintro rfl
          obtain ⟨e, he⟩ := h0 fen
          rw [he] at h
          cases h
        obtain ⟨w, rfl, hw, hM⟩ := ((hk c hc).run_iff (hf.tail hc)).mp h
        exact ⟨c :: w, rfl, by simp [hc.symm, hw], c, w, rfl, hM⟩
      · rintro ⟨u, hu, hu0, c', w, rfl, hM⟩
        rw [List.cons_append, List.cons.injEq] at hu
        obtain ⟨rfl, rfl⟩ := hu
        simp only [List.mem_cons, not_or] at hu0
        exact ((hk c (Ne.symm hu0.1)).run_iff (hf.tail (Ne.symm hu0.1))).mpr ⟨w, rfl, hu0.2, hM⟩

theorem recognises_peek {k : Byte → Scanner ε β} {M : Byte → List Byte → β → List Byte → Prop}
    (hk : ∀ c, Recognises (k c) (M c)) :
    Recognises (peek >>= k) fun u b rest => ∃ c, (u ++ rest).head? = some c ∧ M c u b rest where
  safe {fen} hf f := by
    cases fen with
    | nil => exact absurd hf not_terminated_nil
    | cons c fen => exact (hk c).safe hf f
  run_iff {fen} hf b rest := by
    cases fen with
    | nil => exact absurd hf not_terminated_nil
    | cons c fen =>
      change (k c).run (c :: fen) = _ ↔ _
      rw [(hk c).run_iff hf]
      refine exists_congr fun u => and_congr_right fun hu => and_congr_right fun _ => ?_
      simp [← hu]

/-- A scan that is told apart by the first character of what follows. -/
theorem recognises_ite {d : Byte} (hd : d ≠ 0) {q r : Scanner ε β}
    {M N : List Byte → β → List Byte → Prop} (hq : Recognises q M) (hr : Recognises r N) :
    Recognises (peek >>= fun c => if c = d then advance >>= fun _ => q else r) fun u b rest =>
      (∃ w, u = d :: w ∧ M w b rest) ∨ (u ++ rest).head? ≠ some d ∧ N u b rest where
  safe {fen} hf f := by
    cases fen with
    | nil => exact absurd hf not_terminated_nil
    | cons c fen =>
      change (if c = d then advance >>= fun _ => q else r).run (c :: fen) ≠ _
      split
      · rename_i hc
        exact hq.safe (hf.tail (hc ▸ hd)) f
      · exact hr.safe hf f
  run_iff {fen} hf b rest := by
    cases fen with
    | nil => exact absurd hf not_terminated_nil
    | cons c fen =>
      change (if c = d then advance >>= fun _ => q else r).run (c :: fen) = _ ↔ _
      split
      · rename_i hc
        subst hc
        change q.run fen = _ ↔ _
        rw [hq.run_iff (hf.tail hd)]
        constructor
        · rintro ⟨w, rfl, hw, hM⟩
          exact ⟨c :: w, rfl, by simp [hd.symm, hw], Or.inl ⟨w, rfl, hM⟩⟩
        · rintro ⟨u, hu, hu0, ⟨w, rfl, hM⟩ | ⟨hne, -⟩⟩
          · simp only [List.mem_cons, not_or] at hu0
            exact ⟨w, (List.cons.inj hu).2, hu0.2, hM⟩
          · exact absurd (by rw [← hu]; rfl) hne
      · rename_i hc
        rw [hr.run_iff hf]
        refine exists_congr fun u => and_congr_right fun hu => and_congr_right fun _ => ?_
        rw [← hu]
        constructor
        · exact fun hN => Or.inr ⟨by simpa using hc, hN⟩
        · rintro (⟨w, rfl, -⟩ | ⟨-, hN⟩)
          · exact absurd (List.cons.inj hu).1 hc
          · exact hN

/-- What a loop reads, turn by turn. -/
inductive Loops (body : σ → Byte → Except (Stop ε) (σ ⊕ α)) : σ → List Byte → α → Prop
  | leave {s : σ} {c : Byte} {a : α} (h : body s c = .ok (.inr a)) : Loops body s [c] a
  | turn {s s' : σ} {c : Byte} {u : List Byte} {a : α} (h : body s c = .ok (.inl s'))
      (hr : Loops body s' u a) : Loops body s (c :: u) a

/-- The rule of the loop. The invariant is there to show that no turn goes wrong. -/
theorem recognises_loop {body : σ → Byte → Except (Stop ε) (σ ⊕ α)} {I : σ → Prop}
    (h0 : ∀ s, I s → ∃ e, body s 0 = .error (.reject e))
    (hsafe : ∀ s c f, I s → body s c ≠ .error (.fault f))
    (hI : ∀ s c s', I s → body s c = .ok (.inl s') → I s') {s : σ} (hs : I s) :
    Recognises (loop body s) fun u a _ => Loops body s u a where
  safe {fen} hf f := by
    change loopOn body s fen ≠ _
    induction fen generalizing s with
    | nil => exact absurd hf not_terminated_nil
    | cons c fen ih =>
      rw [loopOn]
      by_cases hc : c = 0
      · obtain ⟨e, he⟩ := h0 s hs
        simp [hc, he]
      · split
        · rename_i e he
          rintro ⟨⟩
          exact hsafe s c f hs he
        · rename_i s' hs'
          exact ih (hI s c s' hs hs') (hf.tail hc)
        · rintro ⟨⟩
  run_iff {fen} hf a rest := by
    change loopOn body s fen = _ ↔ _
    induction fen generalizing s with
    | nil => exact absurd hf not_terminated_nil
    | cons c fen ih =>
      have hc : ∀ r, body s c = .ok r → c ≠ 0 := by
        rintro r hr rfl
        obtain ⟨e, he⟩ := h0 s hs
        rw [he] at hr
        cases hr
      rw [loopOn]
      constructor
      · intro h
        split at h
        · cases h
        · rename_i s' hs'
          obtain ⟨u, rfl, hu, hL⟩ := (ih (hI s c s' hs hs') (hf.tail (hc _ hs'))).mp h
          exact ⟨c :: u, rfl, by simp [Ne.symm (hc _ hs'), hu], .turn hs' hL⟩
        · rename_i a' ha
          obtain ⟨rfl, rfl⟩ := Prod.mk.inj (Except.ok.inj h)
          exact ⟨[c], rfl, by simp [Ne.symm (hc _ ha)], .leave ha⟩
      · rintro ⟨u, hu, hu0, hL⟩
        cases hL with
        | leave h =>
          simp only [List.cons_append, List.nil_append, List.cons.injEq] at hu
          obtain ⟨rfl, rfl⟩ := hu
          rw [h]
        | turn h hr =>
          rename_i s' c' u'
          simp only [List.cons_append, List.cons.injEq] at hu
          obtain ⟨rfl, rfl⟩ := hu
          simp only [List.mem_cons, not_or] at hu0
          rw [h]
          exact (ih (hI _ _ _ hs h) (hf.tail (hc _ h))).mpr ⟨u', rfl, hu0.2, hr⟩

theorem recognises_span {p : Byte → Bool} (h0 : p 0 = false) :
    Recognises (span p : Scanner ε (List Byte)) fun u a rest =>
      a = u ∧ (∀ c ∈ u, p c = true) ∧ ∀ c, rest.head? = some c → p c = false where
  safe {fen} hf f := by
    change spanOn p fen ≠ _
    induction fen with
    | nil => exact absurd hf not_terminated_nil
    | cons c fen ih =>
      rw [spanOn]
      split
      · rename_i hp
        have hc : c ≠ 0 := by
          rintro rfl
          rw [h0] at hp
          cases hp
        split
        · rename_i e he
          rintro ⟨⟩
          exact ih (hf.tail hc) he
        · rintro ⟨⟩
      · rintro ⟨⟩
  run_iff {fen} hf a rest := by
    change spanOn p fen = _ ↔ _
    induction fen generalizing a rest with
    | nil => exact absurd hf not_terminated_nil
    | cons c fen ih =>
      rw [spanOn]
      by_cases hp : p c = true
      · have hc : c ≠ 0 := by
          rintro rfl
          rw [h0] at hp
          cases hp
        rw [if_pos hp]
        constructor
        · intro h
          split at h
          · cases h
          · rename_i u rest' hu
            obtain ⟨rfl, rfl⟩ := Prod.mk.inj (Except.ok.inj h)
            obtain ⟨v, rfl, hv0, rfl, hv, hr⟩ := (ih (hf.tail hc) _ _).mp hu
            exact ⟨c :: u, rfl, by simp [hc.symm, hv0], rfl, by simpa [hp] using hv, hr⟩
        · rintro ⟨u, hu, hu0, rfl, hall, hr⟩
          cases a with
          | nil =>
            rw [List.nil_append] at hu
            rw [hr c (by rw [← hu]; rfl)] at hp
            cases hp
          | cons c' u =>
            simp only [List.cons_append, List.cons.injEq] at hu
            obtain ⟨rfl, rfl⟩ := hu
            simp only [List.mem_cons, not_or, forall_eq_or_imp] at hu0 hall
            rw [(ih (hf.tail hc) u rest).mpr ⟨u, rfl, hu0.2, rfl, hall.2, hr⟩]
      · rw [if_neg hp]
        constructor
        · intro h
          obtain ⟨rfl, rfl⟩ := Prod.mk.inj (Except.ok.inj h)
          exact ⟨[], rfl, by simp, rfl, by simp, by simpa using hp⟩
        · rintro ⟨u, hu, -, rfl, hall, -⟩
          cases a with
          | nil => rw [hu]; rfl
          | cons c' u =>
            simp only [List.cons_append, List.cons.injEq] at hu
            exact absurd (hall c' (by simp)) (hu.1 ▸ hp)

end Recognises

end SoFCheck.Util.CString
