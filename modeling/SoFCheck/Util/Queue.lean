import SoFCheck.Util.Transition

namespace SoFCheck.Util.Queue

variable {ι α : Type}

/-- The two condition variables. -/
inductive Event where
  | empty
  | full
  deriving DecidableEq

inductive Answer (α : Type) where
  | pushed (ok : Bool)
  | popped (value : Option α)
  | closed

/-- Where a thread stands in a call. It holds the lock for one step, in which it tests the
condition and either changes the queue or goes to sleep. -/
inductive Call (α : Type) where
  | idle
  | push (value : α)
  | pop
  | close
  /-- Asleep in `push`, on `fullEvent_`. -/
  | waitFull (value : α)
  /-- Asleep in `pop`, on `emptyEvent_`. -/
  | waitEmpty
  /-- Behind the lock, about to notify one or all. -/
  | notify (event : Event) (all : Bool) (answer : Answer α)
  | done (answer : Answer α)

namespace Call

def waits (e : Event) : Call α → Bool
  | waitFull _ => e = .full
  | waitEmpty => e = .empty
  | _ => false

/-- Awake again, the thread waits for the lock. -/
def wake : Call α → Call α
  | waitFull value => push value
  | waitEmpty => pop
  | call => call

/-- Both `push` and `pop` notify `emptyEvent_` first. -/
def afterNotify (all : Bool) (answer : Answer α) : Event → Call α
  | .empty => notify .full all answer
  | .full => done answer

end Call

/-- `BlockingQueue`, with the calls of its threads. -/
structure BlockingQueue (ι α : Type) where
  items : List α
  closed : Bool
  calls : ι → Call α

/-- `wake` is a spurious wakeup. The system chooses whom `notify_one` wakes. -/
inductive Action (ι : Type) where
  | lock (i : ι)
  | notify (i : ι) (woken : Option ι)
  | wake (i : ι)

namespace BlockingQueue

def new : BlockingQueue ι α := ⟨[], false, fun _ => .idle⟩

section Steps

variable [DecidableEq ι] [Fintype ι]

/-- A thread goes on with its call, or begins another. -/
def setCall (q : BlockingQueue ι α) (i : ι) (call : Call α) : BlockingQueue ι α :=
  { q with calls := Function.update q.calls i call }

def notifyAll (calls : ι → Call α) (e : Event) : ι → Call α :=
  fun j => if (calls j).waits e then (calls j).wake else calls j

def notifyOne (calls : ι → Call α) (e : Event) : Option ι → Option (ι → Call α)
  | some j =>
    if (calls j).waits e then some (Function.update calls j (calls j).wake) else none
  | none => if ∀ j, (calls j).waits e = false then some calls else none

/-- What is done under the lock. -/
def locked (size : Nat) (q : BlockingQueue ι α) (i : ι) : Option (BlockingQueue ι α) :=
  match q.calls i with
  | .push value =>
    if q.closed then some (q.setCall i (.done (.pushed false)))
    else if q.items.length = size then some (q.setCall i (.waitFull value))
    else some ({ q with items := q.items ++ [value] }.setCall i
      (.notify .empty false (.pushed true)))
  | .pop =>
    match q.items with
    | [] => some (q.setCall i (if q.closed then .done (.popped none) else .waitEmpty))
    | value :: items =>
      some ({ q with items := items }.setCall i (.notify .empty false (.popped (some value))))
  | .close =>
    if q.closed then some (q.setCall i (.done .closed))
    else some ({ q with closed := true }.setCall i (.notify .empty true .closed))
  | _ => none

def step (size : Nat) (q : BlockingQueue ι α) : Action ι → Option (BlockingQueue ι α)
  | .lock i => q.locked size i
  | .notify i woken =>
    match q.calls i with
    | .notify e all answer =>
      (if all then some (notifyAll q.calls e) else notifyOne q.calls e woken).map fun calls =>
        { q with calls := calls }.setCall i (Call.afterNotify all answer e)
    | _ => none
  | .wake i =>
    match q.calls i with
    | .waitFull value => some (q.setCall i (.push value))
    | .waitEmpty => some (q.setCall i .pop)
    | _ => none

/-- Those who sleep on the event are woken, all of them or one if there is one. -/
structure Notified (e : Event) (all : Bool) (calls calls' : ι → Call α) : Prop where
  keep : ∀ j, calls' j = calls j ∨ (calls j).waits e = true ∧ calls' j = (calls j).wake
  all : all = true → ∀ j, (calls' j).waits e = false
  one : (∃ j, (calls' j).waits e = true) →
    ∃ j, (calls j).waits e = true ∧ calls' j = (calls j).wake

/-- What a step of a thread can do. -/
inductive Step (size : Nat) (q : BlockingQueue ι α) (i : ι) : BlockingQueue ι α → Prop
  | refused {value : α} (h : q.calls i = .push value) (hc : q.closed = true) :
      Step size q i (q.setCall i (.done (.pushed false)))
  | full {value : α} (h : q.calls i = .push value) (hc : q.closed = false)
      (hfull : q.items.length = size) : Step size q i (q.setCall i (.waitFull value))
  | pushed {value : α} (h : q.calls i = .push value) (hc : q.closed = false)
      (hfull : q.items.length ≠ size) :
      Step size q i ({ q with items := q.items ++ [value] }.setCall i
        (.notify .empty false (.pushed true)))
  | empty (h : q.calls i = .pop) (hc : q.closed = false) (hitems : q.items = []) :
      Step size q i (q.setCall i .waitEmpty)
  | exhausted (h : q.calls i = .pop) (hc : q.closed = true) (hitems : q.items = []) :
      Step size q i (q.setCall i (.done (.popped none)))
  | popped {value : α} {items : List α} (h : q.calls i = .pop) (hitems : q.items = value :: items) :
      Step size q i ({ q with items := items }.setCall i
        (.notify .empty false (.popped (some value))))
  | again (h : q.calls i = .close) (hc : q.closed = true) :
      Step size q i (q.setCall i (.done .closed))
  | closed (h : q.calls i = .close) (hc : q.closed = false) :
      Step size q i ({ q with closed := true }.setCall i (.notify .empty true .closed))
  | notify {e : Event} {all : Bool} {answer : Answer α} {calls : ι → Call α}
      (h : q.calls i = .notify e all answer) (hcalls : Notified e all q.calls calls) :
      Step size q i ({ q with calls := calls }.setCall i (Call.afterNotify all answer e))
  | wake {e : Event} (h : (q.calls i).waits e = true) :
      Step size q i (q.setCall i (q.calls i).wake)

theorem waits_wake (call : Call α) (e : Event) : call.wake.waits e = false := by
  cases call <;> rfl

omit [DecidableEq ι] [Fintype ι] in
theorem notified_all (calls : ι → Call α) (e : Event) : Notified e true calls (notifyAll calls e) where
  keep j := by
    unfold notifyAll
    split
    · rename_i h
      exact Or.inr ⟨h, rfl⟩
    · exact Or.inl rfl
  all _ j := by
    unfold notifyAll
    split
    · exact waits_wake _ _
    · rename_i h
      exact Bool.eq_false_iff.mpr h
  one h := by
    obtain ⟨j, hj⟩ := h
    unfold notifyAll at hj
    split at hj
    · rw [waits_wake] at hj
      cases hj
    · contradiction

theorem notified_one {calls calls' : ι → Call α} {e : Event} {woken : Option ι}
    (h : notifyOne calls e woken = some calls') : Notified e false calls calls' := by
  cases woken with
  | some j =>
    by_cases hj : (calls j).waits e = true
    · rw [notifyOne, if_pos hj] at h
      cases h
      refine ⟨?_, fun h => absurd h Bool.false_ne_true, fun _ => ⟨j, hj, Function.update_self _ _ _⟩⟩
      intro k
      by_cases hk : k = j
      · subst hk
        exact Or.inr ⟨hj, Function.update_self _ _ _⟩
      · exact Or.inl (Function.update_of_ne hk _ _)
    · rw [notifyOne, if_neg hj] at h
      cases h
  | none =>
    by_cases hnone : ∀ j, (calls j).waits e = false
    · rw [notifyOne, if_pos hnone] at h
      cases h
      refine ⟨fun _ => Or.inl rfl, fun h => absurd h Bool.false_ne_true, ?_⟩
      intro hwaits
      obtain ⟨j, hj⟩ := hwaits
      rw [hnone j] at hj
      cases hj
    · rw [notifyOne, if_neg hnone] at h
      cases h

/-- A wakeup that nobody asked for. -/
def spurious : Action ι → Bool
  | .wake _ => true
  | _ => false

/-- The thread that a step belongs to. -/
def thread : Action ι → ι
  | .lock i | .notify i _ | .wake i => i

omit [Fintype ι] in
theorem locked_cases {size : Nat} {q q' : BlockingQueue ι α} {i : ι}
    (h : q.locked size i = some q') : Step size q i q' := by
  unfold locked at h
  split at h
  · rename_i value hcall
    split at h
    · rename_i hc
      cases h
      exact .refused hcall hc
    · rename_i hc
      split at h
      · rename_i hfull
        cases h
        exact .full hcall (Bool.eq_false_iff.mpr hc) hfull
      · rename_i hfull
        cases h
        exact .pushed hcall (Bool.eq_false_iff.mpr hc) hfull
  · rename_i hcall
    split at h
    · rename_i hitems
      cases h
      split
      · rename_i hc
        exact .exhausted hcall hc hitems
      · rename_i hc
        exact .empty hcall (Bool.eq_false_iff.mpr hc) hitems
    · rename_i value items hitems
      cases h
      exact .popped hcall hitems
  · rename_i hcall
    split at h
    · rename_i hc
      cases h
      exact .again hcall hc
    · rename_i hc
      cases h
      exact .closed hcall (Bool.eq_false_iff.mpr hc)
  · cases h

theorem step_cases {size : Nat} {q q' : BlockingQueue ι α} {a : Action ι}
    (h : q.step size a = some q') : Step size q (thread a) q' := by
  cases a with
  | lock i => exact locked_cases h
  | notify i woken =>
    simp only [step] at h
    split at h
    · rename_i e all answer hcall
      obtain ⟨calls, hcalls, rfl⟩ := Option.map_eq_some_iff.mp h
      apply Step.notify hcall
      cases all with
      | true =>
        cases hcalls
        exact notified_all q.calls e
      | false => exact notified_one hcalls
    · cases h
  | wake i =>
    simp only [step] at h
    split at h
    · rename_i value hcall
      cases h
      have hstep : Step size q i (q.setCall i (q.calls i).wake) :=
        .wake (e := .full) (by rw [hcall]; rfl)
      rw [hcall] at hstep
      exact hstep
    · rename_i hcall
      cases h
      have hstep : Step size q i (q.setCall i (q.calls i).wake) :=
        .wake (e := .empty) (by rw [hcall]; rfl)
      rw [hcall] at hstep
      exact hstep
    · cases h

end Steps

section Wakeups

variable {size : Nat} {q q' : BlockingQueue ι α} {calls : ι → Call α} {call : Call α} {i : ι}

/-- There is something to pop, or room for a value. -/
def Ready (size : Nat) (q : BlockingQueue ι α) : Event → Prop
  | .empty => q.items ≠ []
  | .full => q.items.length ≠ size

/-- The thread is going to look at the queue for the event, or to notify of it. -/
def Rouses (e : Event) : Call α → Prop
  | .push _ => e = .full
  | .pop => e = .empty
  | .notify e' _ _ => e' = .empty ∨ e = .full
  | _ => False

/-- The thread has closed the queue and is going to notify all of it. -/
def RousesAll (e : Event) : Call α → Prop
  | .notify e' all _ => all = true ∧ (e' = .empty ∨ e = .full)
  | _ => False

/-- Nobody sleeps on an event unnoticed. -/
structure Alert (size : Nat) (q : BlockingQueue ι α) : Prop where
  heard : q.closed = false → ∀ e, Ready size q e → (∃ j, (q.calls j).waits e = true) →
    ∃ j, Rouses e (q.calls j)
  ended : q.closed = true → ∀ e, (∃ j, (q.calls j).waits e = true) → ∃ j, RousesAll e (q.calls j)

theorem rouses_not_waits {e e' : Event} (h : Rouses e call) : call.waits e' = false := by
  cases call <;> first | rfl | cases h

theorem rouses_of_all {e : Event} (h : RousesAll e call) : Rouses e call := by
  cases call <;> first | exact h.2 | cases h

theorem rouses_wake {e : Event} (h : call.waits e = true) : Rouses e call.wake := by
  cases call with
  | waitFull value => exact of_decide_eq_true (p := e = .full) h
  | waitEmpty => exact of_decide_eq_true (p := e = .empty) h
  | _ => cases h

variable [DecidableEq ι]

theorem exists_of_update {P : Call α → Prop} (h : ∃ j, P (Function.update calls i call j))
    (hi : ¬P call) : ∃ j, j ≠ i ∧ P (calls j) := by
  obtain ⟨j, hj⟩ := h
  by_cases hij : j = i
  · rw [hij, Function.update_self] at hj
    exact absurd hj hi
  · rw [Function.update_of_ne hij] at hj
    exact ⟨j, hij, hj⟩

theorem exists_self (calls : ι → Call α) {P : Call α → Prop} (h : P call) :
    ∃ j, P (Function.update calls i call j) := by
  refine ⟨i, ?_⟩
  rwa [Function.update_self]

omit [DecidableEq ι] in
theorem exists_other {P : Call α → Prop} (h : ∃ j, P (calls j)) (hi : ¬P (calls i)) :
    ∃ j, j ≠ i ∧ P (calls j) := by
  obtain ⟨j, hj⟩ := h
  refine ⟨j, ?_, hj⟩
  rintro rfl
  exact hi hj

theorem alert_of_update (hcalls : q'.calls = Function.update calls i call)
    (hheard : q'.closed = false → ∀ e, Ready size q' e → call.waits e = false ∧
      ((∃ j, (calls j).waits e = true) → Rouses e call ∨ ∃ j, j ≠ i ∧ Rouses e (calls j)))
    (hended : q'.closed = true → ∀ e, call.waits e = false ∧
      ((∃ j, (calls j).waits e = true) → RousesAll e call ∨ ∃ j, j ≠ i ∧ RousesAll e (calls j))) :
    Alert size q' := by
  have hwaits : ∀ e, call.waits e = false → (∃ j, (q'.calls j).waits e = true) →
      ∃ j, (calls j).waits e = true := by
    intro e he h
    rw [hcalls] at h
    obtain ⟨j, -, hj⟩ := exists_of_update (P := fun c => c.waits e = true) h (by rw [he]; decide)
    exact ⟨j, hj⟩
  have hrouses : ∀ P : Call α → Prop, (P call ∨ ∃ j, j ≠ i ∧ P (calls j)) →
      ∃ j, P (q'.calls j) := by
    intro P h
    rw [hcalls]
    rcases h with h | ⟨j, hj, h⟩
    · exact exists_self calls h
    · refine ⟨j, ?_⟩
      rwa [Function.update_of_ne hj]
  refine ⟨?_, ?_⟩
  · intro hc e hready h
    obtain ⟨he, hr⟩ := hheard hc e hready
    exact hrouses _ (hr (hwaits e he h))
  · intro hc e h
    obtain ⟨he, hr⟩ := hended hc e
    exact hrouses _ (hr (hwaits e he h))

theorem alert_step (h : Alert size q) (hs : Step size q i q') : Alert size q' := by
  cases hs with
  | refused hi hc =>
    apply alert_of_update rfl
    · intro hc'
      cases hc.symm.trans hc'
    · intro _ e
      refine ⟨rfl, fun hw => Or.inr (exists_other (h.ended hc e hw) ?_)⟩
      rw [hi]
      exact id
  | full hi hc hfull =>
    apply alert_of_update rfl
    · intro _ e hready
      cases e with
      | full => exact absurd hfull hready
      | empty =>
        refine ⟨rfl, fun hw => Or.inr (exists_other (h.heard hc .empty hready hw) ?_)⟩
        rw [hi]
        exact fun h => by cases h
    · intro hc'
      cases hc.symm.trans hc'
  | pushed hi hc hfull =>
    apply alert_of_update rfl
    · intro _ e _
      exact ⟨rfl, fun _ => Or.inl (Or.inl rfl)⟩
    · intro hc'
      cases hc.symm.trans hc'
  | empty hi hc hitems =>
    apply alert_of_update rfl
    · intro _ e hready
      cases e with
      | empty => exact absurd hitems hready
      | full =>
        refine ⟨rfl, fun hw => Or.inr (exists_other (h.heard hc .full hready hw) ?_)⟩
        rw [hi]
        exact fun h => by cases h
    · intro hc'
      cases hc.symm.trans hc'
  | exhausted hi hc hitems =>
    apply alert_of_update rfl
    · intro hc'
      cases hc.symm.trans hc'
    · intro _ e
      refine ⟨rfl, fun hw => Or.inr (exists_other (h.ended hc e hw) ?_)⟩
      rw [hi]
      exact id
  | popped hi hitems =>
    apply alert_of_update rfl
    · intro _ e _
      exact ⟨rfl, fun _ => Or.inl (Or.inl rfl)⟩
    · intro hc e
      refine ⟨rfl, fun hw => Or.inr (exists_other (h.ended hc e hw) ?_)⟩
      rw [hi]
      exact id
  | again hi hc =>
    apply alert_of_update rfl
    · intro hc'
      cases hc.symm.trans hc'
    · intro _ e
      refine ⟨rfl, fun hw => Or.inr (exists_other (h.ended hc e hw) ?_)⟩
      rw [hi]
      exact id
  | closed hi hc =>
    apply alert_of_update rfl
    · intro hc'
      cases hc'
    · intro _ e
      exact ⟨rfl, fun _ => Or.inl ⟨rfl, Or.inl rfl⟩⟩
  | notify hi hcalls =>
    rename_i e₀ all answer calls'
    have hnext : ∀ e, (Call.afterNotify all answer e₀).waits e = false := by
      intro e
      cases e₀ <;> rfl
    have hkeep : ∀ j e, Rouses e (q.calls j) → calls' j = q.calls j := by
      intro j e hj
      rcases hcalls.keep j with hk | ⟨hk, -⟩
      · exact hk
      · rw [rouses_not_waits hj] at hk
        cases hk
    have hback : ∀ e, (∃ j, (calls' j).waits e = true) → ∃ j, (q.calls j).waits e = true := by
      intro e hw
      obtain ⟨j, hj⟩ := hw
      refine ⟨j, ?_⟩
      rcases hcalls.keep j with hk | ⟨-, hk⟩
      · rwa [hk] at hj
      · rw [hk, waits_wake] at hj
        cases hj
    have hupdate : ({ q with calls := calls' }.setCall i (Call.afterNotify all answer e₀)).calls =
      Function.update calls' i (Call.afterNotify all answer e₀) := rfl
    apply alert_of_update hupdate
    · intro hc e hready
      refine ⟨hnext e, fun hw => ?_⟩
      by_cases he : e = e₀
      · subst he
        obtain ⟨j, hj, hwake⟩ := hcalls.one hw
        refine Or.inr ⟨j, ?_, ?_⟩
        · rintro rfl
          rw [hi] at hj
          cases hj
        · rw [hwake]
          exact rouses_wake hj
      · cases e with
        | full =>
          cases e₀ with
          | empty => exact Or.inl (Or.inr rfl)
          | full => exact absurd rfl he
        | empty =>
          have hnot : ¬Rouses .empty (q.calls i) := by
            rw [hi]
            rintro (h | h)
            · exact he h.symm
            · cases h
          obtain ⟨j, hji, hj⟩ := exists_other (h.heard hc .empty hready (hback _ hw)) hnot
          refine Or.inr ⟨j, hji, ?_⟩
          rwa [hkeep j .empty hj]
    · intro hc e
      refine ⟨hnext e, fun hw => ?_⟩
      obtain ⟨j, hj⟩ := h.ended hc e (hback e hw)
      by_cases hji : j = i
      · rw [hji, hi] at hj
        obtain ⟨rfl, he⟩ := hj
        have hne : e ≠ e₀ := by
          rintro rfl
          obtain ⟨k, hk⟩ := hw
          rw [hcalls.all rfl k] at hk
          cases hk
        rcases he with rfl | rfl
        · cases e with
          | empty => exact absurd rfl hne
          | full => exact Or.inl ⟨rfl, Or.inr rfl⟩
        · cases e₀ with
          | empty => exact Or.inl ⟨rfl, Or.inr rfl⟩
          | full => exact absurd rfl hne
      · refine Or.inr ⟨j, hji, ?_⟩
        rwa [hkeep j e (rouses_of_all hj)]
  | wake hi =>
    rename_i e₀
    apply alert_of_update rfl
    · intro hc e hready
      refine ⟨waits_wake _ e, fun hw => ?_⟩
      by_cases he : e = e₀
      · subst he
        exact Or.inl (rouses_wake hi)
      · refine Or.inr (exists_other (h.heard hc e hready hw) fun hr => ?_)
        rw [rouses_not_waits hr] at hi
        cases hi
    · intro hc e
      refine ⟨waits_wake _ e, fun hw => Or.inr (exists_other (h.ended hc e hw) fun hr => ?_)⟩
      rw [rouses_not_waits (rouses_of_all hr)] at hi
      cases hi

theorem Alert.setCall (h : Alert size q) (hold : ∀ e, ¬Rouses e (q.calls i))
    (hnew : ∀ e, call.waits e = false) : Alert size (q.setCall i call) := by
  apply alert_of_update rfl
  · intro hc e hready
    exact ⟨hnew e, fun hw => Or.inr (exists_other (h.heard hc e hready hw) (hold e))⟩
  · intro hc e
    refine ⟨hnew e, fun hw => Or.inr (exists_other (h.ended hc e hw) fun hr => ?_)⟩
    exact hold e (rouses_of_all hr)

/-- The thread can do nothing in its call. -/
def Resting : Call α → Prop
  | .idle | .done _ | .waitFull _ | .waitEmpty => True
  | _ => False

omit [DecidableEq ι] in
theorem Alert.asleep (h : Alert size q) (hrest : ∀ j, Resting (q.calls j)) {e : Event}
    (hi : (q.calls i).waits e = true) : q.closed = false ∧ ¬Ready size q e := by
  have hnone : ∀ j, ¬Rouses e (q.calls j) := by
    intro j hj
    have hj' := hrest j
    cases hcall : q.calls j <;> rw [hcall] at hj hj' <;> first | exact hj | exact hj'
  have hopen : q.closed = false := by
    cases hc : q.closed with
    | false => rfl
    | true =>
      obtain ⟨j, hj⟩ := h.ended hc e ⟨i, hi⟩
      exact absurd (rouses_of_all hj) (hnone j)
  refine ⟨hopen, fun hready => ?_⟩
  obtain ⟨j, hj⟩ := h.heard hopen e hready ⟨i, hi⟩
  exact hnone j hj

/-- A thread that does not rest can take a step. -/
theorem exists_step [Fintype ι] (h : ¬Resting (q.calls i)) :
    ∃ a : Action ι, spurious a = false ∧ (q.step size a).isSome = true := by
  cases hcall : q.calls i with
  | push value =>
    refine ⟨.lock i, rfl, ?_⟩
    simp only [step, locked, hcall]
    split
    · rfl
    · split <;> rfl
  | pop =>
    refine ⟨.lock i, rfl, ?_⟩
    simp only [step, locked, hcall]
    split <;> rfl
  | close =>
    refine ⟨.lock i, rfl, ?_⟩
    simp only [step, locked, hcall]
    split <;> rfl
  | notify e all answer =>
    by_cases hw : ∃ j, (q.calls j).waits e = true
    · obtain ⟨j, hj⟩ := hw
      refine ⟨.notify i (some j), rfl, ?_⟩
      simp only [step, hcall, notifyOne, hj, if_true, Option.isSome_map]
      split <;> rfl
    · have hnone : ∀ j, (q.calls j).waits e = false := by
        intro j
        exact Bool.eq_false_iff.mpr fun hj => hw ⟨j, hj⟩
      refine ⟨.notify i none, rfl, ?_⟩
      simp only [step, hcall, notifyOne, if_pos hnone, Option.isSome_map]
      split <;> rfl
  | _ =>
    rw [hcall] at h
    exact absurd trivial h

end Wakeups

section Values

/-- The value that a call carries: what is yet to be pushed, or what was popped. -/
def held : Call α → List α
  | .push value | .waitFull value => [value]
  | .notify _ _ (.popped (some value)) | .done (.popped (some value)) => [value]
  | _ => []

inductive Kind where
  | push
  | pop
  | close
  deriving DecidableEq

def answerKind : Answer α → Kind
  | .pushed _ => .push
  | .popped _ => .pop
  | .closed => .close

/-- What was called. -/
def kind : Call α → Option Kind
  | .idle => none
  | .push _ | .waitFull _ => some .push
  | .pop | .waitEmpty => some .pop
  | .close => some .close
  | .notify _ _ answer | .done answer => some (answerKind answer)

theorem resting_push {call : Call α} (h : Resting call) (hk : kind call = some .push) :
    call.waits .full = true ∨ ∃ answer, call = .done answer := by
  cases call with
  | waitFull value => exact Or.inl rfl
  | done answer => exact Or.inr ⟨answer, rfl⟩
  | push | notify => cases h
  | _ => cases hk

theorem resting_pop {call : Call α} (h : Resting call) (hk : kind call = some .pop) :
    call.waits .empty = true ∨ ∃ answer, call = .done answer := by
  cases call with
  | waitEmpty => exact Or.inl rfl
  | done answer => exact Or.inr ⟨answer, rfl⟩
  | pop | notify => cases h
  | _ => cases hk

theorem resting_close {call : Call α} (h : Resting call) (hk : kind call = some .close) :
    ∃ answer, call = .done answer := by
  cases call with
  | done answer => exact ⟨answer, rfl⟩
  | close | notify => cases h
  | _ => cases hk

/-- An answer that is out tells something about the queue from then on. -/
def Truthful (closed : Bool) (items : List α) : Call α → Prop
  | .notify _ _ .closed | .done .closed => closed = true
  | .notify _ _ (.popped none) | .done (.popped none) => closed = true ∧ items = []
  | _ => True

variable {size : Nat} {q q' : BlockingQueue ι α} {i : ι}

theorem held_wake (call : Call α) : held call.wake = held call := by
  cases call <;> rfl

theorem kind_wake (call : Call α) : kind call.wake = kind call := by
  cases call <;> rfl

theorem held_afterNotify (e : Event) (all : Bool) (answer : Answer α) :
    held (Call.afterNotify all answer e) = held (.notify e all answer) := by
  cases e <;> cases answer with
  | popped value => cases value <;> rfl
  | _ => rfl

theorem kind_afterNotify (e : Event) (all : Bool) (answer : Answer α) :
    kind (Call.afterNotify all answer e) = some (answerKind answer) := by
  cases e <;> rfl

theorem Notified.map_eq {β : Type} {e : Event} {all : Bool} {calls calls' : ι → Call α}
    (h : Notified e all calls calls') {f : Call α → β} (hf : ∀ call, f call.wake = f call) (j : ι) :
    f (calls' j) = f (calls j) := by
  rcases h.keep j with hj | ⟨-, hj⟩
  · rw [hj]
  · rw [hj, hf]

variable [DecidableEq ι]

theorem map_update {β : Type} {f : Call α → β} {calls : ι → Call α} {call : Call α}
    (h : f call = f (calls i)) (j : ι) : f (Function.update calls i call j) = f (calls j) := by
  by_cases hj : j = i
  · rw [hj, Function.update_self, h]
  · rw [Function.update_of_ne hj]

theorem kind_step (hs : Step size q i q') (j : ι) : kind (q'.calls j) = kind (q.calls j) := by
  cases hs with
  | refused h hc | full h hc hfull | pushed h hc hfull | empty h hc hitems | exhausted h hc hitems
  | popped h hitems | again h hc | closed h hc => exact map_update (by rw [h]; rfl) j
  | notify h hcalls =>
    refine (map_update ?_ j).trans (hcalls.map_eq kind_wake j)
    rw [hcalls.map_eq kind_wake i, h, kind_afterNotify]
    rfl
  | wake h => exact map_update (kind_wake _) j

omit [DecidableEq ι] in
theorem truthful_mono {closed closed' : Bool} {items items' : List α} {call : Call α}
    (h : Truthful closed items call) (hclosed : closed = true → closed' = true)
    (hitems : closed = true → items = [] → items' = []) : Truthful closed' items' call := by
  cases call with
  | notify e all answer =>
    cases answer with
    | closed => exact hclosed h
    | popped value =>
      cases value with
      | none => exact ⟨hclosed h.1, hitems h.1 h.2⟩
      | some value => trivial
    | pushed ok => trivial
  | done answer =>
    cases answer with
    | closed => exact hclosed h
    | popped value =>
      cases value with
      | none => exact ⟨hclosed h.1, hitems h.1 h.2⟩
      | some value => trivial
    | pushed ok => trivial
  | _ => trivial

omit [DecidableEq ι] in
theorem truthful_wake (closed : Bool) (items : List α) (call : Call α) :
    Truthful closed items call.wake = Truthful closed items call := by
  cases call <;> rfl

omit [DecidableEq ι] in
theorem truthful_afterNotify {closed : Bool} {items : List α} {e : Event} {all : Bool}
    {answer : Answer α} (h : Truthful closed items (.notify e all answer)) :
    Truthful closed items (Call.afterNotify all answer e) := by
  cases e <;> cases answer with
  | popped value => cases value <;> exact h
  | _ => exact h

theorem truthful_setCall {call : Call α} (hcall : Truthful q.closed q.items call)
    (hall : ∀ j, Truthful q.closed q.items (q.calls j)) (j : ι) :
    Truthful (q.setCall i call).closed (q.setCall i call).items ((q.setCall i call).calls j) := by
  unfold setCall
  by_cases hj : j = i
  · simp only [hj, Function.update_self]
    exact hcall
  · simp only [Function.update_of_ne hj]
    exact hall j

/-- An answer stays true. -/
theorem truthful_step (h : ∀ j, Truthful q.closed q.items (q.calls j)) (hs : Step size q i q')
    (j : ι) : Truthful q'.closed q'.items (q'.calls j) := by
  cases hs with
  | refused _ hc | full _ hc _ | empty _ hc _ =>
    apply truthful_setCall _ h
    exact trivial
  | exhausted _ hc hitems =>
    apply truthful_setCall _ h
    exact ⟨hc, hitems⟩
  | again _ hc =>
    apply truthful_setCall _ h
    exact hc
  | pushed _ hc _ =>
    apply truthful_setCall
    · exact trivial
    · intro k
      exact truthful_mono (h k) id fun hc' => absurd (hc.symm.trans hc') Bool.false_ne_true
  | popped _ hitems =>
    apply truthful_setCall
    · exact trivial
    · intro k
      exact truthful_mono (h k) id fun _ hnil =>
        absurd (hitems.symm.trans hnil) (List.cons_ne_nil _ _)
  | closed _ hc =>
    apply truthful_setCall
    · exact rfl
    · intro k
      exact truthful_mono (h k) (fun _ => rfl) fun _ => id
  | notify hi hcalls =>
    apply truthful_setCall
    · have hi' := h i
      rw [hi] at hi'
      exact truthful_afterNotify hi'
    · intro k
      exact (hcalls.map_eq (truthful_wake q.closed q.items) k).mpr (h k)
  | wake hi =>
    apply truthful_setCall _ h
    rw [truthful_wake]
    exact h i

theorem closed_step (hs : Step size q i q') (h : q.closed = true) :
    q'.closed = true := by
  cases hs <;> first | exact h | rfl

theorem open_step (hs : Step size q i q') (h : q.closed = false)
    (hi : kind (q.calls i) ≠ some .close) : q'.closed = false := by
  cases hs with
  | closed hcall _ =>
    rw [hcall] at hi
    exact absurd rfl hi
  | _ => exact h

theorem drained_step (hs : Step size q i q') (h : q.closed = true ∧ q.items = []) :
    q'.closed = true ∧ q'.items = [] := by
  cases hs with
  | pushed _ hc _ => exact absurd (hc.symm.trans h.1) Bool.false_ne_true
  | popped _ hitems => exact absurd (hitems.symm.trans h.2) (List.cons_ne_nil _ _)
  | closed _ _ => exact ⟨rfl, h.2⟩
  | _ => exact h

/-- With one thread that pops, the values leave in the order in which they came. -/
theorem flow_step {p : ι} (hs : Step size q i q') (hp : kind (q.calls p) ≠ some .push)
    (hpop : ∀ j, kind (q.calls j) = some .pop → j = p) :
    (held (q'.calls p) ++ q'.items = held (q.calls p) ++ q.items ∧
      (q.closed = false → ∀ j, kind (q.calls j) = some .push →
        held (q'.calls j) = held (q.calls j))) ∨
      ∃ value, q.calls i = .push value ∧
        held (q'.calls p) ++ q'.items = held (q.calls p) ++ q.items ++ [value] := by
  have hother : ∀ {value : α}, q.calls i = .push value → p ≠ i := by
    rintro value h rfl
    rw [h] at hp
    exact hp rfl
  cases hs with
  | refused h hc =>
    refine Or.inl ⟨?_, fun hopen => absurd (hopen.symm.trans hc) Bool.false_ne_true⟩
    change held (Function.update q.calls i _ p) ++ q.items = _
    rw [Function.update_of_ne (hother h)]
  | pushed h _ _ =>
    refine Or.inr ⟨_, h, ?_⟩
    change held (Function.update q.calls i _ p) ++ (q.items ++ [_]) = _
    rw [Function.update_of_ne (hother h), List.append_assoc]
  | full h _ _ | empty h _ _ | exhausted h _ _ | again h _ | closed h _ =>
    refine Or.inl ⟨?_, fun _ j _ => map_update (by rw [h]; rfl) j⟩
    apply congrArg (· ++ q.items)
    apply map_update
    rw [h]
    rfl
  | popped h hitems =>
    refine Or.inl ⟨?_, ?_⟩
    · rw [← hpop i (by rw [h]; rfl), h, hitems]
      change held (Function.update q.calls i _ i) ++ _ = _
      rw [Function.update_self]
      rfl
    · intro _ j hj
      apply congrArg held
      apply Function.update_of_ne
      rintro rfl
      rw [h] at hj
      cases hj
  | notify h hcalls =>
    have hheld : held (Call.afterNotify _ _ _) = held (_ : Call α) :=
      (held_afterNotify _ _ _).trans (((hcalls.map_eq held_wake i).trans (congrArg held h)).symm)
    refine Or.inl ⟨?_, fun _ j _ => (map_update hheld j).trans (hcalls.map_eq held_wake j)⟩
    apply congrArg (· ++ q.items)
    exact (map_update hheld p).trans (hcalls.map_eq held_wake p)
  | wake h =>
    refine Or.inl ⟨?_, fun _ j _ => map_update (held_wake _) j⟩
    apply congrArg (· ++ q.items)
    apply map_update
    exact held_wake _

variable [Fintype ι]

/-- All values in the queue and in the calls on it. -/
def content (q : BlockingQueue ι α) : Multiset α :=
  (q.items : Multiset α) + ∑ j, (held (q.calls j) : Multiset α)

theorem sum_held_update (calls : ι → Call α) (call : Call α) :
    (∑ j, (held (Function.update calls i call j) : Multiset α)) + held (calls i) =
      (∑ j, (held (calls j) : Multiset α)) + held call := by
  have hrest : ∀ calls' : ι → Call α, (∑ j, (held (calls' j) : Multiset α)) =
      held (calls' i) + ∑ j ∈ Finset.univ.erase i, (held (calls' j) : Multiset α) := by
    intro calls'
    exact (Finset.add_sum_erase _ _ (Finset.mem_univ i)).symm
  have herase : ∑ j ∈ Finset.univ.erase i, (held (Function.update calls i call j) : Multiset α) =
      ∑ j ∈ Finset.univ.erase i, (held (calls j) : Multiset α) := by
    apply Finset.sum_congr rfl
    intro j hj
    rw [Function.update_of_ne (Finset.ne_of_mem_erase hj)]
  rw [hrest, hrest calls, herase, Function.update_self]
  ac_rfl

theorem content_setCall (q : BlockingQueue ι α) (i : ι) (call : Call α) :
    (q.setCall i call).content + held (q.calls i) = q.content + held call := by
  rw [content, content, add_assoc, add_assoc]
  exact congrArg _ (sum_held_update q.calls call)

theorem content_setCall_eq {call : Call α} (h : held call = held (q.calls i)) :
    (q.setCall i call).content = q.content := by
  have hset := content_setCall q i call
  rw [h] at hset
  exact add_right_cancel hset

omit [DecidableEq ι] in
theorem content_congr (hitems : q'.items = q.items)
    (h : ∀ j, held (q'.calls j) = held (q.calls j)) : q'.content = q.content := by
  rw [content, content, hitems]
  congr 1
  apply Finset.sum_congr rfl
  intro j _
  rw [h]

/-- Only a push on a closed queue loses its value. -/
theorem content_step (hopen : ∀ i value, q.calls i = .push value → q.closed = false)
    (hs : Step size q i q') : q'.content = q.content := by
  cases hs with
  | refused h hc => exact absurd ((hopen i _ h).symm.trans hc) Bool.false_ne_true
  | full h _ _ | empty h _ _ | exhausted h _ _ | again h _ | closed h _ =>
    apply content_congr
    · rfl
    · exact map_update (by rw [h]; rfl)
  | pushed h hc hfull =>
    rename_i value
    have hset := content_setCall { q with items := q.items ++ [value] } i
      (.notify .empty false (.pushed true))
    have hitems : content { q with items := q.items ++ [value] } = q.content + [value] := by
      rw [content, content, ← Multiset.coe_add]
      ac_rfl
    rw [h, hitems] at hset
    exact add_right_cancel (hset.trans (add_zero _))
  | popped h hitems =>
    rename_i value items
    have hset := content_setCall { q with items := items } i
      (.notify .empty false (.popped (some value)))
    have hcontent : q.content = content { q with items := items } + [value] := by
      rw [content, content, hitems, ← List.singleton_append, ← Multiset.coe_add, add_assoc, add_comm]
    rw [h] at hset
    rw [hcontent, ← add_zero (content _)]
    exact hset
  | notify h hcalls =>
    apply content_congr
    · rfl
    intro j
    refine (map_update ?_ j).trans (hcalls.map_eq held_wake j)
    rw [hcalls.map_eq held_wake i, h, held_afterNotify]
  | wake h =>
    apply content_congr
    · rfl
    · exact map_update (held_wake _)

end Values

end BlockingQueue

end SoFCheck.Util.Queue
