import SoFCheck.Search.Aborts
import SoFCheck.Search.NotedJob

namespace SoFCheck.Search.Windows

open SoFCheck.Util.Imperative SoFCheck.Util.Imperative.Program
open SoFCheck.Core.Types SoFCheck.Core.BoardState SoFCheck.Core.Moves SoFCheck.Core.Attack
open SoFCheck.Core.Validate SoFCheck.Core.MoveMake SoFCheck.Core.Movegen SoFCheck.Eval.Score
open SoFCheck.Search.Tables SoFCheck.Search.Pickers SoFCheck.Search.TableData SoFCheck.Search.Job
open SoFCheck.Search.NotedJob SoFCheck.Core.InitialPosition
open SoFCheck.Search.FirstMoves
open SoFCheck.Search.Aborts (plainEvaluator keepingShuffler)

section Ranges

/-- A value of `score_t`. -/
def Fits16 (x : Int) : Prop := -32768 ≤ x ∧ x ≤ 32767

/-- What a note is to say: nothing wraps, and a window is not empty. A simple node has
a window without room. -/
def Legal : Note → Prop
  | .converts x => Fits16 x
  | .searches node alpha beta =>
    -scoreInf ≤ alpha ∧ alpha < beta ∧ beta ≤ scoreInf ∧ (node = .simple → beta = alpha + 1)
  | .quiesces alpha beta => -scoreInf ≤ alpha ∧ alpha < beta ∧ beta ≤ scoreInf

/-- The windows of the search: their bounds are infinite, or not farther than the
scores of a checkmate. -/
structure Window (alpha beta : Int) : Prop where
  lt : alpha < beta
  alpha_ge : alpha = -scoreInf ∨ -scoreCheckmate - 1 ≤ alpha
  alpha_le : alpha ≤ scoreCheckmate
  beta_ge : -scoreCheckmate ≤ beta
  beta_le : beta = scoreInf ∨ beta ≤ scoreCheckmate + 1

/-- A result that is not a bound of the window is no farther than a checkmate at
this distance from the root. -/
def Bounded (idepth : Nat) (alpha beta r : Int) : Prop :=
  r ≤ max alpha (scoreCheckmate - idepth) ∧ min beta (idepth - scoreCheckmate) ≤ r

/-- The same for the quiescence search, which knows no checkmates. -/
def Quiet (alpha beta r : Int) : Prop :=
  r ≤ max alpha (scoreCheckmateThreshold - 1) ∧ min beta (1 - scoreCheckmateThreshold) ≤ r

/-- An entry that the search stores. -/
def Sane (data : Data) : Prop :=
  data.bound ≠ PositionCostBound.upperbound.toBits ∧ data.score ≤ scoreCheckmate ∧
    (data.bound = PositionCostBound.exact.toBits → -scoreCheckmate ≤ data.score)

variable {idepth : Nat} {alpha beta r : Int}

theorem window_iff : Window alpha beta ↔ alpha < beta ∧ (alpha = -32767 ∨ -30001 ≤ alpha) ∧
    alpha ≤ 30000 ∧ -30000 ≤ beta ∧ (beta = 32767 ∨ beta ≤ 30001) :=
  ⟨fun ⟨h1, h2, h3, h4, h5⟩ => ⟨h1, h2, h3, h4, h5⟩, fun ⟨h1, h2, h3, h4, h5⟩ => ⟨h1, h2, h3, h4, h5⟩⟩

theorem bounded_iff : Bounded idepth alpha beta r ↔
    r ≤ max alpha (30000 - idepth) ∧ min beta (idepth - 30000) ≤ r := Iff.rfl

theorem quiet_iff : Quiet alpha beta r ↔ r ≤ max alpha 27999 ∧ min beta (-27999) ≤ r := Iff.rfl

theorem window_root : Window (-scoreInf) scoreInf := window_iff.mpr (by decide)

theorem Window.flip (h : Window alpha beta) : Window (-beta) (-alpha) := by
  rw [window_iff] at *
  omega

theorem window_zero (h : -30001 ≤ alpha) (h' : alpha ≤ 30000) : Window (-alpha - 1) (-alpha) := by
  rw [window_iff]
  omega

end Ranges

section Parts

variable [Evaluator]

/-- What the search promises about its notes and its entries, and what it is promised
about the entries that it loads and about the evaluator. -/
def contract : Contract (Noted Answer Note) Unit where
  guar _ q :=
    match q with
    | .inl (.store _ data) => data.isValid = true ∧ Sane data
    | .inr note => Legal note
    | _ => True
  rely _ q a _ :=
    match q, a with
    | .inl (.load _), data => Data.isValid data = true → Sane data
    | .inl (.evalForCur _ _), score => -scoreCheckmateThreshold < (score : Int) ∧
        (score : Int) < scoreCheckmateThreshold
    | _, _ => True
  mayStick := True

theorem silent_contract : contract.Silent := fun _ _ => trivial

variable {ρ α : Type} {s : Searcher} {R : ρ → Unit → Searcher → Prop}

theorem wp_convert {x : Int} (hx : Fits16 x) {Q : Int → Unit → Searcher → Prop} (hQ : Q x () s) :
    wp contract (convert x) Q R () s := by
  refine ⟨hx, fun _ _ _ => ?_⟩
  show Q (toScore x) () s
  rw [toScore_eq hx.1 hx.2]
  exact hQ

theorem wp_notedQuery (q : Question) {Q : Answer q → Unit → Searcher → Prop}
    (hq : contract.guar () (.inl q)) (hQ : ∀ a, contract.rely () (.inl q) a () → Q a () s) :
    wp contract (notedQuery q) Q R () s := wp_embed ⟨hq, fun a _ h => hQ a h⟩

theorem wp_notedReturnIfStopped (value : ρ) : wp contract (notedReturnIfStopped value)
    (fun _ _ s' => s'.stack = s.stack) (fun r _ s' => r = value ∧ s'.stack = s.stack) () s := by
  refine wp_embed ?_
  rw [returnIfStopped, mustStop]
  simp only [wp_bind, wp_ask, wp_ite, wp_pure, wp_modify, wp_gets, wp_earlyReturn]
  refine ⟨trivial, fun stopped _ _ => ?_⟩
  split
  · exact ⟨trivial, trivial⟩
  · split
    · refine ⟨trivial, fun timeout _ _ => ?_⟩
      split <;> trivial
    · refine ⟨trivial, fun d _ _ => ?_⟩
      split <;> trivial

variable [Globals]

theorem wp_notedWithMove {move : Move} {tag : Evaluator.Tag} {body : Evaluator.Tag → NotedPart ρ α}
    {Q : α → (Nat → Frame) → Prop} {R : ρ → (Nat → Frame) → Prop}
    (hbody : ∀ tag s', s'.stack = s.stack → wp contract (body tag) (fun a _ s' => Q a s'.stack)
      (fun r _ s' => R r s'.stack) () s') :
    wp contract (notedWithMove move tag body) (fun a _ s' => Q a s'.stack)
      (fun r _ s' => R r s'.stack) () s := by
  rw [notedWithMove]
  simp only [wp_bind, wp_gets, wp_guarded]
  exact hbody _ _ rfl

end Parts

section Quiescence

variable [Evaluator] [Globals] (S : Sorter) {s : Searcher} {alpha beta : Int}

/-- A search by the opponent, seen from this side. -/
theorem wp_notedQuiescenseMove {recurse : Int → Int → Evaluator.Tag → NotedPart Int Int}
    (hrec : ∀ alpha beta tag s, -scoreInf ≤ alpha → alpha < beta → beta ≤ scoreInf →
      wp contract (recurse alpha beta tag) (fun r _ s' => Quiet alpha beta r ∧ s'.stack = s.stack)
        (fun r _ s' => Quiet alpha beta r ∧ s'.stack = s.stack) () s)
    (hmin : -scoreInf ≤ alpha) (hlt : alpha < beta) (hmax : beta ≤ scoreInf) (tag : Evaluator.Tag) :
    wp contract (notedQuiescenseMove recurse alpha beta tag)
      (fun found _ s' => (∀ score, found = some score → Quiet alpha beta score) ∧ s'.stack = s.stack)
      (fun r _ s' => r = 0 ∧ s'.stack = s.stack) () s := by
  unfold scoreInf at hmin hmax
  rw [notedQuiescenseMove, wp_bind, wp_gets, wp_ite]
  split
  · rw [wp_bind]
    refine wp_convert ⟨by omega, by omega⟩ ?_
    rw [wp_bind]
    refine wp_convert ⟨by omega, by omega⟩ ?_
    rw [wp_bind, wp_call]
    have hafter : ∀ r s', Quiet (-beta) (-alpha) r → s'.stack = s.stack →
        wp contract (do
          notedReturnIfStopped 0
          let score ← convert (-r)
          pure (some score) : NotedPart Int (Option Int))
        (fun found _ s' => (∀ score, found = some score → Quiet alpha beta score) ∧
          s'.stack = s.stack) (fun r _ s' => r = 0 ∧ s'.stack = s.stack) () s' := by
      intro r s' hr hs'
      rw [quiet_iff] at hr
      rw [wp_bind]
      refine wp_mono (wp_notedReturnIfStopped 0) (fun _ _ s'' hs'' => ?_)
        fun _ _ s'' h => ⟨h.1, h.2.trans hs'⟩
      rw [wp_bind]
      refine wp_convert ⟨by omega, by omega⟩ ?_
      refine ⟨fun score hscore => ?_, hs''.trans hs'⟩
      rw [← Option.some.inj hscore, quiet_iff]
      omega
    exact wp_mono (hrec (-beta) (-alpha) tag s (by unfold scoreInf; omega) (by omega)
      (by unfold scoreInf; omega)) (fun r _ s' h => hafter r s' h.1 h.2) fun r _ s' h => hafter r s' h.1 h.2
  · exact ⟨(fun _ he => by cases he), rfl⟩

/-- The quiescence search stays in its window, but for evaluations. -/
theorem wp_notedQuiescenseSearch (levels : Nat) (tag : Evaluator.Tag) (hmin : -scoreInf ≤ alpha)
    (hlt : alpha < beta) (hmax : beta ≤ scoreInf) :
    wp contract (notedQuiescenseSearch S levels alpha beta tag)
      (fun r _ s' => Quiet alpha beta r ∧ s'.stack = s.stack)
      (fun r _ s' => Quiet alpha beta r ∧ s'.stack = s.stack) () s := by
  induction levels generalizing alpha beta tag s with
  | zero => trivial
  | succ levels ih =>
    have hzero : Quiet alpha beta 0 := by
      rw [quiet_iff]
      omega
    rw [notedQuiescenseSearch, wp_bind, wp_note]
    refine ⟨⟨hmin, hlt, hmax⟩, fun _ _ => ?_⟩
    rw [wp_bind, wp_gets, wp_ite]
    split
    · exact ⟨hzero, rfl⟩
    rw [wp_bind]
    refine wp_notedQuery _ trivial fun (evalScore : Int) heval => ?_
    obtain ⟨heval, heval'⟩ : -28000 < evalScore ∧ evalScore < 28000 := heval
    rw [wp_ite]
    split
    · refine ⟨?_, rfl⟩
      rw [quiet_iff]
      omega
    rename_i hopen
    refine wp_mono (wp_forLoop (fun _ a _ s' => alpha ≤ a ∧ a < beta ∧ a ≤ max alpha 27999 ∧
      -27999 ≤ a ∧ s'.stack = s.stack) (fun _ => 0) ?_ pickerTurns (Or.inr trivial)
      ⟨by omega, by omega, by omega, by omega, rfl⟩) (fun a _ s' h => ?_) fun _ _ _ h => h
    · intro picker a _ s' move picker' h hn
      obtain ⟨hge, hlt', hle, hge', hstack⟩ := h
      refine ⟨Or.inr trivial, ?_⟩
      rw [notedQuiescenseTurn, wp_ite]
      split
      · exact ⟨hge, hlt', hle, hge', hstack⟩
      rw [wp_bind]
      refine wp_mono (wp_notedWithMove (Q := fun found stack =>
        (∀ score, found = some score → Quiet a beta score) ∧ stack = s'.stack)
        (R := fun r stack => r = 0 ∧ stack = s'.stack) fun tag s₁ hs₁ => ?_)
        (fun found _ s₁ h₁ => ?_) fun r _ s₁ h₁ => ⟨h₁.1 ▸ hzero, h₁.2.trans hstack⟩
      · rw [← hs₁]
        exact wp_notedQuiescenseMove (fun alpha beta tag s hmin hlt hmax => ih tag hmin hlt hmax)
          (hmin.trans hge) hlt' hmax tag
      · cases found with
        | none => exact ⟨hge, hlt', hle, hge', h₁.2.trans hstack⟩
        | some score =>
          have hscore := quiet_iff.mp (h₁.1 score rfl)
          rw [wp_bind]
          refine wp_notedQuery _ trivial fun _ _ => ?_
          rw [wp_ite]
          split
          · refine ⟨?_, h₁.2.trans hstack⟩
            rw [quiet_iff]
            omega
          · exact ⟨by omega, by omega, by omega, by omega, h₁.2.trans hstack⟩
    · obtain ⟨-, ⟨-, -, hle, hge', hstack⟩, -⟩ := h
      refine ⟨?_, hstack⟩
      rw [quiet_iff]
      omega

end Quiescence

section Node

variable [Evaluator] {s s' s'' : Searcher} {idepth : Nat} {alpha beta : Int} {ρ : Type}

/-- The frames above a node stay as they are. -/
def Kept (n : Nat) (s s' : Searcher) : Prop := ∀ i < n, s'.stack i = s.stack i

omit [Evaluator] in
theorem Kept.trans {n : Nat} (h : Kept n s s') (h' : Kept n s' s'') : Kept n s s'' :=
  fun i hi => (h' i hi).trans (h i hi)

omit [Evaluator] in
theorem kept_of_stack {n : Nat} (h : s'.stack = s.stack) : Kept n s s' := fun i _ => congrFun h i

omit [Evaluator] in
theorem kept_setFrame (frame : Frame) : Kept idepth s (s.setFrame idepth frame) :=
  fun _ hi => Function.update_of_ne hi.ne _ _

omit [Evaluator] in
theorem bounded_zero (hidepth : idepth ≤ 264) : Bounded idepth alpha beta 0 := by
  rw [bounded_iff]
  omega

/-- A search keeps to the bounds of its distance from the root. -/
def SearchOk (idepth : Nat) (search : NotedRecurse) : Prop :=
  ∀ node depth alpha beta tag flags s, Window alpha beta → (node = .simple → beta = alpha + 1) →
    wp contract (search node depth idepth alpha beta tag flags)
      (fun r _ s' => Bounded idepth alpha beta r ∧ Kept idepth s s')
      (fun r _ s' => Bounded idepth alpha beta r ∧ Kept idepth s s') () s

theorem wp_notedAdjust {score delta : Int} {R : ρ → Unit → Searcher → Prop}
    {Q : Int → Unit → Searcher → Prop} (hup : 28000 ≤ score → Fits16 (score - delta))
    (hdown : score ≤ -28000 → Fits16 (score + delta))
    (hQ : Q (if scoreCheckmateThreshold ≤ score then score - delta
      else if -scoreCheckmateThreshold < score then score else score + delta) () s) : wp contract (notedAdjust score delta) Q R () s := by
  rw [notedAdjust, wp_ite]
  split
  · rename_i h
    rw [if_pos h] at hQ
    exact wp_convert (hup h) hQ
  · rename_i h
    rw [if_neg h] at hQ
    rw [wp_ite]
    split
    · rename_i h'
      rw [if_pos h'] at hQ
      exact hQ
    · rename_i h'
      rw [if_neg h'] at hQ
      exact wp_convert (hdown (not_lt.mp h')) hQ

/-- A cutoff of a sane entry is within the bounds. -/
theorem wp_notedProbe (hidepth : idepth ≤ 264) (node : NodeKind) (depth : Int) :
    wp contract (notedProbe node depth idepth alpha beta) (fun _ _ s' => s' = s)
      (fun r _ s' => Bounded idepth alpha beta r ∧ Kept idepth s s') () s := by
  rw [notedProbe, wp_bind, wp_gets, wp_bind]
  refine wp_notedQuery _ trivial fun (data : Data) hdata => ?_
  rw [wp_ite]
  split
  · rename_i hvalid
    obtain ⟨hupper, hle, hge⟩ : Sane data := hdata hvalid
    have hallow : wp contract ((allowCutoff node depth s.board data).embed Note)
        (fun _ _ s' => s' = s) (fun r _ s' => Bounded idepth alpha beta r ∧ Kept idepth s s') () s := by
      refine wp_embed ?_
      rw [allowCutoff, wp_ite]
      split
      · rw [wp_ite]
        split
        · exact ⟨trivial, fun _ _ _ => rfl⟩
        · exact rfl
      · exact rfl
    rw [wp_bind]
    refine wp_mono hallow (fun allow _ s' hs' => ?_) fun _ _ _ h => h
    subst hs'
    rw [wp_ite]
    split
    · have hlow : -32768 ≤ data.score := by
        have := BitVec.le_toInt data.score_
        rw [Data.score]
        omega
      unfold scoreCheckmate at hle hge
      rw [wp_bind]
      refine wp_notedAdjust (fun h => ⟨by omega, by omega⟩) (fun h => ⟨by omega, by omega⟩) ?_
      generalize hscore : (if scoreCheckmateThreshold ≤ data.score then data.score - idepth
        else if -scoreCheckmateThreshold < data.score then data.score else data.score + idepth) = score
      unfold scoreCheckmateThreshold at hscore
      rw [wp_ite]
      split
      · rename_i hcut
        refine ⟨?_, kept_setFrame _⟩
        rw [bounded_iff]
        obtain hexact | ⟨-, hbeta⟩ | ⟨hbound, -⟩ := of_decide_eq_true hcut
        · have := hge hexact
          split_ifs at hscore <;> omega
        · split_ifs at hscore <;> omega
        · exact absurd hbound hupper
      · rfl
    · rfl
  · rfl

omit [Evaluator] in
theorem margins_range (depth : Int) : (0 ≤ Futility.margins depth ∧ Futility.margins depth ≤ 350) ∧
    0 ≤ Razoring.margins depth ∧ Razoring.margins depth ≤ 400 := by
  unfold Futility.margins Razoring.margins
  generalize depth.toNat = n
  match n with
  | 0 | 1 | 2 | 3 | 4 => decide
  | n + 5 => simp

theorem wp_getEvalScore (tag : Evaluator.Tag) (evalScore : Option Int)
    {R : Int → Unit → Searcher → Prop} :
    wp contract ((getEvalScore tag evalScore).embed Note) (fun _ _ s' => s' = s) R () s := by
  refine wp_embed ?_
  cases evalScore with
  | none => exact ⟨trivial, fun _ _ _ => rfl⟩
  | some score => exact rfl

theorem wp_notedFutility (hidepth : idepth ≤ 264) (hbeta : beta < 28000) (hbeta' : -28000 < beta)
    (depth : Int) (tag : Evaluator.Tag) :
    wp contract (notedFutility depth beta tag) (fun _ _ s' => s' = s)
      (fun r _ s' => Bounded idepth alpha beta r ∧ Kept idepth s s') () s := by
  obtain ⟨⟨hmin, hmax⟩, -⟩ := margins_range depth
  rw [notedFutility, wp_ite]
  split
  · rw [wp_bind]
    refine wp_convert ⟨by omega, by omega⟩ ?_
    rw [wp_bind]
    refine wp_mono (wp_getEvalScore tag none) (fun evalScore _ s' hs' => ?_) fun _ _ _ h => h
    subst hs'
    rw [wp_ite]
    split
    · refine ⟨?_, fun _ _ => rfl⟩
      rw [bounded_iff]
      omega
    · rfl
  · rfl

variable [Globals]

theorem wp_notedRazoring (S : Sorter) (hidepth : idepth ≤ 264) (halpha : alpha < 28000)
    (halpha' : -28000 < alpha) (depth : Int) (tag : Evaluator.Tag) (evalScore : Option Int) :
    wp contract (notedRazoring S depth alpha tag evalScore) (fun _ _ s' => s'.stack = s.stack)
      (fun r _ s' => Bounded idepth alpha beta r ∧ Kept idepth s s') () s := by
  obtain ⟨-, hmin, hmax⟩ := margins_range depth
  rw [notedRazoring, wp_ite]
  split
  · rw [wp_bind]
    refine wp_convert ⟨by omega, by omega⟩ ?_
    rw [wp_bind]
    refine wp_mono (wp_getEvalScore tag evalScore) (fun evalScore _ s' hs' => ?_) fun _ _ _ h => h
    subst hs'
    rw [wp_ite]
    split
    · rw [wp_bind]
      refine wp_convert ⟨by omega, by omega⟩ ?_
      rw [wp_bind, wp_call]
      have hafter : ∀ (score : Int) (s₁ : Searcher), s₁.stack = s'.stack → wp contract
          (if score ≤ alpha - Razoring.margins depth then earlyReturn alpha else pure () :
            NotedPart Int Unit) (fun _ _ s₂ => s₂.stack = s'.stack)
          (fun r _ s₂ => Bounded idepth alpha beta r ∧ Kept idepth s' s₂) () s₁ := by
        intro score s₁ hs₁
        rw [wp_ite]
        split
        · refine ⟨?_, kept_of_stack hs₁⟩
          rw [bounded_iff]
          omega
        · exact hs₁
      exact wp_mono (wp_notedQuiescenseSearch S quiescenseLevels tag (by unfold scoreInf; omega)
        (by omega) (by unfold scoreInf; omega)) (fun r _ s₁ h => hafter r s₁ h.2)
        fun r _ s₁ h => hafter r s₁ h.2
    · rfl
  · rfl

theorem wp_notedLeafSearch (S : Sorter) (hidepth : idepth ≤ 264) (h : Window alpha beta)
    (tag : Evaluator.Tag) :
    wp contract (notedLeafSearch S alpha beta tag)
      (fun r _ s' => Bounded idepth alpha beta r ∧ Kept idepth s s')
      (fun r _ s' => Bounded idepth alpha beta r ∧ Kept idepth s s') () s := by
  rw [window_iff] at h
  rw [notedLeafSearch]
  unfold scoreCheckmateThreshold
  rw [wp_ite]
  split
  · refine ⟨?_, fun _ _ => rfl⟩
    rw [bounded_iff]
    omega
  rw [wp_ite]
  split
  · refine ⟨?_, fun _ _ => rfl⟩
    rw [bounded_iff]
    omega
  have hquiet : ∀ r (s' : Searcher), Quiet alpha beta r ∧ s'.stack = s.stack →
      Bounded idepth alpha beta r ∧ Kept idepth s s' := by
    intro r s' h'
    have hr := quiet_iff.mp h'.1
    refine ⟨?_, kept_of_stack h'.2⟩
    rw [bounded_iff]
    omega
  rw [wp_call]
  exact wp_mono (wp_notedQuiescenseSearch S quiescenseLevels tag (by unfold scoreInf; omega)
    (by omega) (by unfold scoreInf; omega)) (fun r _ s' h' => hquiet r s' h') fun r _ s' h' => hquiet r s' h'

section Children

variable {search : NotedRecurse} (hsearch : SearchOk (idepth + 1) search)

include hsearch

omit [Globals] in
theorem wp_child {β : Type} {alpha' beta' : Int} (h : Window alpha' beta') {node : NodeKind}
    (hnode : node = .simple → beta' = alpha' + 1) (depth : Int) (tag : Evaluator.Tag) (flags : Flags)
    {f : Int → NotedPart Int β} {Q : β → Unit → Searcher → Prop}
    (hf : ∀ r s', Bounded (idepth + 1) alpha' beta' r → Kept (idepth + 1) s s' →
      wp contract (f r) Q (fun r _ s' => r = 0 ∧ Kept (idepth + 1) s s') () s') :
    wp contract (do
        let score ← call (search node depth (idepth + 1) alpha' beta' tag flags)
        notedReturnIfStopped 0
        f score) Q (fun r _ s' => r = 0 ∧ Kept (idepth + 1) s s') () s := by
  rw [wp_bind, wp_call]
  have hafter : ∀ r s', Bounded (idepth + 1) alpha' beta' r ∧ Kept (idepth + 1) s s' →
      wp contract (do
        notedReturnIfStopped 0
        f r) Q (fun r _ s' => r = 0 ∧ Kept (idepth + 1) s s') () s' := by
    intro r s' h'
    rw [wp_bind]
    exact wp_mono (wp_notedReturnIfStopped 0) (fun _ _ s'' hs => hf r s'' h'.1 (h'.2.trans (kept_of_stack hs)))
      fun _ _ s'' hs => ⟨hs.1, h'.2.trans (kept_of_stack hs.2)⟩
  exact wp_mono (hsearch node depth alpha' beta' tag flags s h hnode) (fun r _ s' h' => hafter r s' h')
    fun r _ s' h' => hafter r s' h'

omit [Globals] in
theorem wp_notedSearchNullMove (hwindow : Window alpha beta) (hbeta : beta < 28000) (depth : Int)
    (flags : Flags) (tag : Evaluator.Tag) :
    wp contract (notedSearchNullMove search depth idepth beta flags tag)
      (fun _ _ s' => Kept (idepth + 1) s s') (fun r _ s' => r = 0 ∧ Kept (idepth + 1) s s') () s := by
  rw [window_iff] at hwindow
  rw [notedSearchNullMove, wp_bind]
  refine wp_convert ⟨by omega, by omega⟩ ?_
  rw [wp_bind]
  refine wp_convert ⟨by omega, by omega⟩ ?_
  refine wp_child hsearch (window_iff.mpr (by omega)) (fun _ => rfl) _ tag _ fun r s' hr hs' => ?_
  rw [bounded_iff] at hr
  exact wp_convert ⟨by omega, by omega⟩ hs'

theorem wp_notedPrune (S : Sorter) (hidepth : idepth ≤ 264) (hwindow : Window alpha beta)
    (node : NodeKind) (depth : Int) (tag : Evaluator.Tag) (flags : Flags) (isInCheck : Bool) :
    wp contract (notedPrune S search node depth idepth alpha beta tag flags isInCheck)
      (fun _ _ s' => Kept (idepth + 1) s s')
      (fun r _ s' => Bounded idepth alpha beta r ∧ Kept idepth s s') () s := by
  rw [notedPrune]
  unfold scoreCheckmateThreshold
  rw [wp_ite]
  split
  · rename_i hcond
    simp only [Bool.and_eq_true, Bool.not_eq_true', Bool.or_eq_false_iff, decide_eq_false_iff_not] at hcond
    obtain ⟨-, halpha, hbeta⟩ := hcond
    have hlt := hwindow.lt
    rw [wp_bind]
    refine wp_mono (wp_notedFutility hidepth (by omega) (by omega) depth tag)
      (fun evalScore _ s₁ hs₁ => ?_) fun _ _ _ h => h
    subst hs₁
    rw [wp_bind]
    refine wp_mono (wp_notedRazoring S hidepth (by omega) (by omega) depth tag evalScore)
      (fun _ _ s₂ hs₂ => ?_) fun _ _ _ h => h
    have hkept : Kept (idepth + 1) s₁ s₂ := kept_of_stack hs₂
    rw [wp_ite]
    split
    · rw [notedNullMoveReduction, wp_bind]
      refine wp_mono (wp_notedWithMove (Q := fun _ stack => ∀ i < idepth + 1, stack i = s₂.stack i)
        (R := fun r stack => r = 0 ∧ ∀ i < idepth + 1, stack i = s₂.stack i) fun tag s₃ hs₃ => ?_)
        (fun score _ s₃ hs₃ => ?_) fun r _ s₃ h => ⟨h.1 ▸ bounded_zero hidepth, fun i hi =>
          (h.2 i (hi.trans (Nat.lt_succ_self idepth))).trans (hkept i (hi.trans (Nat.lt_succ_self idepth)))⟩
      · rw [← hs₃]
        exact wp_notedSearchNullMove hsearch hwindow (by omega) depth flags tag
      · rw [wp_ite]
        split
        · exact hkept.trans hs₃
        · exact hkept.trans hs₃
    · exact hkept
  · exact fun _ _ => rfl

omit [Globals] in
theorem wp_notedLateMoveReduction (hmin : -30001 ≤ alpha) (hmax : alpha ≤ 30000) (lmrEnabled : Bool)
    (depth : Int) (tag : Evaluator.Tag) (newFlags : Flags) :
    wp contract (notedLateMoveReduction lmrEnabled search depth idepth alpha tag newFlags)
      (fun _ _ s' => Kept (idepth + 1) s s') (fun r _ s' => r = 0 ∧ Kept (idepth + 1) s s') () s := by
  rw [notedLateMoveReduction, wp_ite]
  split
  · rw [wp_bind]
    refine wp_convert ⟨by omega, by omega⟩ ?_
    rw [wp_bind]
    refine wp_convert ⟨by omega, by omega⟩ ?_
    refine wp_child hsearch (window_zero hmin hmax) (fun _ => by omega) _ tag _ fun r s' hr hs' => ?_
    rw [bounded_iff] at hr
    rw [wp_bind]
    exact wp_convert ⟨by omega, by omega⟩ hs'
  · exact fun _ _ => rfl

omit [Globals] in
theorem wp_notedZeroWindowSearch (hmin : -30001 ≤ alpha) (hmax : alpha ≤ 30000) (depth : Int)
    (tag : Evaluator.Tag) (newFlags : Flags) :
    wp contract (notedZeroWindowSearch search depth idepth alpha tag newFlags)
      (fun score _ s' => (score = alpha ∨ score = alpha + 1 ∧ alpha < 29999 - idepth) ∧
        Kept (idepth + 1) s s')
      (fun r _ s' => r = 0 ∧ Kept (idepth + 1) s s') () s := by
  rw [notedZeroWindowSearch, wp_bind]
  refine wp_convert ⟨by omega, by omega⟩ ?_
  rw [wp_bind]
  refine wp_convert ⟨by omega, by omega⟩ ?_
  refine wp_child hsearch (window_zero hmin hmax) (fun _ => by omega) _ tag _ fun r s' hr hs' => ?_
  rw [bounded_iff] at hr
  rw [wp_bind]
  refine wp_convert ⟨by omega, by omega⟩ ?_
  rw [wp_ite]
  split
  · exact ⟨Or.inl rfl, hs'⟩
  · exact wp_convert ⟨by omega, by omega⟩ ⟨Or.inr ⟨rfl, by omega⟩, hs'⟩

omit [Globals] in
theorem wp_notedFullWindowSearch (hwindow : Window alpha beta) {node : NodeKind}
    (hnode : node = .simple → beta = alpha + 1) (depth : Int) (tag : Evaluator.Tag) (newFlags : Flags) :
    wp contract (notedFullWindowSearch search node depth idepth alpha beta tag newFlags)
      (fun score _ s' => (score ≤ max alpha (29999 - idepth) ∧ min beta (idepth - 29999) ≤ score) ∧
        Kept (idepth + 1) s s')
      (fun r _ s' => r = 0 ∧ Kept (idepth + 1) s s') () s := by
  have hranges := window_iff.mp hwindow
  rw [notedFullWindowSearch, wp_bind]
  refine wp_convert ⟨by omega, by omega⟩ ?_
  rw [wp_bind]
  refine wp_convert ⟨by omega, by omega⟩ ?_
  have hkind : (if node.isPv then NodeKind.pv else NodeKind.simple) = .simple → -alpha = -beta + 1 := by
    cases node with
    | root | pv =>
      intro he
      cases he
    | simple =>
      intro _
      have := hnode rfl
      omega
  refine wp_child hsearch hwindow.flip hkind _ tag _ fun r s' hr hs' => ?_
  rw [bounded_iff] at hr
  refine wp_convert ⟨by omega, by omega⟩ ⟨⟨?_, ?_⟩, hs'⟩ <;> omega

omit [Globals] in
theorem wp_notedPvSearch (hwindow : Window alpha beta) {node : NodeKind}
    (hnode : node = .simple → beta = alpha + 1) (depth : Int) (tag : Evaluator.Tag) (newFlags : Flags)
    (isFirstMove : Bool) (hfirst : isFirstMove = false → min beta (idepth - 29999) ≤ alpha) :
    wp contract (notedPvSearch search node depth idepth alpha beta tag newFlags isFirstMove)
      (fun score _ s' => (score ≤ max alpha (29999 - idepth) ∧ min beta (idepth - 29999) ≤ score) ∧
        Kept (idepth + 1) s s')
      (fun r _ s' => r = 0 ∧ Kept (idepth + 1) s s') () s := by
  have hranges := window_iff.mp hwindow
  rw [notedPvSearch, wp_ite]
  split
  · rename_i hcond
    rw [Bool.and_eq_true, Bool.not_eq_true'] at hcond
    have hge := hfirst hcond.2
    rw [wp_bind]
    refine wp_mono (wp_notedZeroWindowSearch hsearch (by omega) (by omega) depth tag newFlags)
      (fun score _ s' h => ?_) fun _ _ _ h => h
    rw [wp_ite]
    split
    · exact wp_mono (wp_notedFullWindowSearch hsearch hwindow hnode depth tag newFlags)
        (fun _ _ _ h' => ⟨h'.1, h.2.trans h'.2⟩) fun _ _ _ h' => ⟨h'.1, h.2.trans h'.2⟩
    · refine ⟨⟨?_, ?_⟩, h.2⟩ <;> omega
  · exact wp_notedFullWindowSearch hsearch hwindow hnode depth tag newFlags

/-- The results of a move: one that is not searched to the end is not the first. -/
def MoveRange (idepth : Nat) (beta : Int) (l : Locals) : MoveResult → Prop
  | .illegal => True
  | .reduced _ => l.hasMove = true
  | .searched score _ => score ≤ max l.alpha (29999 - idepth) ∧ min beta (idepth - 29999) ≤ score

theorem wp_notedSearchMove {l : Locals} (hwindow : Window l.alpha beta) {node : NodeKind}
    (hnode : node = .simple → beta = l.alpha + 1)
    (hmoved : l.hasMove = true → min beta (idepth - 29999) ≤ l.alpha) (depth : Int) (flags : Flags)
    (move : Move) (stage : MovePickerStage) (tag : Evaluator.Tag) :
    wp contract (notedSearchMove search node depth idepth beta flags move stage l tag)
      (fun result _ s' => MoveRange idepth beta l result ∧ Kept (idepth + 1) s s')
      (fun r _ s' => r = 0 ∧ Kept (idepth + 1) s s') () s := by
  have hranges := window_iff.mp hwindow
  rw [notedSearchMove, wp_bind, wp_gets, wp_ite]
  split
  · have hrest : ∀ (lmrEnabled : Bool) (n : Nat) (newFlags : Flags),
        (lmrEnabled = true → l.hasMove = true) → wp contract (do
          let isReduced ← notedLateMoveReduction lmrEnabled search depth idepth l.alpha tag newFlags
          if isReduced then pure (.reduced n)
          else
            let score ← notedPvSearch search node depth idepth l.alpha beta tag newFlags (!l.hasMove)
            pure (.searched score n) : NotedPart Int MoveResult)
        (fun result _ s' => MoveRange idepth beta l result ∧ Kept (idepth + 1) s s')
        (fun r _ s' => r = 0 ∧ Kept (idepth + 1) s s') () s := by
      intro lmrEnabled n newFlags hlmr
      have hsearched : ∀ s', Kept (idepth + 1) s s' → wp contract (do
            let score ← notedPvSearch search node depth idepth l.alpha beta tag newFlags (!l.hasMove)
            pure (.searched score n) : NotedPart Int MoveResult)
          (fun result _ s' => MoveRange idepth beta l result ∧ Kept (idepth + 1) s s')
          (fun r _ s' => r = 0 ∧ Kept (idepth + 1) s s') () s' := by
        intro s' hs'
        rw [wp_bind]
        exact wp_mono (wp_notedPvSearch hsearch hwindow hnode depth tag newFlags _
          fun hfirst => hmoved (by simpa using hfirst)) (fun score _ s'' h => ⟨h.1, hs'.trans h.2⟩)
          fun r _ s'' h => ⟨h.1, hs'.trans h.2⟩
      rw [wp_bind]
      cases lmrEnabled with
      | false => exact hsearched s fun _ _ => rfl
      | true =>
        have hhas := hlmr rfl
        have hge := hmoved hhas
        refine wp_mono (wp_notedLateMoveReduction hsearch (by omega) (by omega) true depth tag newFlags)
          (fun isReduced _ s' hs' => ?_) fun _ _ _ h => h
        rw [wp_ite]
        split
        · exact ⟨hhas, hs'⟩
        · exact hsearched s' hs'
    exact hrest _ _ _ fun h => (of_decide_eq_true h).2.1
  · exact ⟨trivial, fun _ _ => rfl⟩

omit hsearch

/-- In the loop over the moves alpha is what it was, or the score of a move. -/
structure Turning (idepth : Nat) (origAlpha beta : Int) (s : Searcher) (l : Locals) (s' : Searcher) :
    Prop where
  kept : Kept idepth s s'
  ge : origAlpha ≤ l.alpha
  lt : l.alpha < beta
  raised : l.alpha = origAlpha ∨ idepth - 29999 ≤ l.alpha ∧ l.alpha ≤ 29999 - idepth
  moved : l.hasMove = true → min beta (idepth - 29999) ≤ l.alpha
  best : (s'.stack idepth).bestMove ≠ Move.null → origAlpha < l.alpha

omit [Evaluator] [Globals] in
theorem Turning.after {l : Locals} (h : Turning idepth alpha beta s l s')
    (h' : Kept (idepth + 1) s' s'') : Turning idepth alpha beta s l s'' where
  kept := h.kept.trans fun i hi => h' i (hi.trans (Nat.lt_succ_self idepth))
  ge := h.ge
  lt := h.lt
  raised := h.raised
  moved := h.moved
  best := by
    rw [h' idepth (Nat.lt_succ_self idepth)]
    exact h.best

omit [Evaluator] [Globals] in
theorem Turning.window {l : Locals} (h : Turning idepth alpha beta s l s') (hwindow : Window alpha beta) :
    Window l.alpha beta := by
  have hge := h.ge
  have hlt := h.lt
  have hraised := h.raised
  rw [window_iff] at *
  omega

omit [Evaluator] [Globals] in
theorem sane_of {bound : PositionCostBound} (hbound : bound ≠ .upperbound) (move : Move) {score : Int}
    (depth : Int) (hmin : -32768 ≤ score) (hmax : score ≤ 30000)
    (hexact : bound = .exact → -30000 ≤ score) :
    (Data.of move score depth bound).isValid = true ∧ Sane (Data.of move score depth bound) := by
  have hscore : (Data.of move score depth bound).score = score := by
    show (BitVec.ofInt 16 score).toInt = score
    rw [BitVec.toInt_ofInt]
    exact toScore_eq hmin (by omega)
  have hbits : (Data.of move score depth bound).bound = bound.toBits :=
    Data.bound_of move score depth bound
  refine ⟨Data.isValid_of move score depth bound, ?_, ?_, ?_⟩
  · rw [hbits]
    cases bound with
    | upperbound => exact absurd rfl hbound
    | exact | lowerbound => decide
  · rw [hscore]
    exact hmax
  · rw [hscore, hbits]
    intro h
    apply hexact
    cases bound with
    | exact => rfl
    | upperbound | lowerbound => exact absurd h (by decide)

omit [Globals] in
/-- A score inside the bounds is stored without a wrap. -/
theorem wp_notedTtStore (hidepth : idepth ≤ 264) (hlt : alpha < beta) {score : Int}
    (hscore : alpha < score) (hle : score ≤ beta) (hmax : score ≤ 29999 - idepth)
    (hmin : score < beta → idepth - 29999 ≤ score) (hbeta : -30000 ≤ beta) (depth : Int)
    {R : Int → Unit → Searcher → Prop} :
    wp contract (notedTtStore alpha beta depth idepth score) (fun _ _ s' => s' = s) R () s := by
  obtain ⟨bound, hbound, hout⟩ : ∃ bound : PositionCostBound, bound ≠ .upperbound ∧
      boundedScore alpha beta score = (bound, score) ∧ (bound = .exact → score < beta) := by
    rw [boundedScore, if_neg (not_le.mpr hscore)]
    dsimp only
    split
    · rename_i hge
      have heq : score = beta := le_antisymm hle hge
      subst heq
      exact ⟨.lowerbound, nofun, rfl, fun he => by cases he⟩
    · rename_i hge
      exact ⟨.exact, nofun, rfl, fun _ => not_le.mp hge⟩
  have hlow : -30000 ≤ score := by
    obtain hlt' | heq := lt_or_eq_of_le hle
    · have := hmin hlt'
      omega
    · omega
  rw [notedTtStore, hout.1]
  dsimp only
  rw [wp_bind]
  refine wp_notedAdjust (fun h => ⟨by omega, by omega⟩) (fun h => ⟨by omega, by omega⟩) ?_
  generalize hstored : (if scoreCheckmateThreshold ≤ score then score - -(idepth : Int)
    else if -scoreCheckmateThreshold < score then score else score + -(idepth : Int)) = stored
  unfold scoreCheckmateThreshold at hstored
  rw [wp_bind, wp_gets, wp_ite]
  split
  · rw [wp_bind, wp_gets]
    refine wp_notedQuery _ (sane_of hbound _ depth ?_ ?_ fun hexact => ?_) fun _ _ => rfl
    · split_ifs at hstored <;> omega
    · split_ifs at hstored <;> omega
    · have := hmin (hout.2 hexact)
      split_ifs at hstored <;> omega
  · exact rfl

omit [Globals] in
theorem wp_notedTtStore_unraised (hidepth : idepth ≤ 264) (hlt : alpha < beta) (hmin : -30001 ≤ alpha)
    (hmax : alpha ≤ 30000) (hbest : (s.stack idepth).bestMove = Move.null) (depth : Int)
    {R : Int → Unit → Searcher → Prop} :
    wp contract (notedTtStore alpha beta depth idepth alpha) (fun _ _ s' => s' = s) R () s := by
  rw [notedTtStore, boundedScore, if_pos le_rfl]
  dsimp only
  rw [if_neg (not_le.mpr hlt), wp_bind]
  refine wp_notedAdjust (fun h => ⟨by omega, by omega⟩) (fun h => ⟨by omega, by omega⟩) ?_
  rw [wp_bind, wp_gets, wp_ite, if_neg (not_not_intro hbest)]
  rfl

omit [Globals] in
theorem wp_notedTakeScore (hidepth : idepth ≤ 264) (hwindow : Window alpha beta) {l : Locals}
    (h : Turning idepth alpha beta s l s') {score : Int}
    (hscore : score ≤ max l.alpha (29999 - idepth) ∧ min beta (idepth - 29999) ≤ score)
    (node : NodeKind) (depth : Int) (move : Move) (stage : MovePickerStage) (numHistoryMoves : Nat) :
    wp contract
      (notedTakeScore node depth idepth alpha beta move stage l score numHistoryMoves)
      (fun l' _ s'' => Turning idepth alpha beta s l' s'')
      (fun r _ s'' => Bounded idepth alpha beta r ∧ Kept idepth s s'') () s' := by
  have hranges := window_iff.mp hwindow
  obtain ⟨hkept, hge, hlt, hraised, hmoved, hbest⟩ := h
  rw [notedTakeScore, wp_bind]
  refine wp_notedQuery _ trivial fun _ _ => ?_
  rw [wp_bind, wp_modify]
  obtain ⟨s₁, hs₁, hkept₁, hbest₁⟩ : ∃ s₁, (if score > l.alpha then s'.setBestMove idepth move else s') = s₁ ∧
      Kept idepth s s₁ ∧ ((s₁.stack idepth).bestMove ≠ Move.null → alpha < max l.alpha score) := by
    split
    · exact ⟨_, rfl, hkept.trans (kept_setFrame _), fun _ => by omega⟩
    · exact ⟨_, rfl, hkept, fun hne => by have := hbest hne; omega⟩
  rw [hs₁]
  have halpha : (if score > l.alpha then score else l.alpha) = max l.alpha score := by
    split <;> omega
  rw [halpha, wp_ite]
  split
  · rw [wp_bind, wp_modify, wp_bind]
    have hkept₂ : Kept idepth s (if node ≠ .root ∧ stage.toNat ≥ MovePickerStage.killer.toNat then
        s₁.addKiller idepth move depth else s₁) := by
      split
      · exact hkept₁.trans (kept_setFrame _)
      · exact hkept₁
    refine wp_mono (wp_notedTtStore hidepth hwindow.lt (by omega) le_rfl (by omega) (by omega) (by omega)
      depth) (fun _ _ s₂ hs₂ => ⟨?_, hs₂ ▸ hkept₂⟩) fun _ _ _ h => h
    rw [bounded_iff]
    omega
  · refine ⟨hkept₁, ?_, ?_, ?_, fun _ => ?_, hbest₁⟩ <;> dsimp only <;> omega

theorem wp_notedNodeTurn (hsearch : SearchOk (idepth + 1) search) (hidepth : idepth ≤ 264)
    (hwindow : Window alpha beta) {node : NodeKind} (hnode : node = .simple → beta = alpha + 1)
    {l : Locals} (h : Turning idepth alpha beta s l s') (depth : Int) (tag : Evaluator.Tag)
    (flags : Flags) (move : Move) (picker : NodePicker) :
    wp contract (notedNodeTurn search node depth idepth alpha beta tag flags move picker l)
      (fun l' _ s'' => Turning idepth alpha beta s l' s'')
      (fun r _ s'' => Bounded idepth alpha beta r ∧ Kept idepth s s'') () s' := by
  rw [notedNodeTurn, wp_ite]
  split
  · exact h
  have hsimple : node = .simple → beta = l.alpha + 1 := by
    intro hs
    have := hnode hs
    have := h.ge
    have := h.lt
    omega
  rw [wp_bind]
  refine wp_mono (wp_notedWithMove (Q := fun result stack => MoveRange idepth beta l result ∧
    ∀ i < idepth + 1, stack i = s'.stack i) (R := fun r stack => r = 0 ∧
      ∀ i < idepth + 1, stack i = s'.stack i) fun tag s₁ hs₁ => ?_) (fun result _ s₁ h₁ => ?_)
    fun r _ s₁ h₁ => ⟨h₁.1 ▸ bounded_zero hidepth, (h.after h₁.2).kept⟩
  · rw [← hs₁]
    exact wp_notedSearchMove hsearch (h.window hwindow) hsimple h.moved depth flags move picker.stage tag
  · have hturn := h.after h₁.2
    cases result with
    | illegal => exact hturn
    | reduced numHistoryMoves =>
      exact ⟨hturn.kept, hturn.ge, hturn.lt, hturn.raised, fun _ => hturn.moved h₁.1, hturn.best⟩
    | searched score numHistoryMoves =>
      exact wp_notedTakeScore hidepth hwindow hturn h₁.1 node depth move picker.stage numHistoryMoves

end Children

section Nodes

variable (S : Sorter) (D : Shuffler) (jobId : Nat) {search : NotedRecurse}

theorem wp_notedSearchMoves (hsearch : SearchOk (idepth + 1) search) (hidepth : idepth ≤ 264)
    (hwindow : Window alpha beta) {node : NodeKind} (hnode : node = .simple → beta = alpha + 1)
    (hbest : (s.stack idepth).bestMove = Move.null) (depth : Int) (tag : Evaluator.Tag) (flags : Flags)
    (hashMove : Move) (isInCheck : Bool) :
    wp contract
      (notedSearchMoves S D jobId search node depth idepth alpha beta tag flags hashMove isInCheck)
      (fun r _ s' => Bounded idepth alpha beta r ∧ Kept idepth s s')
      (fun r _ s' => Bounded idepth alpha beta r ∧ Kept idepth s s') () s := by
  have hranges := window_iff.mp hwindow
  rw [notedSearchMoves, wp_bind, wp_tryModify]
  refine ⟨fun _ => trivial, fun picker s₁ hcreate => ?_⟩
  have hs₁ : s₁ = s := by
    rw [createPicker] at hcreate
    split at hcreate
    · obtain ⟨_, -, he⟩ := Option.map_eq_some_iff.mp hcreate
      exact (Prod.mk.inj he).2.symm
    · exact (Prod.mk.inj (Option.some.inj hcreate)).2.symm
  subst hs₁
  rw [wp_bind]
  refine wp_mono (wp_forLoop (fun _ l _ s' => Turning idepth alpha beta s₁ l s') (fun _ => 0) ?_
    pickerTurns (Or.inr trivial) ⟨fun _ _ => rfl, le_rfl, hwindow.lt, Or.inl rfl, (fun he => by cases he),
      fun hne => absurd hbest hne⟩) (fun l _ s' h => ?_) fun _ _ _ h => h
  · intro picker l _ s' move picker' h hn
    exact ⟨Or.inr trivial, wp_notedNodeTurn hsearch hidepth hwindow hnode h depth tag flags move picker'⟩
  · obtain ⟨-, ⟨hkept, hge, hlt, hraised, hmoved, hbest'⟩, -⟩ := h
    rw [wp_ite]
    split
    · rename_i hhas
      have hfirst := hmoved hhas
      have hstore : wp contract (notedTtStore alpha beta depth idepth l.alpha) (fun _ _ s'' => s'' = s')
          (fun r _ s' => Bounded idepth alpha beta r ∧ Kept idepth s₁ s') () s' := by
        obtain heq | hlt' := eq_or_lt_of_le hge
        · rw [← heq] at hbest' hfirst ⊢
          exact wp_notedTtStore_unraised hidepth hwindow.lt (by omega) hranges.2.2.1
            (by_contra fun hne => lt_irrefl _ (hbest' hne)) depth
        · exact wp_notedTtStore hidepth hwindow.lt hlt' hlt.le (by omega) (fun _ => by omega) (by omega)
            depth
      rw [wp_bind]
      refine wp_mono hstore (fun _ _ s'' hs'' => ⟨?_, hs'' ▸ hkept⟩) fun _ _ _ h => h
      rw [bounded_iff]
      omega
    · rw [wp_ite]
      split
      · refine wp_convert ?_ ⟨?_, hkept⟩
        · unfold scoreCheckmate
          exact ⟨by omega, by omega⟩
        · rw [bounded_iff]
          unfold scoreCheckmate
          omega
      · exact ⟨bounded_zero hidepth, hkept⟩

theorem wp_notedDoSearch (hsearch : idepth + 1 ≠ maxStackDepth → SearchOk (idepth + 1) search)
    (hidepth : idepth ≤ 264) (hwindow : Window alpha beta) {node : NodeKind}
    (hnode : node = .simple → beta = alpha + 1) (depth : Int) (tag : Evaluator.Tag) (flags : Flags) :
    wp contract (notedDoSearch S D jobId search node depth idepth alpha beta tag flags)
      (fun r _ s' => Bounded idepth alpha beta r ∧ Kept idepth s s')
      (fun r _ s' => Bounded idepth alpha beta r ∧ Kept idepth s s') () s := by
  have hranges := window_iff.mp hwindow
  have hset : Kept idepth s (s.setBestMove idepth Move.null) := kept_setFrame _
  have hnull : ((s.setBestMove idepth Move.null).stack idepth).bestMove = Move.null := by
    simp [Searcher.setBestMove, Searcher.setFrame]
  rw [notedDoSearch, wp_bind, wp_note]
  refine ⟨⟨by unfold scoreInf; omega, hwindow.lt, by unfold scoreInf; omega, hnode⟩, fun _ _ => ?_⟩
  rw [wp_bind, wp_modify, wp_bind, wp_gets, wp_ite]
  split
  · exact ⟨bounded_zero hidepth, hset⟩
  rw [wp_ite]
  split
  · exact wp_mono (wp_notedLeafSearch S hidepth hwindow tag) (fun _ _ _ h => ⟨h.1, hset.trans h.2⟩)
      fun _ _ _ h => ⟨h.1, hset.trans h.2⟩
  rename_i hleaf
  have hchild := hsearch fun he => hleaf (Or.inr he)
  rw [wp_bind]
  refine wp_mono (wp_notedProbe hidepth node depth) (fun hashMove _ s₁ hs₁ => ?_)
    fun _ _ _ h => ⟨h.1, hset.trans h.2⟩
  subst hs₁
  rw [wp_bind]
  refine wp_mono (wp_notedPrune hchild S hidepth hwindow node depth tag flags _)
    (fun reduced _ s₂ hs₂ => ?_) fun _ _ _ h => ⟨h.1, hset.trans h.2⟩
  have hkept : Kept idepth s s₂ := hset.trans fun i hi => hs₂ i (hi.trans (Nat.lt_succ_self idepth))
  have hbest : (s₂.stack idepth).bestMove = Move.null := by
    rw [hs₂ idepth (Nat.lt_succ_self idepth)]
    exact hnull
  exact wp_mono (wp_notedSearchMoves S D jobId hchild hidepth hwindow hnode hbest _ tag _ hashMove _)
    (fun _ _ _ h => ⟨h.1, hkept.trans h.2⟩) fun _ _ _ h => ⟨h.1, hkept.trans h.2⟩

theorem searchOk_notedSearchNode (hsearch : idepth + 1 ≠ maxStackDepth → SearchOk (idepth + 1) search)
    (hidepth : idepth ≤ 264) : SearchOk idepth (notedSearchNode S D jobId search) := by
  intro node depth alpha beta tag flags s hwindow hnode
  have hranges := window_iff.mp hwindow
  rw [notedSearchNode, wp_bind, wp_note]
  refine ⟨⟨by unfold scoreInf; omega, hwindow.lt, by unfold scoreInf; omega, hnode⟩, fun _ _ => ?_⟩
  rw [wp_bind, wp_tryModify]
  refine ⟨fun _ => trivial, fun isNew s₁ hinsert => ?_⟩
  have hs₁ : Kept idepth s s₁ := by
    obtain ⟨_, -, he⟩ := Option.map_eq_some_iff.mp hinsert
    rw [← (Prod.mk.inj he).2]
    exact fun _ _ => rfl
  rw [wp_ite]
  split
  · rw [wp_bind, wp_call]
    have hleave : ∀ r (s' : Searcher), Bounded idepth alpha beta r ∧ Kept idepth s₁ s' →
        Bounded idepth alpha beta r ∧
          Kept idepth s { s' with repetitions := s'.repetitions.erase s'.board.hash } :=
      fun r s' h => ⟨h.1, hs₁.trans h.2⟩
    exact wp_mono (wp_notedDoSearch S D jobId hsearch hidepth hwindow hnode depth tag flags)
      (fun r _ s' h => hleave r s' h) fun r _ s' h => hleave r s' h
  · exact ⟨bounded_zero hidepth, hs₁⟩

theorem searchOk_notedSearch (left : Nat) (hleft : idepth + left + 1 = maxStackDepth) :
    SearchOk idepth (notedSearch S D jobId left) := by
  have hidepth : idepth ≤ 264 := by
    rw [maxStackDepth, maxDepth] at hleft
    omega
  induction left generalizing idepth with
  | zero => exact searchOk_notedSearchNode S D jobId (fun hne => absurd hleft hne) hidepth
  | succ left ih =>
    refine searchOk_notedSearchNode S D jobId (fun _ => ih (by omega) ?_) hidepth
    rw [maxStackDepth, maxDepth] at hleft
    omega

theorem wp_notedRun (depth : Nat) : wp contract (notedRun S D jobId depth)
    (fun out _ _ => -scoreCheckmate ≤ out.1 ∧ out.1 ≤ scoreCheckmate) (fun _ _ _ => False) () s := by
  rw [notedRun, wp_bind, wp_modify, wp_bind, wp_gets, wp_bind, wp_call]
  have hscore : ∀ r : Int, Bounded 0 (-scoreInf) scoreInf r → -scoreCheckmate ≤ r ∧ r ≤ scoreCheckmate := by
    intro r hr
    rw [bounded_iff] at hr
    unfold scoreCheckmate
    unfold scoreInf at hr
    omega
  have hok : SearchOk 0 (notedSearch S D jobId (maxStackDepth - 1)) :=
    searchOk_notedSearch S D jobId (maxStackDepth - 1) (by decide)
  have hsearch := hok .root depth (-scoreInf) scoreInf (Evaluator.ofBoard s.board) Flags.default
    { s with depth := depth } window_root fun he => by cases he
  exact wp_mono hsearch (fun r _ _ h => hscore r h.1) fun r _ _ h => hscore r h.1

end Nodes

end Node

section Runs

variable [Evaluator] [Globals] {ι : Type} [DecidableEq ι]

/-- One of the runs that use the table. -/
structure Task where
  S : Sorter
  D : Shuffler
  jobId : Nat
  depth : Nat
  searcher : Searcher

def Task.start (task : Task) : Dialogue (Noted Answer Note) (Except (Int × Move) (Int × Move) × Searcher) :=
  notedRun task.S task.D task.jobId task.depth task.searcher

/-- The search of the task, without the notes. -/
def Task.search (task : Task) : Dialogue Answer (Except (Int × Move) (Int × Move) × Searcher) :=
  run task.S task.D task.jobId task.depth task.searcher

omit [Globals] in
/-- What one of the runs has said. -/
def own (i : ι) (trace : List (ι × Sigma (Noted Answer Note))) : List (Sigma (Noted Answer Note)) :=
  (trace.filter fun e => decide (e.1 = i)).map Prod.snd

omit [Globals] [DecidableEq ι] in
/-- What may be answered: an entry that a run has stored before, perhaps with another
epoch, and an evaluation that looks like no mate. -/
def Answerable (before : List (ι × Sigma (Noted Answer Note))) : Sigma (Noted Answer Note) → Prop
  | ⟨.inl (.load _), data⟩ => Data.isValid data = true → ∃ j b data',
      (j, (⟨.inl (.store b data'), ()⟩ : Sigma (Noted Answer Note))) ∈ before ∧
        data = { data' with epoch_ := (data : Data).epoch_ }
  | ⟨.inl (.evalForCur _ _), score⟩ => -scoreCheckmateThreshold < (score : Int) ∧
      (score : Int) < scoreCheckmateThreshold
  | _ => True

omit [Globals] [DecidableEq ι] in
def Faithful (trace : List (ι × Sigma (Noted Answer Note))) : Prop :=
  ∀ before e after, trace = before ++ e :: after → Answerable before e.2

omit [Globals] [DecidableEq ι] in
theorem rely_of_answerable {before : List (ι × Sigma (Noted Answer Note))}
    (hgood : ∀ e ∈ before, contract.guar () e.2.1) {q : Question ⊕ Note} {a : Noted Answer Note q}
    (h : Answerable before ⟨q, a⟩) : contract.rely () q a () := by
  match q, a with
  | .inl (.load b), data =>
    intro hvalid
    obtain ⟨j, b', data', hmem, hdata⟩ := h hvalid
    obtain ⟨-, hsane⟩ := hgood _ hmem
    rw [hdata]
    exact hsane
  | .inl (.evalForCur b tag), score => exact h
  | .inl .isStopped, _ | .inl .checkTimeout, _ | .inl .depth, _ | .inl (.isCurrentEpoch _), _
  | .inl (.store _ _), _ | .inl .useScore, _ | .inr _, _ => trivial

omit [Evaluator] [Globals] in
theorem own_append [Evaluator] (i : ι) (trace : List (ι × Sigma (Noted Answer Note)))
    (e : ι × Sigma (Noted Answer Note)) :
    own i (trace ++ [e]) = own i trace ++ if e.1 = i then [e.2] else [] := by
  rw [own, List.filter_append, List.map_append]
  refine congrArg (own i trace ++ ·) ?_
  split
  · rename_i h
    simp [h]
  · rename_i h
    simp [h]

omit [Globals] in
theorem path_own {trace : List (ι × Sigma (Noted Answer Note))} (hf : Faithful trace)
    (hgood : ∀ e ∈ trace, contract.guar () e.2.1) (i : ι) : contract.Path () (own i trace) () := by
  induction trace using List.reverseRecOn with
  | nil => exact .nil ()
  | append_singleton trace e ih =>
    have hf' : Faithful trace := fun before e' after he =>
      hf before e' (after ++ [e]) (by rw [he, List.append_assoc]; rfl)
    have hgood' : ∀ e' ∈ trace, contract.guar () e'.2.1 := fun e' he' =>
      hgood e' (List.mem_append_left _ he')
    have hpath := ih hf' hgood'
    have hlast : contract.rely () e.2.1 e.2.2 () := rely_of_answerable hgood' (hf trace e [] rfl)
    rw [own_append]
    split
    · exact hpath.append (.cons hlast (.nil ()))
    · rw [List.append_nil]
      exact hpath

theorem good_of_runs {task : ι → Task} {trace : List (ι × Sigma (Noted Answer Note))}
    (hl : ∀ i, ∃ t, (task i).start.Leads (own i trace) t) (hf : Faithful trace) :
    ∀ e ∈ trace, contract.guar () e.2.1 := by
  induction trace using List.reverseRecOn with
  | nil => nofun
  | append_singleton trace e ih =>
    have hf' : Faithful trace := fun before e' after he =>
      hf before e' (after ++ [e]) (by rw [he, List.append_assoc]; rfl)
    have hgood : ∀ e ∈ trace, contract.guar () e.2.1 := by
      refine ih (fun i => ?_) hf'
      obtain ⟨t, ht⟩ := hl i
      rw [own_append] at ht
      obtain ⟨t', ht', -⟩ := ht.split
      exact ⟨t', ht'⟩
    intro e' he'
    obtain he' | he' := List.mem_append.mp he'
    · exact hgood e' he'
    · rw [List.mem_singleton.mp he']
      obtain ⟨t, ht⟩ := hl e.1
      rw [own_append, if_pos rfl] at ht
      exact (path_own hf' hgood e.1).asks ht (wp_notedRun _ _ _ _)

/-- The windows of the search are never empty, and no score of it wraps or is stored as
exact beyond the checkmates. -/
theorem windows_hold (task : ι → Task) (trace : List (ι × Sigma (Noted Answer Note)))
    (hl : ∀ i, ∃ t, (task i).start.Leads (own i trace) t) (hf : Faithful trace) :
    (∀ i n a, (i, (⟨.inr n, a⟩ : Sigma (Noted Answer Note))) ∈ trace → Legal n) ∧
    (∀ i b data a, (i, (⟨.inl (.store b data), a⟩ : Sigma (Noted Answer Note))) ∈ trace →
      data.bound = PositionCostBound.exact.toBits →
        -scoreCheckmate ≤ data.score ∧ data.score ≤ scoreCheckmate) ∧
    ∀ i, (task i).start.erase = (task i).search ∧ ∀ l t, (task i).search.Leads l t →
      ∃ l' t', (task i).start.Leads l' t' ∧ Dialogue.answers l' = l ∧ t'.erase = t := by
  have hgood := good_of_runs hl hf
  have herase : ∀ i, (task i).start.erase = (task i).search := fun i =>
    congrFun (erase_run (task i).S (task i).D (task i).jobId (task i).depth) (task i).searcher
  refine ⟨fun i n a hmem => hgood _ hmem, fun i b data a hmem hexact => ?_, fun i => ⟨herase i, ?_⟩⟩
  · obtain ⟨-, -, hle, hge⟩ := hgood _ hmem
    exact ⟨hge hexact, hle⟩
  · intro l t ht
    rw [← herase i] at ht
    exact Dialogue.exists_noted ht

omit [DecidableEq ι] in
theorem leads_noted {task : Task} {l : List (Sigma Answer)} (h : ∃ t, task.search.Leads l t) :
    ∃ l' t, task.start.Leads l' t ∧ Dialogue.answers l' = l := by
  obtain ⟨t, ht⟩ := h
  rw [← show task.start.erase = task.search from
    congrFun (erase_run task.S task.D task.jobId task.depth) task.searcher] at ht
  obtain ⟨l', t', hl, hanswers, -⟩ := Dialogue.exists_noted ht
  exact ⟨l', t', hl, hanswers⟩

omit [Globals] [DecidableEq ι] in
theorem Answerable.mono {before before' : List (ι × Sigma (Noted Answer Note))}
    {e : Sigma (Noted Answer Note)} (h : Answerable before e) (hsub : before ⊆ before') :
    Answerable before' e := by
  obtain ⟨q, a⟩ := e
  cases q with
  | inr n => trivial
  | inl q =>
    cases q with
    | load b =>
      intro hvalid
      obtain ⟨j, b', data', hmem, hdata⟩ := h hvalid
      exact ⟨j, b', data', hsub hmem, hdata⟩
    | _ => exact h

omit [Globals] [DecidableEq ι] in
theorem faithful_of_nothing {trace : List (ι × Sigma (Noted Answer Note))}
    (h : ∀ e ∈ trace, Answerable ([] : List (ι × Sigma (Noted Answer Note))) e.2) :
    Faithful trace := by
  intro before e after he
  have hmem : e ∈ trace := he ▸ List.mem_append_right before List.mem_cons_self
  exact (h e hmem).mono (List.nil_subset before)

omit [Globals] [DecidableEq ι] in
theorem faithful_append {first second : List (ι × Sigma (Noted Answer Note))} (h : Faithful first)
    (h' : ∀ e ∈ second, Answerable first e.2) : Faithful (first ++ second) := by
  intro before e after he
  obtain ⟨l, rfl, hl⟩ | ⟨l, rfl, hl⟩ := List.append_eq_append_iff.mp he
  · have hmem : e ∈ second := by
      rw [hl]
      exact List.mem_append_right _ List.mem_cons_self
    exact (h' e hmem).mono (List.subset_append_left _ _)
  · cases l with
    | nil =>
      rw [List.nil_append] at hl
      rw [List.append_nil] at h'
      exact h' e (hl ▸ List.mem_cons_self)
    | cons e' l =>
      obtain ⟨rfl, -⟩ := List.cons.inj hl
      exact h before e l rfl

omit [Globals] in
theorem own_map (i j : ι) (l : List (Sigma (Noted Answer Note))) :
    own i (l.map (Prod.mk j)) = if j = i then l else [] := by
  rw [own, List.filter_map, List.map_map]
  split
  · rename_i h
    have hall : l.filter ((fun e : ι × Sigma (Noted Answer Note) => decide (e.1 = i)) ∘ Prod.mk j) = l :=
      List.filter_eq_self.mpr fun e _ => decide_eq_true h
    rw [hall]
    exact List.map_id l
  · rename_i h
    have hnone : l.filter ((fun e : ι × Sigma (Noted Answer Note) => decide (e.1 = i)) ∘ Prod.mk j) = [] :=
      List.filter_eq_nil_iff.mpr fun e _ => by simpa using h
    rw [hnone]
    rfl

omit [Globals] [Evaluator] in
/-- Two jobs search the same position, and the second one finds what the first one has stored. -/
theorem windows_hold_pawns : letI := spreadGlobals; letI := plainEvaluator
    ∃ trace : List (Fin 2 × Sigma (Noted Answer Note)),
      (∃ b tag a, sameBoard b pawns = false ∧
        (0, (⟨.inl (.evalForCur b tag), a⟩ : Sigma (Noted Answer Note))) ∈ trace) ∧
      (∃ b data, sameBoard b pawns = true ∧ Data.isValid data = true ∧
        (0, (⟨.inl (.store b data), ()⟩ : Sigma (Noted Answer Note))) ∈ trace ∧
        (1, (⟨.inl (.load pawns), data⟩ : Sigma (Noted Answer Note))) ∈ trace) ∧
      (∀ i n a, (i, (⟨.inr n, a⟩ : Sigma (Noted Answer Note))) ∈ trace → Legal n) ∧
      ∀ i b data a, (i, (⟨.inl (.store b data), a⟩ : Sigma (Noted Answer Note))) ∈ trace →
        data.bound = PositionCostBound.exact.toBits →
          -scoreCheckmate ≤ data.score ∧ data.score ≤ scoreCheckmate := by
  let _ := spreadGlobals
  let _ := plainEvaluator
  let task : Fin 2 → Task := fun i => ⟨Sorter.inserting, keepingShuffler, i, 1, pawnsSearcher⟩
  have hevaluates : (pawnsTalk keepingShuffler).any evaluatesNext = true := by decide +kernel
  have hstores : (pawnsTalk keepingShuffler).any storesPawns = true := by decide +kernel
  obtain ⟨b, tag, a, heval, hnext⟩ := exists_evaluatesNext hevaluates
  obtain ⟨b', data, hstore, hsame, hvalid⟩ := exists_storesPawns hstores
  have htalk : ∃ t, (task 0).search.Leads (pawnsTalk keepingShuffler) t :=
    leads_pawnsTalk keepingShuffler
  have hload : ∃ t, (task 1).search.Leads [⟨.load pawns, data⟩] t :=
    leads_pawnsLoad keepingShuffler 1 data
  obtain ⟨first, t, hfirst, hanswers⟩ := leads_noted htalk
  obtain ⟨second, t', hsecond, hanswers'⟩ := leads_noted hload
  let talk : List (Fin 2 × Sigma (Noted Answer Note)) := first.map (Prod.mk 0)
  have hfirst' : ∀ {q : Question} {a : Answer q}, (⟨q, a⟩ : Sigma Answer) ∈ pawnsTalk keepingShuffler →
      (0, (⟨.inl q, a⟩ : Sigma (Noted Answer Note))) ∈ talk := by
    intro q a h
    rw [← hanswers, Dialogue.mem_answers] at h
    exact List.mem_map_of_mem h
  have hsecond' : (1, (⟨.inl (.load pawns), data⟩ : Sigma (Noted Answer Note))) ∈
      second.map (Prod.mk (1 : Fin 2)) := by
    have h : (⟨.load pawns, data⟩ : Sigma Answer) ∈ Dialogue.answers second :=
      hanswers' ▸ List.mem_singleton_self _
    exact List.mem_map_of_mem (Dialogue.mem_answers.mp h)
  have hquiet : ∀ e ∈ talk,
      Answerable ([] : List (Fin 2 × Sigma (Noted Answer Note))) e.2 := by
    intro e he
    obtain ⟨⟨q, a⟩, hmem, rfl⟩ := List.mem_map.mp he
    cases q with
    | inr n => trivial
    | inl q =>
      have hreply : a = quietReply 1 q :=
        reply_of_mem_pawnsTalk keepingShuffler (hanswers ▸ Dialogue.mem_answers.mpr hmem)
      subst hreply
      cases q with
      | load b =>
        have hzero : ¬Data.zero.isValid = true := by decide
        exact fun h => absurd h hzero
      | evalForCur b tag =>
        have heven : -scoreCheckmateThreshold < 0 ∧ 0 < scoreCheckmateThreshold := by decide
        exact heven
      | _ => trivial
  have hfound : ∀ e ∈ second.map (Prod.mk (1 : Fin 2)), Answerable talk e.2 := by
    intro e he
    obtain ⟨⟨q, a⟩, hmem, rfl⟩ := List.mem_map.mp he
    cases q with
    | inr n => trivial
    | inl q =>
      have hone : (⟨q, a⟩ : Sigma Answer) ∈ [⟨.load pawns, data⟩] :=
        hanswers' ▸ Dialogue.mem_answers.mpr hmem
      cases List.mem_singleton.mp hone
      exact fun _ => ⟨0, b', data, hfirst' hstore, rfl⟩
  have hruns : ∀ i, ∃ t, (task i).start.Leads (own i (talk ++ second.map (Prod.mk 1))) t := by
    intro i
    rw [own, List.filter_append, List.map_append]
    change ∃ t, (task i).start.Leads (own i (first.map (Prod.mk 0)) ++ own i _) t
    rw [own_map, own_map]
    match i with
    | 0 => exact ⟨t, by simpa using hfirst⟩
    | 1 => exact ⟨t', by simpa using hsecond⟩
  obtain ⟨hlegal, hexact, -⟩ := windows_hold task _ hruns
    (faithful_append (faithful_of_nothing hquiet) hfound)
  exact ⟨_, ⟨b, tag, a, hnext, List.mem_append_left _ (hfirst' heval)⟩,
    ⟨b', data, hsame, hvalid, List.mem_append_left _ (hfirst' hstore),
      List.mem_append_right _ hsecond'⟩, hlegal, hexact⟩

end Runs

end SoFCheck.Search.Windows
