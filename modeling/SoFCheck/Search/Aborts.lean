import SoFCheck.Search.FirstMoves

namespace SoFCheck.Search.Aborts

open SoFCheck.Util.Imperative SoFCheck.Util.Imperative.Program
open SoFCheck.Core.Types SoFCheck.Core.BoardState SoFCheck.Core.Moves SoFCheck.Core.Movegen
open SoFCheck.Core.Attack SoFCheck.Core.Validate SoFCheck.Core.MoveMake SoFCheck.Eval.Score
open SoFCheck.Core.Sequence SoFCheck.Core.InitialPosition SoFCheck.Search.Tables
open SoFCheck.Search.Pickers SoFCheck.Search.Enumeration SoFCheck.Search.TableData SoFCheck.Search.Job
open SoFCheck.Search.FirstMoves

section Conversations

variable [Evaluator]

/-- The fields of the communicator that the jobs watch. -/
structure Shared where
  depth : Nat
  stopped : Bool

/-- The threads only raise the depth and only stop the search. -/
def Shared.Grows (w w' : Shared) : Prop :=
  w.depth ≤ w'.depth ∧ (w.stopped = true → w'.stopped = true)

/-- An answer is what the communicator holds at that moment. -/
def Shared.Answers (w : Shared) : (q : Question) → Answer q → Prop
  | .isStopped, stopped => stopped = w.stopped
  | .checkTimeout, timeout => timeout = true → w.stopped = true
  | .depth, depth => depth = w.depth
  | _, _ => True

/-- The conversation of a search with a communicator that other threads use. -/
inductive Schedule : Shared → List (Sigma Answer) → Prop
  | nil (w : Shared) : Schedule w []
  | cons {w w' : Shared} {q : Question} {a : Answer q} {l : List (Sigma Answer)}
      (hg : w.Grows w') (ha : w'.Answers q a) (h : Schedule w' l) : Schedule w (⟨q, a⟩ :: l)

variable (depth : Nat)

/-- What `mustStop` returns when it ends with the answer. -/
def outcome : Sigma Answer → Option Bool
  | ⟨.isStopped, stopped⟩ => if (stopped : Bool) = true then some true else none
  | ⟨.checkTimeout, timeout⟩ => some timeout
  | ⟨.depth, d⟩ => some (decide ((d : Nat) ≠ depth))
  | _ => none

/-- What the calls of `mustStop` return, one after another. -/
def outcomes (l : List (Sigma Answer)) : List Bool := l.filterMap (outcome depth)

def Sticky (l : List (Sigma Answer)) : Prop :=
  (outcomes depth l).Pairwise fun before after => before = true → after = true

/-- The score of a subtree is used here. -/
def UsesScore : Sigma Answer → Prop
  | ⟨.useScore, _⟩ | ⟨.store _ _, _⟩ => True
  | _ => False

/-- No score is used once `mustStop` has returned `true`. -/
def Unused (l : List (Sigma Answer)) : Prop :=
  ∀ l₁ e l₂, l = l₁ ++ e :: l₂ → UsesScore e → true ∉ outcomes depth l₁

/-- A call that has its turn to look at the clock, which has not run out, comes after
one that has seen another depth. -/
def Missed (l : List (Sigma Answer)) : Prop :=
  ∃ l₁ d l₂ l₃, l = l₁ ++ ⟨.depth, d⟩ :: (l₂ ++ ⟨.checkTimeout, false⟩ :: l₃) ∧ d ≠ depth

/-- What is known after a part of the conversation: whether `mustStop` has returned
`true`, and whether it has seen another depth. -/
structure Ghost where
  shared : Shared
  aborted : Bool
  left : Bool

def seesOther : Sigma Answer → Bool
  | ⟨.depth, d⟩ => decide ((d : Nat) ≠ depth)
  | _ => false

def Ghost.after (v : Ghost) (e : Sigma Answer) (shared : Shared) : Ghost where
  shared := shared
  aborted := v.aborted || outcome depth e == some true
  left := v.left || seesOther depth e

/-- What a search promises when no call of `mustStop` misses that it is to stop. -/
def contract : Contract Answer Ghost where
  guar v
    | .useScore | .store _ _ => v.aborted = false
    | .depth => v.aborted = true → depth < v.shared.depth
    | .checkTimeout => v.aborted = true → v.left = true
    | _ => True
  rely v q a v' :=
    ∃ w, v' = v.after depth ⟨q, a⟩ w ∧ v.shared.Grows w ∧ w.Answers q a ∧
      (v.left = true → (⟨q, a⟩ : Sigma Answer) ≠ ⟨.checkTimeout, false⟩)
  mayStick := True

/-- An aborted search has a reason that does not go away. -/
structure Kept (v : Ghost) (s : Searcher) : Prop where
  depth_eq : s.depth = depth
  reached : depth ≤ v.shared.depth
  left : v.left = true → depth < v.shared.depth
  aborted : v.aborted = true → v.shared.stopped = true ∨ v.left = true

end Conversations

section Parts

variable [Evaluator] {depth : Nat} {ρ α β : Type} {v v' : Ghost} {s : Searcher}

theorem Kept.step {q : Question} {a : Answer q} (h : Kept depth v s)
    (hr : (contract depth).rely v q a v') : Kept depth v' s := by
  obtain ⟨w, rfl, ⟨hdepth, hstopped⟩, ha, -⟩ := hr
  have hreached := h.reached
  refine ⟨h.depth_eq, hreached.trans hdepth, fun hl => ?_, fun hl => ?_⟩
  · cases hb : v.left with
    | true => exact (h.left hb).trans_le hdepth
    | false =>
      cases q with
      | depth =>
        simp only [Ghost.after, seesOther, hb, Bool.false_or, decide_eq_true_eq] at hl
        exact lt_of_le_of_ne (hreached.trans hdepth) fun he => hl (ha.trans he.symm)
      | _ => simp_all [Ghost.after, seesOther]
  · cases hb : v.aborted with
    | true =>
      refine (h.aborted hb).imp hstopped fun hleft => ?_
      rw [Ghost.after, hleft, Bool.true_or]
    | false => cases q <;> simp_all [Ghost.after, outcome, seesOther, Shared.Answers]

omit [Evaluator] in
theorem Kept.congr {s' : Searcher} (h : Kept depth v s) (hs : s'.depth = s.depth) : Kept depth v s' :=
  ⟨hs.trans h.depth_eq, h.reached, h.left, h.aborted⟩

/-- What is promised of a part of the search that other parts do not rely on. -/
abbrev Safe (depth : Nat) (m : Part ρ α) : Prop := Orderly (contract depth) (.invariant (Kept depth)) m

theorem safe_modify {f : Searcher → Searcher} (hf : ∀ s, (f s).depth = s.depth) :
    Safe depth (modify f : Part ρ Unit) := fun _ s h => h.congr (hf s)

theorem safe_tryModify {f : Searcher → Option (α × Searcher)}
    (hf : ∀ s a s', f s = some (a, s') → s'.depth = s.depth) : Safe depth (tryModify f : Part ρ α) :=
  orderly_tryModify trivial fun _ s a s' h he => h.congr (hf s a s' he)

theorem safe_query (q : Question) (hq : ∀ v, (contract depth).guar v q) :
    Safe depth (query q : Part ρ (Answer q)) := fun v _ h =>
  ⟨hq v, fun _ _ hr => h.step hr⟩

theorem wp_mustStop (h : Kept depth v s) {R : ρ → Ghost → Searcher → Prop} :
    wp (contract depth) mustStop
      (fun stop v' s' => Kept depth v' s' ∧ v'.aborted = stop) R v s := by
  rw [mustStop]
  simp only [wp_bind, wp_ask, wp_ite, wp_pure, wp_modify, wp_gets]
  refine ⟨trivial, fun stopped v' hr => ?_⟩
  have h' := h.step hr
  split
  · rename_i hstopped
    obtain ⟨w, rfl, -⟩ := hr
    refine ⟨h', ?_⟩
    simp [Ghost.after, outcome, hstopped]
  · rename_i hstopped
    have hleft : v'.aborted = true → v'.left = true := by
      obtain ⟨w, rfl, ⟨-, hgrows⟩, ha, -⟩ := hr
      intro haborted
      refine (h'.aborted haborted).resolve_left fun hw => hstopped ?_
      exact ha.trans hw
    have hcount : Kept depth v' { s with counter := s.counter + 1 } :=
      ⟨h'.depth_eq, h'.reached, h'.left, h'.aborted⟩
    split
    · refine ⟨hleft, fun timeout v'' hr' => ⟨hcount.step hr', ?_⟩⟩
      obtain ⟨w, rfl, -, ha, htime⟩ := hr'
      cases haborted : v'.aborted with
      | true =>
        have := htime (hleft haborted)
        cases timeout with
        | true => simp [Ghost.after, outcome]
        | false => exact absurd rfl this
      | false => simp [Ghost.after, outcome, haborted]
    · refine ⟨fun haborted => h'.left (hleft haborted), fun d v'' hr' => ⟨hcount.step hr', ?_⟩⟩
      obtain ⟨w, rfl, ⟨hgrows, -⟩, ha, htime⟩ := hr'
      rw [h.depth_eq]
      cases haborted : v'.aborted with
      | true =>
        have hlt := (h'.left (hleft haborted)).trans_le hgrows
        have hne : (d : Nat) ≠ depth := fun he => hlt.ne (he.symm.trans ha)
        simp [Ghost.after, haborted, hne]
      | false => simp [Ghost.after, outcome, haborted]

theorem wp_returnIfStopped (h : Kept depth v s) (value : ρ) :
    wp (contract depth) (returnIfStopped value)
      (fun _ v' s' => Kept depth v' s' ∧ v'.aborted = false) (fun _ => Kept depth) v s := by
  rw [returnIfStopped, wp_bind]
  refine wp_mono (wp_mustStop h) (fun stop v' s' hs => ?_) fun _ _ _ hr => hr
  rw [wp_ite]
  split
  · exact hs.1
  · rename_i hstop
    exact ⟨hs.1, hs.2.trans (by simpa using hstop)⟩

theorem wp_searched {m : Part β β} (hm : Safe depth m) (h : Kept depth v s) (value : ρ) (f : β → α) :
    wp (contract depth) (do
        let score ← call m
        returnIfStopped value
        pure (f score))
      (fun _ v s => Kept depth v s ∧ v.aborted = false) (fun _ => Kept depth) v s := by
  rw [wp_bind]
  refine wp_mono (hm.call v s h) (fun score v' s' h' => ?_) fun _ _ _ hr => hr
  rw [wp_bind]
  exact wp_returnIfStopped h' value

variable [Globals]

theorem wp_withMove {move : Move} {tag : Evaluator.Tag} {body : Evaluator.Tag → Part ρ α}
    {Q : α → Ghost → Prop} (h : Kept depth v s)
    (hbody : ∀ s' tag, Kept depth v s' → wp (contract depth) (body tag)
      (fun a v s => Kept depth v s ∧ Q a v) (fun _ => Kept depth) v s') :
    wp (contract depth) (withMove move tag body) (fun a v s => Kept depth v s ∧ Q a v)
      (fun _ => Kept depth) v s := by
  rw [withMove]
  simp only [wp_bind, wp_gets, wp_guarded]
  exact wp_mono (hbody _ _ (h.congr rfl)) (fun _ _ _ h' => ⟨h'.1.congr rfl, h'.2⟩)
    fun _ _ _ h' => h'.congr rfl

section Quiescence

variable (S : Sorter)

theorem safe_quiescenseTurn {recurse : Int → Int → Evaluator.Tag → Part Int Int}
    (hrec : ∀ alpha beta tag, Safe depth (recurse alpha beta tag)) (beta : Int) (tag : Evaluator.Tag)
    (move : Move) (picker : QuiescenseMovePicker) (alpha : Int) :
    Safe depth (quiescenseTurn recurse beta tag move picker alpha) := by
  intro v s h
  rw [quiescenseTurn, wp_ite]
  split
  · exact h
  rw [wp_bind]
  have hscope : ∀ s' tag, Kept depth v s' → wp (contract depth) (quiescenseMove recurse alpha beta tag)
      (fun found v s => Kept depth v s ∧ (found ≠ none → v.aborted = false))
      (fun _ => Kept depth) v s' := by
    intro s' tag h'
    rw [quiescenseMove, wp_bind, wp_gets, wp_ite]
    split
    · exact wp_mono (wp_searched (hrec _ _ tag) h' 0 _) (fun _ _ _ h'' => ⟨h''.1, fun _ => h''.2⟩)
        fun _ _ _ hr => hr
    · exact ⟨h', fun hne => absurd rfl hne⟩
  refine wp_mono (wp_withMove h hscope) (fun found v' s' h' => ?_) fun _ _ _ hr => hr
  cases found with
  | none => exact h'.1
  | some score =>
    simp only [wp_bind, wp_ask, wp_ite]
    refine ⟨h'.2 (fun he => by cases he), fun _ v'' hr => ?_⟩
    split
    · exact h'.1.step hr
    · exact h'.1.step hr

theorem safe_quiescenseSearch (levels : Nat) (alpha beta : Int) (tag : Evaluator.Tag) :
    Safe depth (quiescenseSearch S levels alpha beta tag) := by
  induction levels generalizing alpha beta tag with
  | zero => exact orderly_stuck trivial
  | succ levels ih =>
    rw [quiescenseSearch]
    refine (orderly_gets _).bind fun board => orderly_ite (orderly_pure 0) ?_
    refine (safe_query (.evalForCur board tag) fun _ => trivial).bind fun evalScore => orderly_ite (orderly_pure beta) ?_
    intro v s h
    refine wp_mono (wp_forLoop (fun _ _ => Kept depth) (fun _ => 0) ?_ pickerTurns
      (Or.inr trivial) h) (fun alpha v' s' h' => ?_) fun _ _ _ hr => hr
    · intro picker alpha v s move picker' h hn
      exact ⟨Or.inr trivial, safe_quiescenseTurn ih beta tag move picker' alpha v s h⟩
    · obtain ⟨picker, h', -⟩ := h'
      exact h'

end Quiescence

section Node

variable (S : Sorter) (D : Shuffler) (jobId : Nat)

omit [Globals] in
theorem safe_probe (node : NodeKind) (searchDepth : Int) (idepth : Nat) (alpha beta : Int) :
    Safe depth (probe node searchDepth idepth alpha beta) := by
  rw [probe]
  refine (orderly_gets _).bind fun board => (safe_query (.load board) fun _ => trivial).bind fun data => ?_
  have hallow : Safe depth (allowCutoff node searchDepth board data) :=
    orderly_ite (orderly_ite (safe_query (.isCurrentEpoch data) fun _ => trivial) (orderly_pure true))
      (orderly_pure false)
  refine orderly_ite (hallow.bind fun allow => orderly_ite ?_ (orderly_pure _)) (orderly_pure Move.null)
  have hmodify : Safe depth (Program.modify fun s => s.setBestMove idepth data.move : Part Int Unit) :=
    safe_modify fun _ => rfl
  exact hmodify.bind fun _ => orderly_earlyReturn _

omit [Globals] in
theorem safe_getEvalScore (tag : Evaluator.Tag) (evalScore : Option Int) :
    Safe depth (getEvalScore tag evalScore) := by
  cases evalScore with
  | none => exact (orderly_gets _).bind fun board => safe_query (.evalForCur board tag) fun _ => trivial
  | some score => exact orderly_pure score

omit [Globals] in
theorem safe_futility (searchDepth beta : Int) (tag : Evaluator.Tag) :
    Safe depth (futility searchDepth beta tag) := by
  rw [futility]
  refine orderly_ite ((safe_getEvalScore tag none).bind fun evalScore => ?_) (orderly_pure _)
  exact orderly_ite (orderly_earlyReturn _) (orderly_pure _)

theorem safe_razoring (searchDepth alpha : Int) (tag : Evaluator.Tag) (evalScore : Option Int) :
    Safe depth (razoring S searchDepth alpha tag evalScore) := by
  rw [razoring]
  refine orderly_ite ((safe_getEvalScore tag evalScore).bind fun evalScore => ?_) (orderly_pure _)
  refine orderly_ite ((safe_quiescenseSearch S _ _ _ tag).call.bind fun score => ?_) (orderly_pure _)
  exact orderly_ite (orderly_earlyReturn _) (orderly_pure _)

theorem safe_leafSearch (alpha beta : Int) (tag : Evaluator.Tag) :
    Safe depth (leafSearch S alpha beta tag) :=
  orderly_ite (orderly_pure _) (orderly_ite (orderly_pure _) (safe_quiescenseSearch S _ _ _ tag).call)

/-- The search of a child keeps its promise. -/
abbrev SafeSearch (depth : Nat) (search : Recurse) : Prop :=
  ∀ node searchDepth idepth alpha beta tag flags,
    Safe depth (search node searchDepth idepth alpha beta tag flags)

variable {search : Recurse} (hsearch : SafeSearch depth search)

include hsearch

theorem safe_nullMoveReduction (searchDepth : Int) (idepth : Nat) (beta : Int) (tag : Evaluator.Tag)
    (flags : Flags) : Safe depth (nullMoveReduction search searchDepth idepth beta tag flags) := by
  intro v s h
  rw [nullMoveReduction, wp_bind]
  refine wp_mono (wp_withMove (Q := fun _ v => v.aborted = false) h fun s' tag h' => ?_)
    (fun score v' s' h' => ?_) fun _ _ _ hr => hr
  · exact wp_searched (hsearch .simple _ _ _ _ tag _) h' 0 _
  · rw [wp_ite]
    split
    · exact h'.1
    · exact h'.1

theorem safe_prune (node : NodeKind) (searchDepth : Int) (idepth : Nat) (alpha beta : Int)
    (tag : Evaluator.Tag) (flags : Flags) (isInCheck : Bool) :
    Safe depth (prune S search node searchDepth idepth alpha beta tag flags isInCheck) := by
  rw [prune]
  refine orderly_ite ((safe_futility searchDepth beta tag).bind fun evalScore => ?_) (orderly_pure _)
  refine (safe_razoring S searchDepth alpha tag evalScore).bind fun _ => ?_
  exact orderly_ite (safe_nullMoveReduction hsearch searchDepth idepth beta tag flags) (orderly_pure _)

omit [Globals] in
theorem wp_lateMoveReduction (h : Kept depth v s) (lmrEnabled : Bool) (searchDepth : Int)
    (idepth : Nat) (alpha : Int) (tag : Evaluator.Tag) (newFlags : Flags) :
    wp (contract depth) (lateMoveReduction lmrEnabled search searchDepth idepth alpha tag newFlags)
      (fun isReduced v s => Kept depth v s ∧ (isReduced = true → v.aborted = false))
      (fun _ => Kept depth) v s := by
  rw [lateMoveReduction, wp_ite]
  split
  · exact wp_mono (wp_searched (hsearch .simple _ _ _ _ tag _) h 0 _)
      (fun _ _ _ h' => ⟨h'.1, fun _ => h'.2⟩) fun _ _ _ hr => hr
  · exact ⟨h, fun he => by cases he⟩

omit [Globals] in
theorem wp_pvSearch (h : Kept depth v s) (node : NodeKind) (searchDepth : Int) (idepth : Nat)
    (alpha beta : Int) (tag : Evaluator.Tag) (newFlags : Flags) (isFirstMove : Bool) :
    wp (contract depth) (pvSearch search node searchDepth idepth alpha beta tag newFlags isFirstMove)
      (fun _ v s => Kept depth v s ∧ v.aborted = false) (fun _ => Kept depth) v s := by
  have hfull : ∀ v s, Kept depth v s → wp (contract depth)
      (fullWindowSearch search node searchDepth idepth alpha beta tag newFlags)
      (fun _ v s => Kept depth v s ∧ v.aborted = false) (fun _ => Kept depth) v s := fun v s h =>
    wp_searched (hsearch _ _ _ _ _ tag _) h 0 _
  rw [pvSearch, wp_ite]
  split
  · rw [wp_bind]
    have hzero := wp_searched (hsearch .simple (searchDepth - 1) (idepth + 1) (toScore (-alpha - 1))
      (toScore (-alpha)) tag newFlags) h (0 : Int)
      fun score => if toScore (-score) ≤ alpha then alpha else toScore (alpha + 1)
    refine wp_mono hzero (fun score v' s' h' => ?_) fun _ _ _ hr => hr
    rw [wp_ite]
    split
    · exact hfull v' s' h'.1
    · exact h'
  · exact hfull v s h

theorem wp_searchMove (h : Kept depth v s) (node : NodeKind) (searchDepth : Int) (idepth : Nat)
    (beta : Int) (flags : Flags) (move : Move) (stage : MovePickerStage) (l : Locals)
    (haborted : l.hasMove = true → v.aborted = false) (tag : Evaluator.Tag) :
    wp (contract depth) (searchMove search node searchDepth idepth beta flags move stage l tag)
      (fun result v' s => Kept depth v' s ∧
        (result ≠ .illegal ∨ l.hasMove = true → v'.aborted = false))
      (fun _ => Kept depth) v s := by
  rw [searchMove]
  dsimp only
  rw [wp_bind, wp_gets, wp_ite]
  split
  · rw [wp_bind]
    refine wp_mono (wp_lateMoveReduction hsearch h _ searchDepth idepth l.alpha tag _)
      (fun isReduced v' s' h' => ?_) fun _ _ _ hr => hr
    rw [wp_ite]
    split
    · rename_i hreduced
      exact ⟨h'.1, fun _ => h'.2 hreduced⟩
    · rw [wp_bind]
      exact wp_mono (wp_pvSearch hsearch h'.1 node searchDepth idepth l.alpha beta tag _ _)
        (fun score v'' s'' h'' => ⟨h''.1, fun _ => h''.2⟩) fun _ _ _ hr => hr
  · exact ⟨h, fun hor => haborted (hor.resolve_left fun hne => hne rfl)⟩

omit [Globals] hsearch in
theorem wp_ttStore (h : Kept depth v s) (haborted : v.aborted = false) (alpha beta searchDepth : Int)
    (idepth : Nat) (score : Int) {R : Int → Ghost → Searcher → Prop} :
    wp (contract depth) (ttStore alpha beta searchDepth idepth score) (fun _ => Kept depth) R v s := by
  rw [ttStore, wp_bind, wp_gets, wp_ite]
  split
  · rw [wp_bind, wp_gets, wp_ask]
    exact ⟨haborted, fun _ _ hr => h.step hr⟩
  · exact h

omit [Globals] hsearch in
theorem wp_takeScore (h : Kept depth v s) (haborted : v.aborted = false) (node : NodeKind)
    (searchDepth : Int) (idepth : Nat) (alpha beta : Int) (move : Move) (stage : MovePickerStage)
    (l : Locals) (score : Int) (numHistoryMoves : Nat) :
    wp (contract depth)
      (takeScore node searchDepth idepth alpha beta move stage l score numHistoryMoves)
      (fun _ v s => Kept depth v s ∧ v.aborted = false) (fun _ => Kept depth) v s := by
  rw [takeScore, wp_bind, wp_ask]
  refine ⟨haborted, fun _ v' hr => ?_⟩
  have haborted' : v'.aborted = false := by
    obtain ⟨w, rfl, -⟩ := hr
    simp [Ghost.after, outcome, haborted]
  rw [wp_bind, wp_modify]
  have hraise : Kept depth v' (if score > l.alpha then s.setBestMove idepth move else s) :=
    (h.step hr).congr (by split <;> rfl)
  generalize (if score > l.alpha then s.setBestMove idepth move else s) = s' at hraise
  generalize (if score > l.alpha then score else l.alpha) = alpha'
  rw [wp_ite]
  split
  · rw [wp_bind, wp_modify, wp_bind]
    have hkiller : Kept depth v' (if node ≠ .root ∧ stage.toNat ≥ MovePickerStage.killer.toNat then
        s'.addKiller idepth move searchDepth else s') := hraise.congr (by split <;> rfl)
    exact wp_ttStore hkiller haborted' alpha beta searchDepth idepth beta
  · exact ⟨hraise, haborted'⟩

theorem wp_nodeTurn (h : Kept depth v s) (node : NodeKind) (searchDepth : Int) (idepth : Nat)
    (alpha beta : Int) (tag : Evaluator.Tag) (flags : Flags) (move : Move) (picker : NodePicker)
    (l : Locals) (haborted : l.hasMove = true → v.aborted = false) :
    wp (contract depth)
      (nodeTurn search node searchDepth idepth alpha beta tag flags move picker l)
      (fun l v s => Kept depth v s ∧ (l.hasMove = true → v.aborted = false))
      (fun _ => Kept depth) v s := by
  rw [nodeTurn, wp_ite]
  split
  · exact ⟨h, haborted⟩
  rw [wp_bind]
  refine wp_mono (wp_withMove h fun s' tag h' =>
    wp_searchMove hsearch h' node searchDepth idepth beta flags move picker.stage l haborted tag)
    (fun result v' s' h' => ?_) fun _ _ _ hr => hr
  cases result with
  | illegal => exact ⟨h'.1, fun hm => h'.2 (Or.inr hm)⟩
  | reduced numHistoryMoves => exact ⟨h'.1, fun _ => h'.2 (Or.inl fun he => by cases he)⟩
  | searched score numHistoryMoves =>
    refine wp_mono (wp_takeScore h'.1 (h'.2 (Or.inl fun he => by cases he)) node searchDepth idepth alpha beta move
      picker.stage l score numHistoryMoves) (fun l v'' s'' h'' => ?_) fun _ _ _ hr => hr
    exact ⟨h''.1, fun _ => h''.2⟩

theorem safe_searchMoves (node : NodeKind) (searchDepth : Int) (idepth : Nat) (alpha beta : Int)
    (tag : Evaluator.Tag) (flags : Flags) (hashMove : Move) (isInCheck : Bool) :
    Safe depth (searchMoves S D jobId search node searchDepth idepth alpha beta tag flags hashMove
      isInCheck) := by
  rw [searchMoves]
  refine Orderly.bind (safe_tryModify fun s picker s' he => ?_) fun picker v s h => ?_
  · rw [createPicker] at he
    split at he
    · obtain ⟨_, -, he⟩ := Option.map_eq_some_iff.mp he
      exact congrArg (fun out => out.2.depth) he.symm
    · exact congrArg (fun out => out.2.depth) (Option.some.inj he).symm
  rw [wp_bind]
  refine wp_mono (wp_forLoop (fun _ l v s => Kept depth v s ∧ (l.hasMove = true → v.aborted = false))
    (fun _ => 0) ?_ pickerTurns (Or.inr trivial) ⟨h, fun he => by cases he⟩) (fun l v' s' h' => ?_) fun _ _ _ hr => hr
  · intro picker l v s move picker' h hn
    exact ⟨Or.inr trivial, wp_nodeTurn hsearch h.1 node searchDepth idepth alpha beta tag flags move
      picker' l h.2⟩
  · obtain ⟨picker', ⟨h', haborted⟩, -⟩ := h'
    rw [wp_ite]
    split
    · rename_i hmove
      rw [wp_bind]
      exact wp_ttStore h' (haborted hmove) alpha beta searchDepth idepth l.alpha
    · exact h'

theorem safe_doSearch (node : NodeKind) (searchDepth : Int) (idepth : Nat) (alpha beta : Int)
    (tag : Evaluator.Tag) (flags : Flags) :
    Safe depth (doSearch S D jobId search node searchDepth idepth alpha beta tag flags) := by
  rw [doSearch]
  have hmodify : Safe depth (Program.modify fun s => s.setBestMove idepth Move.null : Part Int Unit) :=
    safe_modify fun _ => rfl
  refine hmodify.bind fun _ => (orderly_gets _).bind fun board => orderly_ite (orderly_pure 0) ?_
  refine orderly_ite (safe_leafSearch S alpha beta tag) ?_
  refine (safe_probe node searchDepth idepth alpha beta).bind fun hashMove => ?_
  refine (safe_prune S hsearch node searchDepth idepth alpha beta tag flags _).bind fun reduced => ?_
  exact safe_searchMoves S D jobId hsearch node _ idepth alpha beta tag _ hashMove _

theorem safe_searchNode : SafeSearch depth (searchNode S D jobId search) := by
  intro node searchDepth idepth alpha beta tag flags
  rw [searchNode]
  refine Orderly.bind (safe_tryModify fun s isNew s' he => ?_) fun isNew => ?_
  · obtain ⟨_, -, he⟩ := Option.map_eq_some_iff.mp he
    exact congrArg (fun out => out.2.depth) he.symm
  · refine orderly_ite (Orderly.bind (Orderly.call ?_) fun score => ?_) (orderly_pure 0)
    · exact safe_doSearch S D jobId hsearch node searchDepth idepth alpha beta tag flags
    · have hmodify : Safe depth (Program.modify fun s =>
          { s with repetitions := s.repetitions.erase s.board.hash } : Part Int Unit) :=
        safe_modify fun _ => rfl
      exact hmodify.bind fun _ => orderly_pure score

omit hsearch in
theorem safe_search (left : Nat) : SafeSearch depth (Job.search S D jobId left) := by
  induction left with
  | zero => exact safe_searchNode S D jobId fun _ _ _ _ _ _ _ => orderly_stuck trivial
  | succ left ih => exact safe_searchNode S D jobId ih

omit hsearch in
theorem wp_run (hreached : depth ≤ v.shared.depth) (haborted : v.aborted = false)
    (hleft : v.left = false) :
    wp (contract depth) (run S D jobId depth) (fun _ => Kept depth) (fun _ => Kept depth) v s := by
  rw [run]
  have h : Kept depth v { s with depth := depth } :=
    ⟨rfl, hreached, by simp [hleft], by simp [haborted]⟩
  rw [wp_bind, wp_modify, wp_bind, wp_gets]
  have hsearch : Safe depth (Job.search S D jobId (maxStackDepth - 1) .root depth 0 (-scoreInf) scoreInf
    (Evaluator.ofBoard s.board) Flags.default) := safe_search S D jobId _ _ _ _ _ _ _ _
  exact hsearch.call.bind (fun score => (orderly_gets _).bind fun bestMove =>
    orderly_pure (score, bestMove)) v _ h

end Node

end Parts

section Runs

variable [Evaluator] {depth : Nat} {v : Ghost} {w : Shared} {l l₁ l₂ : List (Sigma Answer)}

theorem outcomes_append (l₁ l₂ : List (Sigma Answer)) :
    outcomes depth (l₁ ++ l₂) = outcomes depth l₁ ++ outcomes depth l₂ := List.filterMap_append

/-- The condition of the contract on the clock, for the rest of a conversation. -/
def Punctual (depth : Nat) (v : Ghost) (l : List (Sigma Answer)) : Prop :=
  (v.left = true → (⟨.checkTimeout, false⟩ : Sigma Answer) ∉ l) ∧ ¬Missed depth l

theorem Punctual.after {e : Sigma Answer} (h : Punctual depth v (e :: l)) (w : Shared) :
    Punctual depth (v.after depth e w) l := by
  obtain ⟨hleft, hmissed⟩ := h
  constructor
  · intro hl hmem
    rw [Ghost.after, Bool.or_eq_true] at hl
    cases hl with
    | inl hl => exact hleft hl (List.mem_cons_of_mem e hmem)
    | inr he =>
      obtain ⟨l₂, l₃, rfl⟩ := List.append_of_mem hmem
      obtain ⟨q, a⟩ := e
      cases q with
      | depth => exact hmissed ⟨[], a, l₂, l₃, rfl, by simpa [seesOther] using he⟩
      | _ => exact absurd he Bool.false_ne_true
  · intro hm
    obtain ⟨l₁, d, l₂, l₃, rfl, hd⟩ := hm
    exact hmissed ⟨e :: l₁, d, l₂, l₃, rfl, hd⟩

theorem exists_path (hs : Schedule v.shared (l₁ ++ l₂)) (hp : Punctual depth v (l₁ ++ l₂)) :
    ∃ v', (contract depth).Path v l₁ v' ∧ Schedule v'.shared l₂ ∧ Punctual depth v' l₂ ∧
      (v'.aborted = true ↔ v.aborted = true ∨ true ∈ outcomes depth l₁) := by
  induction l₁ generalizing v with
  | nil => exact ⟨v, .nil v, hs, hp, by simp [outcomes]⟩
  | cons e l₁ ih =>
    obtain ⟨q, a⟩ := e
    cases hs with
    | cons hg ha hs =>
      rename_i w
      obtain ⟨v', hpath, hs', hp', haborted⟩ := ih (v := v.after depth ⟨q, a⟩ w) hs (hp.after w)
      refine ⟨v', .cons ⟨w, rfl, hg, ha, fun hl he => hp.1 hl ?_⟩ hpath, hs', hp', haborted.trans ?_⟩
      · rw [he]
        exact List.mem_cons_self
      · rw [← List.singleton_append, outcomes_append, List.mem_append, Ghost.after, Bool.or_eq_true,
          beq_iff_eq, or_assoc]
        refine or_congr_right (or_congr_left ?_)
        simp [outcomes, List.mem_filterMap]

theorem sticky_of_split (h : ∀ l₁ e l₂, l = l₁ ++ e :: l₂ → true ∈ outcomes depth l₁ →
    outcome depth e ≠ some false) : Sticky depth l := by
  induction l with
  | nil => exact List.Pairwise.nil
  | cons e l ih =>
    have htail : Sticky depth l := by
      refine ih fun l₁ e' l₂ hl hmem => h (e :: l₁) e' l₂ (congrArg (e :: ·) hl) ?_
      rw [← List.singleton_append, outcomes_append]
      exact List.mem_append_right _ hmem
    cases he : outcome depth e with
    | none => rwa [Sticky, outcomes, List.filterMap_cons_none he]
    | some before =>
      rw [Sticky, outcomes, List.filterMap_cons_some he]
      refine List.pairwise_cons.mpr ⟨fun after hafter hbefore => ?_, htail⟩
      obtain ⟨e', he', ho⟩ := List.mem_filterMap.mp hafter
      obtain ⟨l₁, l₂, rfl⟩ := List.append_of_mem he'
      have := h (e :: l₁) e' l₂ rfl (by simp [outcomes, he, hbefore])
      rw [ho] at this
      simpa using this

theorem not_missed_of_sticky (h : Sticky depth l) : ¬Missed depth l := by
  intro hm
  obtain ⟨l₁, d, l₂, l₃, rfl, hd⟩ := hm
  rw [Sticky, outcomes_append] at h
  have hrest := (List.pairwise_append.mp h).2.1
  have hd' : outcome depth ⟨.depth, d⟩ = some true := by simp [outcome, hd]
  rw [outcomes, List.filterMap_cons_some hd'] at hrest
  have hlate : false ∈ outcomes depth (l₂ ++ ⟨.checkTimeout, false⟩ :: l₃) :=
    List.mem_filterMap.mpr ⟨⟨.checkTimeout, false⟩, List.mem_append_right _ List.mem_cons_self, rfl⟩
  exact absurd ((List.pairwise_cons.mp hrest).1 false hlate rfl) Bool.false_ne_true

variable [Globals] (S : Sorter) (D : Shuffler) (jobId : Nat) {s : Searcher}
variable {t : Dialogue Answer (Except (Int × Move) (Int × Move) × Searcher)}

theorem guar_of_run {q : Question} {a : Answer q}
    (hl : (run S D jobId depth s).Leads (l₁ ++ ⟨q, a⟩ :: l₂) t)
    (hw : depth ≤ w.depth) (hs : Schedule w (l₁ ++ ⟨q, a⟩ :: l₂))
    (hm : ¬Missed depth (l₁ ++ ⟨q, a⟩ :: l₂)) (hmem : true ∈ outcomes depth l₁) :
    outcome depth ⟨q, a⟩ ≠ some false ∧ ¬UsesScore ⟨q, a⟩ := by
  obtain ⟨v, hpath, hs', hp, haborted⟩ :=
    exists_path (v := ⟨w, false, false⟩) hs ⟨nofun, hm⟩
  have hguar := hpath.asks hl (wp_run S D jobId hw rfl rfl)
  have htrue : v.aborted = true := haborted.mpr (Or.inr hmem)
  cases q with
  | useScore | store => exact absurd (hguar.symm.trans htrue) Bool.false_ne_true
  | isStopped =>
    refine ⟨?_, id⟩
    rw [outcome]
    split <;> nofun
  | checkTimeout =>
    refine ⟨fun he => hp.1 (hguar htrue) ?_, id⟩
    rw [show a = false from Option.some.inj he]
    exact List.mem_cons_self
  | depth =>
    refine ⟨fun he => ?_, id⟩
    cases hs' with
    | cons hg ha _ =>
      have hlt := lt_of_lt_of_le (hguar htrue) hg.1
      have heq : (a : Nat) = depth := by simpa [outcome] using he
      exact hlt.ne (heq.symm.trans ha)
  | load | isCurrentEpoch | evalForCur => exact ⟨nofun, id⟩

/-- An aborted search stays aborted, and no longer uses its scores, unless a call of
`mustStop` looks at the clock only. -/
theorem aborts_stick_iff (hl : (run S D jobId depth s).Leads l t) (hw : depth ≤ w.depth)
    (hs : Schedule w l) : Sticky depth l ∧ Unused depth l ↔ ¬Missed depth l := by
  refine ⟨fun h => not_missed_of_sticky h.1, fun hm => ⟨sticky_of_split ?_, ?_⟩⟩
  · intro l₁ e l₂ he hmem
    subst he
    exact (guar_of_run S D jobId hl hw hs hm hmem).1
  · intro l₁ e l₂ he huses hmem
    subst he
    exact (guar_of_run S D jobId hl hw hs hm hmem).2 huses

end Runs

section Missed

variable [Evaluator] [Globals] {b : Board} {data data' data'' : Data} {S : Sorter} {D : Shuffler}
variable {jobId : Nat} {search : Recurse} {s : Searcher} {keys : List BoardHash} {idepth : Nat}

/-- The search is told of another depth, and then looks at the clock. -/
def missedStop (b : Board) (data data' data'' : Data) : List (Sigma Answer) :=
  [⟨.load b, data⟩, ⟨.load (moveMake b data.move).1, data'⟩,
    ⟨.load (moveMake (moveMake b data.move).1 data'.move).1, data''⟩, ⟨.isCurrentEpoch data'', true⟩,
    ⟨.isStopped, false⟩, ⟨.depth, (4 : Nat)⟩, ⟨.isStopped, false⟩, ⟨.checkTimeout, false⟩,
    ⟨.useScore, ()⟩]

variable (S D jobId search s idepth) in
theorem runs_left (h : Leading s.board data)
    (h' : Answered (moveMake s.board data.move).1 data')
    (hroom : Room s.repetitions (s.board.hash :: (moveMake s.board data.move).1.hash :: keys))
    (hidepth : idepth + 2 < maxStackDepth) (hcount : (s.counter + 1) &&& 1023 ≠ 0)
    (hdepth : s.depth = 3) :
    ∃ s', (∀ alpha beta tag flags,
        Runs (searchNode S D jobId (searchNode S D jobId search) .pv 2 idepth alpha beta tag flags) s
          [⟨.load s.board, data⟩, ⟨.load (moveMake s.board data.move).1, data'⟩,
            ⟨.isCurrentEpoch data', true⟩, ⟨.isStopped, false⟩, ⟨.depth, (4 : Nat)⟩] (.ok 0) s') ∧
      s'.counter = s.counter + 1 := by
  obtain ⟨t, hins, hroom'⟩ := hroom.insert
  obtain ⟨p, p', hpicker, hnext⟩ := createPicker_inner
    (({ s with repetitions := t } : Searcher).setBestMove idepth Move.null) idepth h S D jobId
  have hopen : Opening S D jobId .pv 2 idepth data { s with repetitions := t } p p' :=
    ⟨h, rfl, Or.inr (by rw [h.depth]; omega), by omega, by omega, hpicker, hnext⟩
  obtain ⟨s₂, hchild, hdepth₂, hcount₂⟩ := runs_remembered S D jobId search
    (afterMove { s with repetitions := t } idepth data.move) (idepth + 1) h' hroom' hidepth
  have hcount' : (s₂.counter + 1) &&& 1023 ≠ 0 := by rwa [hcount₂]
  have hdepth' : 4 ≠ s₂.depth := by
    rw [hdepth₂]
    exact fun he => absurd (he.trans hdepth) (by decide)
  refine ⟨_, fun alpha beta tag flags => runs_searchNode hins (hopen.runs_error fun tag flags =>
    runs_fullWindow_error (l := [⟨.load (moveMake s.board data.move).1, data'⟩,
      ⟨.isCurrentEpoch data', true⟩]) rfl (hchild _ _ tag flags) (runs_leave hcount' hdepth')) (Or.inr rfl), ?_⟩
  exact congrArg (· + 1) hcount₂

theorem leads_missedStop (S : Sorter) (D : Shuffler) {b : Board} (h : Leading b data)
    (h' : Leading (moveMake b data.move).1 data')
    (h'' : Answered (moveMake (moveMake b data.move).1 data'.move).1 data'')
    (hroom : Room RepetitionTable.empty [b.hash, (moveMake b data.move).1.hash,
      (moveMake (moveMake b data.move).1 data'.move).1.hash]) :
    ∃ t, (run S D 0 3 { Searcher.create b RepetitionTable.empty with counter := 1022 }).Leads
      (missedStop b data data' data'') t := by
  let s : Searcher := { Searcher.create b RepetitionTable.empty with counter := 1022, depth := 3 }
  obtain ⟨t, hins, hroom'⟩ := Room.insert (s := s) hroom
  obtain ⟨p, p', hpicker, hnext⟩ := createPicker_root
    (({ s with repetitions := t } : Searcher).setBestMove 0 Move.null) 0 h S D .empty
  have hopen : Opening S D 0 .root 3 0 data { s with repetitions := t } p p' :=
    ⟨h, rfl, Or.inl rfl, by omega, by decide, hpicker, hnext⟩
  obtain ⟨s₂, hchild, hcount₂⟩ := runs_left S D 0 (search S D 0 261)
    (afterMove { s with repetitions := t } 0 data.move) 1 h' h'' hroom' (by decide)
    (show (1022 + 1 : BitVec 64) &&& 1023 ≠ 0 from by decide) rfl
  have hcount : (s₂.counter + 1) &&& 1023 = 0 := by
    rw [hcount₂]
    exact (by decide : (1022 + 1 + 1 : BitVec 64) &&& 1023 = 0)
  obtain ⟨t, ht⟩ := hopen.leads_useScore fun tag flags =>
    runs_fullWindow rfl (hchild _ _ tag flags) (runs_look hcount)
  obtain ⟨t', hsearch⟩ : ∃ t', (search S D 0 264 .root 3 0 (-scoreInf) scoreInf
      (Evaluator.ofBoard b) Flags.default s).Leads (missedStop b data data' data'') t' :=
    ⟨_, (runs_tryModify hins).silent ((ht.bind _).bind _)⟩
  exact ⟨_, (hsearch.bind _).bind _⟩

omit [Evaluator] [Globals] in
theorem not_holds_empty {x : BoardHash} (hx : x ≠ 0) : ¬RepetitionTable.empty.Holds x := by
  intro h
  obtain ⟨i, -, hi⟩ := h
  exact hx hi.symm

/-- An entry of an earlier search. -/
def remembered (move : Move) : Data := Data.of move 0 1 .exact

omit [Globals] [Evaluator] in
theorem answered_remembered (m : Move)
    (hdrawn : b.moveCounter < 90 ∧ isBoardDrawInsufficientMaterial b = false) :
    Answered b (remembered m) where
  drawn := hdrawn
  dataValid := (by decide : (PositionCostBound.exact.toBits ||| flagIsValid) &&& flagIsValid != 0)
  depth := rfl
  bound := (by decide : (PositionCostBound.exact.toBits ||| flagIsValid) &&& 3 =
    PositionCostBound.exact.toBits)

omit [Evaluator] in
theorem leading_remembered {m : Move} (hb : Valid b) (hm : LegalStep b m) (htag : m.tag = 0)
    (hkind : m.kind ≠ .null)
    (hdrawn : b.moveCounter < 90 ∧ isBoardDrawInsufficientMaterial b = false) :
    Leading b (remembered m) := by
  have hmove : (remembered m).move = m := by
    obtain ⟨kind, src, dst, tag⟩ := m
    exact congrArg (Move.mk kind src dst) (Eq.symm htag)
  refine ⟨answered_remembered m hdrawn, hb, ?_, ?_⟩
  · rw [hmove]
    exact ⟨hm.playable.1, hm.playable.2.resolve_left hkind⟩
  · rw [hmove]
    exact hm.legal

@[reducible] def plainEvaluator : Evaluator := ⟨Unit, fun _ => (), fun _ _ _ => ()⟩

def keepingShuffler : Shuffler := ⟨id, fun _ => .refl _⟩

/-- The job has counted to 1022 when it starts a search of depth 3. -/
def busySearcher : Searcher :=
  { Searcher.create initialPosition RepetitionTable.empty with counter := 1022 }

/-- A first line of play is in the table. -/
def openingStop : List (Sigma Answer) :=
  missedStop initialPosition (remembered firstMove) (remembered secondMove)
    (remembered (mkMove .simple 62 45))

omit [Globals] [Evaluator] in
theorem leads_openingStop : letI := spreadGlobals; letI := plainEvaluator
    ∃ t, (run Sorter.inserting keepingShuffler 0 3 busySearcher).Leads openingStop t := by
  let _ := spreadGlobals
  let _ := plainEvaluator
  have hmove : (remembered firstMove).move = firstMove := by decide
  have hmove' : (remembered secondMove).move = secondMove := by decide
  have hvalid := valid_moveMake valid_initialPosition legalStep_firstMove
  have h := leading_remembered valid_initialPosition legalStep_firstMove (by decide) (by decide)
    (by decide +kernel)
  have h' := leading_remembered hvalid legalStep_secondMove (by decide) (by decide)
    (by decide +kernel)
  refine leads_missedStop Sorter.inserting keepingShuffler h (by rw [hmove]; exact h') ?_ ?_
  · rw [hmove, hmove']
    exact answered_remembered _ (by decide +kernel)
  · rw [hmove, hmove']
    have hash₀ : initialPosition.hash = 1794 := by decide +kernel
    have hash₁ : (moveMake initialPosition firstMove).1.hash = 1927 := by decide +kernel
    have hash₂ : (moveMake (moveMake initialPosition firstMove).1 secondMove).1.hash = 1798 := by
      decide +kernel
    rw [hash₀, hash₁, hash₂]
    have hne : ∀ x ∈ [(1794 : BoardHash), 1927, 1798], x ≠ 0 := by simp
    have hnodup : [(1794 : BoardHash), 1927, 1798].Nodup := by simp
    exact ⟨5, by omega, .empty, hnodup, fun x hx => ⟨hne x hx, not_holds_empty (hne x hx)⟩⟩

theorem schedule_missedStop : Schedule ⟨3, false⟩ (missedStop b data data' data'') := by
  have hquiet : ∀ w : Shared, w.Grows w := fun w => ⟨le_rfl, id⟩
  have hraise : Shared.Grows ⟨3, false⟩ ⟨4, false⟩ := ⟨by decide, id⟩
  have hleft : Schedule ⟨4, false⟩ [⟨.isStopped, false⟩, ⟨.checkTimeout, false⟩, ⟨.useScore, ()⟩] :=
    .cons (hquiet _) rfl (.cons (hquiet _) nofun (.cons (hquiet _) trivial (.nil _)))
  have hleave : Schedule ⟨3, false⟩ (⟨.depth, (4 : Nat)⟩ ::
      [⟨.isStopped, false⟩, ⟨.checkTimeout, false⟩, ⟨.useScore, ()⟩]) :=
    .cons hraise rfl hleft
  exact .cons (hquiet _) trivial (.cons (hquiet _) trivial (.cons (hquiet _) trivial
    (.cons (hquiet _) trivial (.cons (hquiet _) rfl hleave))))

theorem outcomes_missedStop : outcomes 3 (missedStop b data data' data'') = [true, false] := rfl

omit [Globals] [Evaluator] in
theorem aborts_stick_iff_openingStop : letI := spreadGlobals; letI := plainEvaluator
    Sticky 3 openingStop ∧ Unused 3 openingStop ↔ ¬Missed 3 openingStop := by
  let _ := spreadGlobals
  let _ := plainEvaluator
  obtain ⟨t, ht⟩ := leads_openingStop
  exact aborts_stick_iff Sorter.inserting keepingShuffler 0 ht (w := ⟨3, false⟩) le_rfl
    schedule_missedStop

omit [Globals] [Evaluator] in
/-- The score of the subtree that was left becomes the best one of the root. -/
theorem not_aborts_stick : letI := spreadGlobals; letI := plainEvaluator
    ∃ t, (run Sorter.inserting keepingShuffler 0 3 busySearcher).Leads openingStop t ∧
      Schedule ⟨3, false⟩ openingStop ∧ ¬Sticky 3 openingStop ∧ ¬Unused 3 openingStop := by
  let _ := spreadGlobals
  let _ := plainEvaluator
  obtain ⟨t, ht⟩ := leads_openingStop
  refine ⟨t, ht, schedule_missedStop, fun h => ?_, fun h => ?_⟩
  · rw [Sticky, openingStop, outcomes_missedStop] at h
    exact absurd h (by decide)
  · have hused := h (openingStop.take 8) ⟨.useScore, ()⟩ [] rfl trivial
    exact hused (List.mem_cons_self)

end Missed

end SoFCheck.Search.Aborts
