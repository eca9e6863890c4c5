import SoFCheck.Search.Job
import SoFCheck.Util.Threads

namespace SoFCheck.Search.Protocol

open SoFCheck.Util.Imperative SoFCheck.Util.Imperative.Program
open SoFCheck.Core.Types SoFCheck.Core.BoardState SoFCheck.Core.Moves SoFCheck.Eval.Score
open SoFCheck.Core.MoveMake SoFCheck.Core.Movegen SoFCheck.Core.Attack
open SoFCheck.Search.Pickers SoFCheck.Search.TableData SoFCheck.Search.Job

section Parts

variable [Evaluator] {ν ρ α β : Type}

/-- What is asked outside `mustStop`. -/
def Plain : Question → Prop
  | .isStopped | .checkTimeout | .depth => False
  | _ => True

/-- What holds whenever the search is not in the middle of `mustStop`. -/
structure Keeping (K : Contract Answer ν) (I : ν → Searcher → Prop) : Prop where
  mayStick : K.mayStick
  congr : ∀ {v s s'}, s'.depth = s.depth → I v s → I v s'
  plain : ∀ {v s q}, Plain q → I v s → K.guar v q ∧ ∀ a v', K.rely v q a v' → I v' s
  mustStop : ∀ {ρ : Type} {v s}, I v s → wp K (mustStop : Part ρ Bool) (fun _ => I) (fun _ => I) v s

variable {K : Contract Answer ν} {I : ν → Searcher → Prop}

/-- A part of the search that keeps what holds between the calls of `mustStop`. -/
abbrev Idle (K : Contract Answer ν) (I : ν → Searcher → Prop) (m : Part ρ α) : Prop :=
  Orderly K (.invariant I) m

variable (hI : Keeping K I)

include hI

theorem idle_modify {f : Searcher → Searcher} (hf : ∀ s, (f s).depth = s.depth) :
    Idle K I (modify f : Part ρ Unit) := fun _ s h => hI.congr (hf s) h

theorem idle_tryModify {f : Searcher → Option (α × Searcher)}
    (hf : ∀ s a s', f s = some (a, s') → s'.depth = s.depth) : Idle K I (tryModify f : Part ρ α) :=
  orderly_tryModify hI.mayStick fun _ s a s' h hs => hI.congr (hf s a s' hs) h

theorem idle_query {q : Question} (hq : Plain q) : Idle K I (query q : Part ρ (Answer q)) :=
  fun _ _ h => hI.plain hq h

theorem idle_returnIfStopped (value : ρ) : Idle K I (returnIfStopped value) := by
  rw [returnIfStopped]
  have hstop : Idle K I (Job.mustStop : Part ρ Bool) := fun _ _ h => hI.mustStop h
  exact hstop.bind fun _ => orderly_ite (orderly_earlyReturn value) (orderly_pure ())

theorem idle_searched {m : Part β β} (hm : Idle K I m) (value : ρ) (f : β → α) : Idle K I (do
    let score ← Program.call m
    returnIfStopped value
    pure (f score) : Part ρ α) :=
  hm.call.bind fun _ => (idle_returnIfStopped hI value).bind fun _ => orderly_pure _

variable [Globals]

theorem idle_withMove {move : Move} {tag : Evaluator.Tag} {body : Evaluator.Tag → Part ρ α}
    (hbody : ∀ tag, Idle K I (body tag)) : Idle K I (withMove move tag body) := by
  rw [withMove]
  refine (orderly_gets _).bind fun board => ?_
  intro v s h
  rw [wp_guarded]
  refine wp_mono (hbody _ v _ (hI.congr ?_ h)) (fun _ _ _ h' => hI.congr ?_ h')
    fun _ _ _ h' => hI.congr ?_ h'
  · rfl
  · rfl
  · rfl

section Quiescence

variable (S : Sorter)

theorem idle_quiescenseTurn {recurse : Int → Int → Evaluator.Tag → Part Int Int}
    (hrec : ∀ alpha beta tag, Idle K I (recurse alpha beta tag)) (beta : Int) (tag : Evaluator.Tag)
    (move : Move) (picker : QuiescenseMovePicker) (alpha : Int) :
    Idle K I (quiescenseTurn recurse beta tag move picker alpha) := by
  rw [quiescenseTurn]
  refine orderly_ite (orderly_pure alpha) (Orderly.bind (idle_withMove hI fun tag => ?_) fun found => ?_)
  · rw [quiescenseMove]
    exact (orderly_gets _).bind fun _ => orderly_ite (idle_searched hI (hrec _ _ tag) 0 _) (orderly_pure none)
  · cases found with
    | none => exact orderly_pure alpha
    | some score =>
      have huse : Plain Question.useScore := trivial
      exact (idle_query hI huse).bind fun _ => orderly_ite (orderly_earlyReturn beta) (orderly_pure _)

theorem idle_quiescenseSearch (levels : Nat) (alpha beta : Int) (tag : Evaluator.Tag) :
    Idle K I (quiescenseSearch S levels alpha beta tag) := by
  induction levels generalizing alpha beta tag with
  | zero => exact orderly_stuck hI.mayStick
  | succ levels ih =>
    rw [quiescenseSearch]
    refine (orderly_gets _).bind fun board => orderly_ite (orderly_pure 0) ?_
    have hplain : Plain (.evalForCur board tag) := trivial
    refine (idle_query hI hplain).bind fun evalScore => orderly_ite (orderly_pure beta) ?_
    apply orderly_forLoop hI.mayStick
    intro move picker alpha
    exact idle_quiescenseTurn hI ih beta tag move picker alpha

theorem idle_leafSearch (alpha beta : Int) (tag : Evaluator.Tag) :
    Idle K I (leafSearch S alpha beta tag) :=
  orderly_ite (orderly_pure alpha) (orderly_ite (orderly_pure beta) (idle_quiescenseSearch hI S _ alpha beta tag).call)

end Quiescence

section Node

variable (S : Sorter) (D : Shuffler) (jobId : Nat) {search : Recurse} {idepth : Nat}

omit [Globals] in
theorem idle_ttStore (alpha beta depth score : Int) : Idle K I (ttStore alpha beta depth idepth score) := by
  rw [ttStore]
  refine (orderly_gets _).bind fun bestMove => orderly_ite ((orderly_gets _).bind fun board => ?_) (orderly_pure ())
  have hplain : ∀ data, Plain (.store board data) := fun _ => trivial
  exact idle_query hI (hplain _)

omit [Globals] in
theorem idle_probe (node : NodeKind) (depth alpha beta : Int) :
    Idle K I (probe node depth idepth alpha beta) := by
  rw [probe]
  refine (orderly_gets _).bind fun board => ?_
  have hload : Plain (.load board) := trivial
  refine (idle_query hI hload).bind fun data => orderly_ite (Orderly.bind ?_ fun allow => ?_) (orderly_pure _)
  · rw [allowCutoff]
    have hepoch : Plain (.isCurrentEpoch data) := trivial
    exact orderly_ite (orderly_ite (idle_query hI hepoch) (orderly_pure true)) (orderly_pure false)
  · have hset : Idle K I (modify fun s => s.setBestMove idepth data.move : Part Int Unit) :=
      idle_modify hI fun _ => rfl
    exact orderly_ite (hset.bind fun _ => orderly_earlyReturn _) (orderly_pure _)

omit [Globals] in
theorem idle_getEvalScore (tag : Evaluator.Tag) (evalScore : Option Int) :
    Idle K I (getEvalScore tag evalScore) := by
  cases evalScore with
  | none =>
    refine (orderly_gets _).bind fun board => ?_
    have hplain : Plain (.evalForCur board tag) := trivial
    exact idle_query hI hplain
  | some score => exact orderly_pure score

omit [Globals] in
theorem idle_futility (depth beta : Int) (tag : Evaluator.Tag) : Idle K I (futility depth beta tag) := by
  rw [futility]
  refine orderly_ite ((idle_getEvalScore hI tag none).bind fun evalScore => ?_) (orderly_pure none)
  exact orderly_ite (orderly_earlyReturn beta) (orderly_pure _)

theorem idle_razoring (depth alpha : Int) (tag : Evaluator.Tag) (evalScore : Option Int) :
    Idle K I (razoring S depth alpha tag evalScore) := by
  rw [razoring]
  refine orderly_ite ((idle_getEvalScore hI tag evalScore).bind fun score => ?_) (orderly_pure ())
  refine orderly_ite ((idle_quiescenseSearch hI S _ _ _ tag).call.bind fun score => ?_) (orderly_pure ())
  exact orderly_ite (orderly_earlyReturn alpha) (orderly_pure ())

variable (hsearch : ∀ node depth alpha beta tag flags,
  Idle K I (search node depth (idepth + 1) alpha beta tag flags))

include hsearch

theorem idle_nullMoveReduction (depth beta : Int) (tag : Evaluator.Tag) (flags : Flags) :
    Idle K I (nullMoveReduction search depth idepth beta tag flags) := by
  rw [nullMoveReduction]
  refine Orderly.bind (idle_withMove hI fun tag => ?_) fun _ => orderly_ite (orderly_pure _) (orderly_pure _)
  exact idle_searched hI (hsearch _ _ _ _ tag _) 0 _

theorem idle_prune (node : NodeKind) (depth alpha beta : Int) (tag : Evaluator.Tag) (flags : Flags)
    (isInCheck : Bool) :
    Idle K I (prune S search node depth idepth alpha beta tag flags isInCheck) := by
  rw [prune]
  refine orderly_ite ((idle_futility hI depth beta tag).bind fun evalScore => ?_) (orderly_pure _)
  refine (idle_razoring hI S depth alpha tag evalScore).bind fun _ => ?_
  exact orderly_ite (idle_nullMoveReduction hI hsearch depth beta tag flags) (orderly_pure _)

omit [Globals] in
theorem idle_pvSearch (node : NodeKind) (depth alpha beta : Int) (tag : Evaluator.Tag)
    (newFlags : Flags) (isFirstMove : Bool) :
    Idle K I (pvSearch search node depth idepth alpha beta tag newFlags isFirstMove) := by
  have hfull : Idle K I (fullWindowSearch search node depth idepth alpha beta tag newFlags) :=
    idle_searched hI (hsearch _ _ _ _ tag _) 0 _
  have hzero : Idle K I (zeroWindowSearch search depth idepth alpha tag newFlags) :=
    idle_searched hI (hsearch _ _ _ _ tag _) 0 _
  exact orderly_ite (hzero.bind fun score => orderly_ite hfull (orderly_pure score)) hfull

theorem idle_searchMove (node : NodeKind) (depth beta : Int) (flags : Flags) (move : Move)
    (stage : MovePickerStage) (l : Locals) (tag : Evaluator.Tag) :
    Idle K I (searchMove search node depth idepth beta flags move stage l tag) := by
  rw [searchMove]
  refine (orderly_gets _).bind fun board => orderly_ite (Orderly.bind ?_ fun isReduced => ?_) (orderly_pure _)
  · rw [lateMoveReduction]
    exact orderly_ite (idle_searched hI (hsearch _ _ _ _ tag _) 0 _) (orderly_pure false)
  · refine orderly_ite (orderly_pure _) ?_
    exact (idle_pvSearch hI hsearch node depth l.alpha beta tag _ _).bind fun _ => orderly_pure _

omit [Globals] hsearch in
theorem idle_takeScore (node : NodeKind) (depth alpha beta : Int) (move : Move)
    (stage : MovePickerStage) (l : Locals) (score : Int) (numHistoryMoves : Nat) : Idle K I
      (takeScore node depth idepth alpha beta move stage l score numHistoryMoves) := by
  have huse : Plain Question.useScore := trivial
  have hbest : ∀ s : Searcher, (if score > l.alpha then s.setBestMove idepth move else s).depth =
      s.depth := fun _ => by split <;> rfl
  have hkiller : ∀ s : Searcher, (if node ≠ .root ∧ stage.toNat ≥ MovePickerStage.killer.toNat then
      s.addKiller idepth move depth else s).depth = s.depth := fun _ => by split <;> rfl
  rw [takeScore]
  refine (idle_query hI huse).bind fun _ => (idle_modify hI hbest).bind fun _ => ?_
  refine orderly_ite ((idle_modify hI hkiller).bind fun _ => ?_) (orderly_pure _)
  exact (idle_ttStore hI alpha beta depth beta).bind fun _ => orderly_earlyReturn beta

theorem idle_nodeTurn (node : NodeKind) (depth alpha beta : Int) (tag : Evaluator.Tag) (flags : Flags)
    (move : Move) (picker : NodePicker) (l : Locals) :
    Idle K I (nodeTurn search node depth idepth alpha beta tag flags move picker l) := by
  rw [nodeTurn]
  refine orderly_ite (orderly_pure l) (Orderly.bind (idle_withMove hI fun tag => ?_) fun result => ?_)
  · exact idle_searchMove hI hsearch node depth beta flags move picker.stage l tag
  · cases result with
    | illegal => exact orderly_pure l
    | reduced numHistoryMoves => exact orderly_pure _
    | searched score numHistoryMoves => exact idle_takeScore hI node depth alpha beta move _ l score _

theorem idle_searchMoves (node : NodeKind) (depth alpha beta : Int) (tag : Evaluator.Tag)
    (flags : Flags) (hashMove : Move) (isInCheck : Bool) : Idle K I
      (searchMoves S D jobId search node depth idepth alpha beta tag flags hashMove isInCheck) := by
  have hcreate : ∀ (s : Searcher) picker s', createPicker S D jobId node idepth hashMove s =
      some (picker, s') → s'.depth = s.depth := by
    intro s picker s' hs
    rw [createPicker] at hs
    split at hs
    · obtain ⟨_, -, he⟩ := Option.map_eq_some_iff.mp hs
      rw [(Prod.mk.inj he).2]
    · rw [(Prod.mk.inj (Option.some.inj hs)).2]
  rw [searchMoves]
  refine (idle_tryModify hI hcreate).bind fun picker => Orderly.bind ?_ fun l => ?_
  · apply orderly_forLoop hI.mayStick
    intro move picker l
    exact idle_nodeTurn hI hsearch node depth alpha beta tag flags move picker l
  · exact orderly_ite ((idle_ttStore hI alpha beta depth l.alpha).bind fun _ => orderly_pure _) (orderly_pure _)

omit hsearch in
theorem idle_searchNode
    (hsearch : ∀ idepth node depth alpha beta tag flags,
      Idle K I (search node depth (idepth + 1) alpha beta tag flags))
    (node : NodeKind) (depth : Int) (idepth : Nat) (alpha beta : Int) (tag : Evaluator.Tag)
    (flags : Flags) : Idle K I
      (searchNode S D jobId search node depth idepth alpha beta tag flags) := by
  have hinsert : ∀ (s : Searcher) isNew s', insertHash s = some (isNew, s') → s'.depth = s.depth := by
    intro s isNew s' hs
    obtain ⟨_, -, he⟩ := Option.map_eq_some_iff.mp hs
    rw [← (Prod.mk.inj he).2]
  have hset : Idle K I (modify fun s => s.setBestMove idepth Move.null : Part Int Unit) :=
    idle_modify hI fun _ => rfl
  have herase : Idle K I (modify fun s =>
      { s with repetitions := s.repetitions.erase s.board.hash } : Part Int Unit) :=
    idle_modify hI fun _ => rfl
  rw [searchNode]
  refine (idle_tryModify hI hinsert).bind fun isNew => orderly_ite (Orderly.bind (Orderly.call ?_) fun score =>
    herase.bind fun _ => orderly_pure score) (orderly_pure 0)
  rw [doSearch]
  refine hset.bind fun _ => (orderly_gets _).bind fun board => orderly_ite (orderly_pure 0) ?_
  refine orderly_ite (idle_leafSearch hI S alpha beta tag) ?_
  refine (idle_probe hI node depth alpha beta).bind fun hashMove => ?_
  refine (idle_prune hI S (hsearch idepth) node depth alpha beta tag flags _).bind fun reduced => ?_
  exact idle_searchMoves hI S D jobId (hsearch idepth) node _ alpha beta tag _ hashMove _

omit hsearch in
theorem idle_search (left : Nat) (node : NodeKind) (depth : Int) (idepth : Nat) (alpha beta : Int)
    (tag : Evaluator.Tag) (flags : Flags) :
    Idle K I (Job.search S D jobId left node depth idepth alpha beta tag flags) := by
  induction left generalizing node depth idepth alpha beta tag flags with
  | zero =>
    exact idle_searchNode hI S D jobId (fun _ _ _ _ _ _ _ => orderly_stuck hI.mayStick) node depth idepth alpha beta
      tag flags
  | succ left ih =>
    exact idle_searchNode hI S D jobId (fun idepth node depth alpha beta tag flags =>
      ih node depth (idepth + 1) alpha beta tag flags) node depth idepth alpha beta tag flags

omit hsearch in
theorem wp_run {v : ν} {s : Searcher} {depth : Nat} (h : I v { s with depth := depth }) :
    wp K (run S D jobId depth) (fun _ => I) (fun _ => I) v s := by
  rw [run, wp_bind, wp_modify, wp_bind, wp_gets]
  exact (idle_search hI S D jobId (maxStackDepth - 1) .root depth 0 (-scoreInf) scoreInf
    (Evaluator.ofBoard s.board) Flags.default).call.bind
      (fun score => (orderly_gets _).bind fun bestMove => orderly_pure (score, bestMove)) v _ h

end Node

end Parts

end SoFCheck.Search.Protocol
