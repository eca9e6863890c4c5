import SoFCheck.Search.Protocol
import SoFCheck.Search.Recursion
import SoFCheck.Search.Windows

namespace SoFCheck.Search.RootMove

open SoFCheck.Util.Imperative SoFCheck.Util.Imperative.Program
open SoFCheck.Core.Types SoFCheck.Core.BoardState SoFCheck.Core.Moves SoFCheck.Core.Attack
open SoFCheck.Core.Validate SoFCheck.Core.MoveMake SoFCheck.Core.MakeBoard SoFCheck.Core.Movegen
open SoFCheck.Core.Sequence SoFCheck.Core.LegalMoves SoFCheck.Eval.Score
open SoFCheck.Search.Tables SoFCheck.Search.Pickers SoFCheck.Search.Enumeration
open SoFCheck.Search.PickerSteps SoFCheck.Search.TableData SoFCheck.Search.Job
open SoFCheck.Search.Discipline
open SoFCheck.Search.Windows (Window Bounded window_root bounded_iff)

section Best

variable [Evaluator] [Globals] {limit : Int} {root : Color} {idepth : Nat} {s s' : Searcher}

/-- Something that holds of the legal moves, and of no other moves but the null move. -/
structure Fair (b : Board) (P : Move → Prop) : Prop where
  legal : ∀ m, SafeMove b m → P m
  only : ∀ m, P m → m = Move.null ∨ SafeMove b m

/-- The node leaves everything in order, and a best move of which `P` holds. -/
def Leaves (root : Color) (idepth : Nat) (P : Move → Prop) (s s' : Searcher) : Prop :=
  Restored root idepth s s' ∧ P (s'.stack idepth).bestMove

variable {P : Move → Prop}

omit [Evaluator] in
theorem Leaves.best (h : Leaves root idepth P s s') (hP : Fair s.board P) : BestLegal idepth s' := by
  rw [BestLegal, h.1.board]
  exact hP.only _ h.2

/-- A better move takes the place of the best one. -/
theorem wp_takeScore_leaves (h : Ready root idepth s) (hP : Fair s.board P)
    (hbest : P (s.stack idepth).bestMove) (node : NodeKind) {depth : Int} (hmin : 0 < depth)
    (hmax : depth ≤ limit) (alpha beta : Int) {move : Move} (hm : SafeMove s.board move)
    (stage : MovePickerStage) (l : Locals) (score : Int) (numHistoryMoves : Nat) :
    wp (contract limit) (takeScore node depth idepth alpha beta move stage l score numHistoryMoves)
      (fun _ _ s' => Leaves root idepth P s s' ∧
        (l.alpha < score → (s'.stack idepth).bestMove = move))
      (fun _ _ s' => Leaves root idepth P s s' ∧
        (l.alpha < score → (s'.stack idepth).bestMove = move)) () s := by
  rw [takeScore, wp_bind, wp_ask]
  refine ⟨trivial, fun _ _ _ => ?_⟩
  rw [wp_bind, wp_modify]
  obtain ⟨s₁, hs₁, h₁, hmove₁⟩ : ∃ s₁,
      (if score > l.alpha then s.setBestMove idepth move else s) = s₁ ∧
      Leaves root idepth P s s₁ ∧ (l.alpha < score → (s₁.stack idepth).bestMove = move) := by
    split
    · refine ⟨_, rfl, ⟨h.setBestMove move, ?_⟩, fun _ => bestMove_setBestMove s idepth move⟩
      rw [bestMove_setBestMove]
      exact hP.legal move hm
    · rename_i hscore
      exact ⟨_, rfl, ⟨h.refl _, hbest⟩, fun hlt => absurd hlt hscore⟩
  rw [hs₁]
  generalize (if score > l.alpha then score else l.alpha) = alpha'
  rw [wp_ite]
  split
  · rw [wp_bind, wp_modify, wp_bind]
    obtain ⟨s₂, hs₂, h₂, hmove₂⟩ : ∃ s₂, (if node ≠ .root ∧
        stage.toNat ≥ MovePickerStage.killer.toNat then s₁.addKiller idepth move depth else s₁) = s₂ ∧
        Leaves root idepth P s s₂ ∧ (s₂.stack idepth).bestMove = (s₁.stack idepth).bestMove := by
      split
      · refine ⟨_, rfl, ⟨h₁.1.trans ((h.after h₁.1).addKiller (h₁.1.board ▸ hm.1.1) depth), ?_⟩, ?_⟩
        · rw [bestMove_addKiller]
          exact h₁.2
        · exact bestMove_addKiller s₁ idepth move depth
      · exact ⟨_, rfl, h₁, rfl⟩
    rw [hs₂]
    refine wp_mono (wp_ttStore (h₂.best hP) hmin hmax alpha beta beta) (fun _ _ s' hs' => ?_)
      fun _ _ _ h' => h'
    subst hs'
    exact ⟨h₂, fun hlt => hmove₂.trans (hmove₁ hlt)⟩
  · exact ⟨h₁, hmove₁⟩

variable {search : Recurse} (hsearch : TidySearch limit root (idepth + 1) search)

include hsearch

theorem wp_nodeTurn_leaves (h : Ready root idepth s) (hP : Fair s.board P)
    (hbest : P (s.stack idepth).bestMove) (node : NodeKind) {depth : Int} (hmin : 0 < depth)
    (hmax : depth ≤ limit) (alpha beta : Int) (tag : Evaluator.Tag) (flags : Flags) {move : Move}
    (hm : move = Move.null ∨ PseudoMove s.board move) (picker : NodePicker) (l : Locals) :
    wp (contract limit) (nodeTurn search node depth idepth alpha beta tag flags move picker l)
      (fun _ _ s' => Leaves root idepth P s s') (fun _ _ s' => Leaves root idepth P s s') () s := by
  have hstays : ∀ s', Restored root (idepth + 1) s s' → Leaves root idepth P s s' := by
    intro s' h'
    refine ⟨h'.mono (Nat.le_succ idepth), ?_⟩
    rw [h'.frames idepth (Nat.lt_succ_self idepth)]
    exact hbest
  rw [nodeTurn, wp_ite]
  split
  · exact ⟨h.refl _, hbest⟩
  rename_i hnull
  have hpseudo := hm.resolve_left hnull
  rw [wp_bind]
  refine wp_mono (wp_withMove (Q := fun result => result ≠ .illegal → SafeMove s.board move) h
    hpseudo.playable fun tag => ?_) (fun result _ s' h' => ?_) fun _ _ s' h' => hstays s' h'
  · exact wp_searchMove hsearch h node hmax beta flags hpseudo picker.stage l tag
  · obtain ⟨hrestored, hlegal⟩ := h'
    have hleft := hstays s' hrestored
    cases result with
    | illegal => exact hleft
    | reduced numHistoryMoves => exact hleft
    | searched score numHistoryMoves =>
      have hlegal' : SafeMove s'.board move := hleft.1.board ▸ hlegal fun he => by cases he
      have hP' : Fair s'.board P := hleft.1.board ▸ hP
      exact wp_mono (wp_takeScore_leaves (h.after hleft.1) hP' hleft.2 node hmin hmax alpha beta hlegal'
        picker.stage l score numHistoryMoves) (fun _ _ s'' h'' => ⟨hleft.1.trans h''.1.1, h''.1.2⟩)
        fun _ _ s'' h'' => ⟨hleft.1.trans h''.1.1, h''.1.2⟩

variable (S : Sorter) (D : Shuffler) (jobId : Nat)

theorem wp_searchMoves_leaves (h : Ready root idepth s) (hP : Fair s.board P)
    (hbest : P (s.stack idepth).bestMove) (node : NodeKind) {depth : Int} (hmin : 0 < depth)
    (hmax : depth ≤ limit) (alpha beta : Int) (tag : Evaluator.Tag) (flags : Flags) {hashMove : Move}
    (hh : hashMove = Move.null ∨ PseudoMove s.board hashMove) (isInCheck : Bool) :
    wp (contract limit)
      (searchMoves S D jobId search node depth idepth alpha beta tag flags hashMove isInCheck)
      (fun _ _ s' => Leaves root idepth P s s') (fun _ _ s' => Leaves root idepth P s s') () s := by
  obtain ⟨picker, hpicker, hoffers, hturns⟩ := createPicker_spec S D jobId node
    h.valid hh (h.side ▸ h.killers idepth)
  rw [searchMoves, wp_bind, wp_tryModify]
  refine ⟨fun hnone => ?_, fun picker' s₁ hsome => ?_⟩
  · rw [hpicker] at hnone
    cases hnone
  obtain ⟨rfl, rfl⟩ := Prod.mk.inj (Option.some.inj (hpicker.symm.trans hsome))
  rw [wp_bind]
  refine wp_mono (wp_forLoop (fun picker _ _ s' => Leaves root idepth P s s' ∧
    NodeOffers s.board hashMove picker) (nodeTurnsLeft s.board) ?_ pickerTurns (Or.inl hturns)
    ⟨⟨h.refl _, hbest⟩, hoffers⟩) (fun l _ s' h' => ?_) fun _ _ _ h' => h'
  · intro picker l _ s' move picker' hinv hnext
    obtain ⟨⟨hrestored, hbest'⟩, hoffers'⟩ := hinv
    have h' := h.after hrestored
    have hP' : Fair s'.board P := hrestored.board ▸ hP
    rw [← hrestored.board] at hoffers' hh
    obtain ⟨hm, hoffers'', hless⟩ := nextOfPicker_spec S (valid_iff.mp h'.valid).1 hh
      (h'.side ▸ h'.killers idepth) hoffers' hnext
    rw [hrestored.board] at hoffers'' hless
    refine ⟨Or.inl hless, ?_⟩
    exact wp_mono (wp_nodeTurn_leaves hsearch h' hP' hbest' node hmin hmax alpha beta tag flags hm picker' l)
      (fun _ _ _ h'' => ⟨⟨hrestored.trans h''.1, h''.2⟩, hoffers''⟩)
      fun _ _ _ h'' => ⟨hrestored.trans h''.1, h''.2⟩
  · obtain ⟨-, ⟨hleft, -⟩, -⟩ := h'
    rw [wp_ite]
    split
    · rw [wp_bind]
      refine wp_mono (wp_ttStore (hleft.best hP) hmin hmax alpha beta l.alpha) (fun _ _ s'' hs'' => ?_)
        fun _ _ _ h'' => h''
      subst hs''
      exact hleft
    · exact hleft

end Best

section Root

variable [Evaluator] [Globals] {ν : Type} {K : Contract Answer ν} {v : ν} {limit : Int} {root : Color}
variable {s : Searcher} {P : Move → Prop} {search : Recurse} (S : Sorter) (D : Shuffler) (jobId : Nat)

theorem wp_doSearch_root {depth alpha beta : Int} (hmin : 0 < depth) {tag : Evaluator.Tag}
    {flags : Flags} {Q : Int → ν → Searcher → Prop} {R : Int → ν → Searcher → Prop}
    (h : wp K (probe .root depth 0 alpha beta) (fun hashMove => wp K (searchMoves S D jobId search .root
      depth 0 alpha beta tag flags hashMove (isCheck s.board)) Q R) R v (s.setBestMove 0 Move.null)) :
    wp K (doSearch S D jobId search .root depth 0 alpha beta tag flags) Q R v s := by
  have hnever : ∀ c : Prop, ¬(NodeKind.root ≠ .root ∧ c) := fun c hc => hc.1 rfl
  have hleaf : ¬(depth ≤ 0 ∨ 0 + 1 = maxStackDepth) := by
    rw [not_or, not_le]
    exact ⟨hmin, by decide⟩
  rw [doSearch, wp_bind, wp_modify, wp_bind, wp_gets, wp_ite, if_neg (hnever _), wp_ite, if_neg hleaf,
    wp_bind]
  refine wp_mono h (fun hashMove v' s' h' => ?_) fun _ _ _ h' => h'
  rw [wp_bind, prune, wp_ite, if_neg (by simp [NodeKind.isPv])]
  exact h'

theorem wp_searchNode_root {depth alpha beta : Int} {tag : Evaluator.Tag} {flags : Flags}
    (h : Ready root 0 s) {Q : Move → Prop}
    (hnew : s.repetitions.has s.board.hash = false → ∀ s₁, Ready root 0 s₁ → s₁.board = s.board →
      s₁.depth = s.depth → wp K (doSearch S D jobId search .root depth 0 alpha beta tag flags)
        (fun _ _ s' => Q (s'.stack 0).bestMove) (fun _ _ s' => Q (s'.stack 0).bestMove) v s₁)
    (hold : s.repetitions.has s.board.hash = true → Q (s.stack 0).bestMove) :
    wp K (searchNode S D jobId search .root depth 0 alpha beta tag flags)
      (fun _ _ s' => Q (s'.stack 0).bestMove) (fun _ _ s' => Q (s'.stack 0).bestMove) v s := by
  obtain ⟨e, he, hsound⟩ := h.room
  obtain ⟨t, e', hinsert, hsound', he', -⟩ := RepetitionTable.insert_spec hsound he s.board.hash
  have hins : insertHash s = some (!s.repetitions.has s.board.hash, { s with repetitions := t }) := by
    rw [insertHash, hinsert]
    rfl
  rw [searchNode, wp_bind, wp_tryModify]
  refine ⟨fun hnone => ?_, fun isNew s₁ hsome => ?_⟩
  · rw [hins] at hnone
    cases hnone
  obtain ⟨rfl, rfl⟩ := Prod.mk.inj (Option.some.inj (hins.symm.trans hsome))
  rw [wp_ite]
  split
  · rename_i hcond
    have h₁ : Ready root 0 { s with repetitions := t } :=
      ⟨h.valid, h.side, ⟨e', he', hsound'⟩, h.killers⟩
    rw [wp_bind, wp_call]
    exact hnew (by simpa using hcond) _ h₁ rfl rfl
  · rename_i hcond
    exact hold (by simpa using hcond)

theorem wp_run_root {depth : Nat} {Q : Int × Move → ν → Searcher → Prop}
    {R : Int × Move → ν → Searcher → Prop}
    (h : wp K (Job.search S D jobId (maxStackDepth - 1) .root depth 0 (-scoreInf) scoreInf
        (Evaluator.ofBoard s.board) Flags.default)
      (fun score v' s' => Q (score, (s'.stack 0).bestMove) v' s')
      (fun score v' s' => Q (score, (s'.stack 0).bestMove) v' s') v { s with depth := depth }) :
    wp K (run S D jobId depth) Q R v s := by
  rw [run, wp_bind, wp_modify, wp_bind, wp_gets, wp_bind, wp_call]
  exact h

theorem wp_run_repeated (h : Ready root 0 s) (hold : s.repetitions.has s.board.hash = true)
    (depth : Nat) : wp K (run S D jobId depth) (fun out _ _ => out.2 = (s.stack 0).bestMove)
      (fun _ _ _ => False) v s := by
  have h' : Ready root 0 { s with depth := depth } := ⟨h.valid, h.side, h.room, h.killers⟩
  apply wp_run_root
  refine wp_searchNode_root S D jobId (Q := fun m => m = (s.stack 0).bestMove) h' (fun hnew => ?_)
    fun _ => rfl
  have hnew' : s.repetitions.has s.board.hash = false := hnew
  rw [hold] at hnew'
  cases hnew'

/-- The best move that a search returns is legal, if there is one, however the search ends. -/
theorem wp_run_legal (h : Ready root 0 s)
    (hbest : (s.stack 0).bestMove = Move.null ∨ SafeMove s.board (s.stack 0).bestMove) {depth : Nat}
    (hdepth : 1 ≤ depth) : wp (contract depth) (run S D jobId depth)
      (fun out _ s' => Restored root 0 s s' ∧ out.2 = (s'.stack 0).bestMove ∧
        (out.2 = Move.null ∨ SafeMove s.board out.2)) (fun _ _ _ => False) () s := by
  have hfair : Fair s.board fun m => m = Move.null ∨ SafeMove s.board m :=
    ⟨fun _ hm => Or.inr hm, fun _ hm => hm⟩
  have h' : Ready root 0 { s with depth := depth } := ⟨h.valid, h.side, h.room, h.killers⟩
  have htidy : Tidy depth root 0 0 (Job.search S D jobId (maxStackDepth - 1) .root depth 0 (-scoreInf)
      scoreInf (Evaluator.ofBoard s.board) Flags.default) :=
    tidy_search S D jobId (maxStackDepth - 1) (by decide) .root le_rfl _ _ _ _
  have hchild : TidySearch depth root 1 (Job.search S D jobId (maxStackDepth - 2)) :=
    fun node depth' alpha beta tag flags _ hmax =>
      tidy_search S D jobId (maxStackDepth - 2) (by decide) node hmax alpha beta tag flags
  have hmove : wp (contract depth) (Job.search S D jobId (maxStackDepth - 1) .root depth 0 (-scoreInf)
      scoreInf (Evaluator.ofBoard s.board) Flags.default)
      (fun _ _ s' => (s'.stack 0).bestMove = Move.null ∨ SafeMove s.board (s'.stack 0).bestMove)
      (fun _ _ s' => (s'.stack 0).bestMove = Move.null ∨ SafeMove s.board (s'.stack 0).bestMove) ()
      { s with depth := depth } := by
    refine wp_searchNode_root S D jobId (Q := fun m => m = Move.null ∨ SafeMove s.board m) h'
      (fun _ s₁ h₁ hboard _ => ?_) fun _ => hbest
    apply wp_doSearch_root S D jobId (Int.natCast_pos.mpr hdepth)
    have hset := h₁.setBestMove Move.null
    have hready := h₁.after hset
    have hfair₁ : Fair (s₁.setBestMove 0 Move.null).board
        fun m => m = Move.null ∨ SafeMove s.board m := by
      rw [hset.board, hboard]
      exact hfair
    refine wp_mono (wp_probe hready .root depth (-scoreInf) scoreInf) (fun hashMove _ s₂ h₂ => ?_)
      fun _ _ _ hout => absurd rfl hout.1
    obtain ⟨rfl, hh⟩ := h₂
    exact wp_mono (wp_searchMoves_leaves hchild S D jobId hready hfair₁
      (Or.inl (bestMove_setBestMove s₁ 0 Move.null)) .root (Int.natCast_pos.mpr hdepth) le_rfl _ _ _ _ hh _)
      (fun _ _ _ hout => hout.2) fun _ _ _ hout => hout.2
  have hset : Restored root 0 s { s with depth := depth } := (h.refl 0).congr rfl rfl rfl
  apply wp_run_root
  exact wp_mono (wp_and (htidy () _ h') hmove) (fun _ _ _ hout => ⟨hset.trans hout.1, rfl, hout.2⟩)
    fun _ _ _ hout => ⟨hset.trans hout.1, rfl, hout.2⟩

end Root

section Steady

variable [Evaluator] [Globals]

/-- A search that is never told to stop, and only told what can be. -/
def steady (depth : Nat) : Contract Answer Unit where
  guar _ _ := True
  rely v q a v' := (contract depth).rely v q a v' ∧ Windows.contract.erase.rely v q a v' ∧
    Aborts.outcome depth ⟨q, a⟩ ≠ some true
  mayStick := True

variable {depth : Nat} {root : Color} {s s' : Searcher} {ρ α : Type}

omit [Globals] in
/-- The same search is still going on. -/
def Same (depth : Nat) (s s' : Searcher) : Prop :=
  s'.board = s.board ∧ s'.repetitions = s.repetitions ∧ s'.stack = s.stack ∧ s'.depth = depth

theorem wp_mustStop_steady (hs : s.depth = depth) {R : ρ → Unit → Searcher → Prop} :
    wp (steady depth) mustStop (fun stop _ s' => stop = false ∧ Same depth s s') R () s := by
  rw [mustStop]
  simp only [wp_bind, wp_ask, wp_ite, wp_pure, wp_modify, wp_gets]
  refine ⟨trivial, fun stopped _ hstopped => ?_⟩
  obtain ⟨-, -, hgoes⟩ := hstopped
  have hfalse : (stopped : Bool) = false := by
    cases stopped with
    | false => rfl
    | true => exact absurd rfl hgoes
  rw [if_neg (by rw [hfalse]; exact Bool.false_ne_true)]
  split
  · refine ⟨trivial, fun timeout _ htimeout => ⟨?_, rfl, rfl, rfl, hs⟩⟩
    obtain ⟨-, -, hgoes⟩ := htimeout
    cases timeout with
    | false => rfl
    | true => exact absurd rfl hgoes
  · refine ⟨trivial, fun d _ hd => ⟨?_, rfl, rfl, rfl, hs⟩⟩
    obtain ⟨-, -, hgoes⟩ := hd
    rw [hs]
    cases hne : decide ((d : Nat) ≠ depth) with
    | false => rfl
    | true => exact absurd (congrArg some hne) hgoes

theorem wp_returnIfStopped_steady (hs : s.depth = depth) (value : ρ)
    {R : ρ → Unit → Searcher → Prop} :
    wp (steady depth) (returnIfStopped value) (fun _ _ => Same depth s) R () s := by
  rw [returnIfStopped, wp_bind]
  refine wp_mono (wp_mustStop_steady hs) (fun stop _ s' h' => ?_) fun _ _ _ hr => hr
  rw [wp_ite, if_neg (by rw [h'.1]; exact Bool.false_ne_true)]
  exact h'.2

theorem keeping_depth : Protocol.Keeping (steady depth) fun _ s => s.depth = depth where
  mayStick := trivial
  congr hs h := hs.trans h
  plain _ h := ⟨trivial, fun _ _ _ => h⟩
  mustStop h := wp_mono (R := fun _ _ _ => False) (wp_mustStop_steady h) (fun _ _ _ h' => h'.2.2.2.2)
    fun _ _ _ hr => hr.elim

variable (S : Sorter) (D : Shuffler) (jobId : Nat)

theorem wp_child (h : Ready root 1 s) (hs : s.depth = depth) (tag : Evaluator.Tag) (flags : Flags) :
    wp (steady depth) (Job.search S D jobId (maxStackDepth - 2) .pv (depth - 1) 1 (-scoreInf) scoreInf
        tag flags)
      (fun r _ s' => Restored root 1 s s' ∧ s'.depth = depth ∧ Bounded 1 (-scoreInf) scoreInf r)
      (fun r _ s' => Restored root 1 s s' ∧ s'.depth = depth ∧ Bounded 1 (-scoreInf) scoreInf r)
      () s := by
  have hle : (depth : Int) - 1 ≤ depth := by omega
  have htidy := tidy_search S D jobId (maxStackDepth - 2) (by decide) .pv hle (-scoreInf) scoreInf tag
    flags () s h
  have hkeeps := Protocol.idle_search keeping_depth S D jobId (maxStackDepth - 2) .pv (depth - 1) 1
    (-scoreInf) scoreInf tag flags () s hs
  have hok : Windows.SearchOk 1 (NotedJob.notedSearch S D jobId (maxStackDepth - 2)) :=
    Windows.searchOk_notedSearch S D jobId (maxStackDepth - 2) (by decide)
  have hnoted := hok .pv (depth - 1) (-scoreInf) scoreInf tag flags s window_root fun he => by cases he
  have hbounded : wp Windows.contract.erase (NotedJob.eraseSearch (NotedJob.notedSearch S D jobId
      (maxStackDepth - 2)) .pv (depth - 1) 1 (-scoreInf) scoreInf tag flags) _ _ () s :=
    wp_erase Windows.silent_contract hnoted
  rw [NotedJob.erase_search] at hbounded
  have htidy' : wp (steady depth) _ _ _ () s := wp_adapt (fun _ _ _ => trivial)
    (fun _ _ _ _ hr => hr.1) (fun hstick => hstick.elim) htidy
  have hbounded' : wp (steady depth) _ _ _ () s := wp_adapt (fun _ _ _ => trivial)
    (fun _ _ _ _ hr => hr.2.1) (fun _ => trivial) hbounded
  exact wp_mono (wp_and htidy' (wp_and hkeeps hbounded'))
    (fun _ _ _ hout => ⟨hout.1, hout.2.1, hout.2.2.1⟩) fun _ _ _ hout => ⟨hout.1, hout.2.1, hout.2.2.1⟩

/-- The first legal move is searched in full, and its score is better than none. -/
theorem wp_searchMove_first (h : Ready root 0 s) (hs : s.depth = depth) (flags : Flags) {move : Move}
    (hm : SafeMove s.board move) (stage : MovePickerStage) {l : Locals} (halpha : l.alpha = -scoreInf)
    (hfirst : l.hasMove = false) (tag : Evaluator.Tag) {R : Int → Unit → Searcher → Prop} :
    wp (steady depth) (searchMove (Job.search S D jobId (maxStackDepth - 2)) .root depth 0 scoreInf flags
        move stage l tag)
      (fun result _ s' => Restored root 1 (made s move) s' ∧
        ∃ score n, result = .searched score n ∧ -scoreInf < score) R () (made s move) := by
  have hmade := h.made hm.1.playable hm.2
  have hlow : toScore (-scoreInf) = -scoreInf := by decide
  have hhigh : toScore (- -scoreInf) = scoreInf := by decide
  have hpv : (if NodeKind.root.isPv = true then NodeKind.pv else NodeKind.simple) = .pv := rfl
  have hlegal : wasMoveLegal (made s move).board = true := hm.2
  rw [searchMove, wp_bind, wp_gets, wp_ite, if_pos hlegal]
  dsimp only
  -- No move is reduced at the root, and the first one gets no zero window.
  rw [wp_bind, lateMoveReduction, wp_ite, if_neg (by simp), wp_pure, wp_ite, if_neg Bool.false_ne_true,
    wp_bind, pvSearch, wp_ite, if_neg (by rw [hfirst]; decide), fullWindowSearch,
    hpv, halpha, hlow, hhigh, wp_bind, wp_call]
  have hafter : ∀ (r : Int) s', Restored root 1 (made s move) s' ∧ s'.depth = depth ∧
      Bounded 1 (-scoreInf) scoreInf r → wp (steady depth) (do
        returnIfStopped 0
        pure (toScore (-r)) : Part Int Int)
      (fun score _ s' => Restored root 1 (made s move) s' ∧ -scoreInf < score) R () s' := by
    intro r s' hr
    obtain ⟨hrestored, hdepth, hbound⟩ := hr
    rw [bounded_iff] at hbound
    unfold scoreInf at hbound ⊢
    rw [wp_bind]
    refine wp_mono (wp_returnIfStopped_steady hdepth 0) (fun _ _ s'' hsame => ?_) fun _ _ _ hr => hr
    refine ⟨hrestored.congr hsame.1 hsame.2.1 hsame.2.2.1, ?_⟩
    rw [toScore_eq] <;> omega
  refine wp_mono (wp_child S D jobId hmade hs tag _) (fun r _ s' hr => ?_) fun r _ s' hr => ?_
  · exact wp_mono (hafter r s' hr) (fun _ _ _ hout => ⟨hout.1, _, _, rfl, hout.2⟩) fun _ _ _ hr => hr
  · exact wp_mono (hafter r s' hr) (fun _ _ _ hout => ⟨hout.1, _, _, rfl, hout.2⟩) fun _ _ _ hr => hr

theorem wp_steady {m : Part ρ α} {Q : α → Unit → Searcher → Prop} {R : ρ → Unit → Searcher → Prop}
    (h : wp (contract depth) m Q R () s) : wp (steady depth) m Q R () s :=
  wp_adapt (fun _ _ _ => trivial) (fun _ _ _ _ hr => hr.1) (fun hstick => hstick.elim) h

/-- After the first legal move there is a best move. -/
theorem wp_nodeTurn_first (h : Ready root 0 s) (hs : s.depth = depth) (hbest : BestLegal 0 s)
    (hdepth : 1 ≤ depth) (tag : Evaluator.Tag) (flags : Flags) {move : Move}
    (hm : SafeMove s.board move) (picker : NodePicker) {l : Locals} (halpha : l.alpha = -scoreInf)
    (hfirst : l.hasMove = false) :
    wp (steady depth) (nodeTurn (Job.search S D jobId (maxStackDepth - 2)) .root depth 0 (-scoreInf)
        scoreInf tag flags move picker l)
      (fun _ _ s' => Leaves root 0 (SafeMove s.board) s s')
      (fun _ _ s' => Leaves root 0 (SafeMove s.board) s s') () s := by
  have hnull : move ≠ Move.null := by
    rintro rfl
    exact Bool.false_ne_true hm.1.2
  rw [nodeTurn, wp_ite, if_neg hnull, wp_bind, withMove]
  simp only [wp_bind, wp_gets, wp_guarded]
  refine wp_mono (wp_searchMove_first S D jobId h hs flags hm picker.stage halpha hfirst _)
    (fun result _ s' hout => ?_) fun _ _ _ hout => hout
  obtain ⟨hrestored, score, n, rfl, hscore⟩ := hout
  have hback := hrestored.unmake h hm.1.playable
  have hbest' : BestLegal 0 { s' with board := moveUnmake s'.board move (moveMake s.board move).2 } :=
    hbest.after hback
  have hmove' : SafeMove (moveUnmake s'.board move (moveMake s.board move).2) move := by
    have hboard : moveUnmake s'.board move (moveMake s.board move).2 = s.board := hback.board
    rw [hboard]
    exact hm
  have hready := h.after hback
  have htake : wp (contract depth) (takeScore .root depth 0 (-scoreInf) scoreInf move picker.stage l
      score n) _ _ () _ :=
    wp_takeScore_leaves hready ⟨fun _ hm => Or.inr hm, fun _ hm => hm⟩ hbest' .root
      (Int.natCast_pos.mpr hdepth) le_rfl (-scoreInf) scoreInf hmove' picker.stage l score n
  have hout : ∀ s'', Leaves root 0 (fun m => m = Move.null ∨
      SafeMove (moveUnmake s'.board move (moveMake s.board move).2) m)
        { s' with board := moveUnmake s'.board move (moveMake s.board move).2 } s'' ∧
        (l.alpha < score → (s''.stack 0).bestMove = move) → Leaves root 0 (SafeMove s.board) s s'' := by
    intro s'' h''
    refine ⟨(hback.mono (Nat.zero_le 1)).trans h''.1.1, ?_⟩
    rw [h''.2 (halpha ▸ hscore)]
    exact hm
  exact wp_mono (wp_steady htake) (fun _ _ s'' h'' => hout s'' h'') fun _ _ s'' h'' => hout s'' h''

variable {ν : Type} {K : Contract Answer ν} {v : ν} {idepth : Nat}

theorem wp_nodeTurn_skip (h : Ready root idepth s) {move : Move} (hm : PseudoMove s.board move)
    (hillegal : ¬SafeMove s.board move) (search : Recurse) (node : NodeKind) (searchDepth alpha beta : Int)
    (tag : Evaluator.Tag) (flags : Flags) (picker : NodePicker) {l : Locals}
    {Q : Locals → ν → Searcher → Prop} {R : Int → ν → Searcher → Prop} (hQ : Q l v s) :
    wp K (nodeTurn search node searchDepth idepth alpha beta tag flags move picker l) Q R v s := by
  have hunmake : moveUnmake (moveMake s.board move).1 move (moveMake s.board move).2 = s.board :=
    moveUnmake_playable h.valid hm.playable
  have hillegal' : ¬wasMoveLegal (moveMake s.board move).1 = true := fun hl => hillegal ⟨hm, hl⟩
  rw [nodeTurn, wp_ite]
  split
  · exact hQ
  rw [wp_bind, withMove]
  simp only [wp_bind, wp_gets, wp_guarded, searchMove, if_neg hillegal', wp_pure, hunmake]
  exact hQ

omit [Evaluator] in
/-- The legal moves are among those that the picker of the root knows. -/
theorem exists_legal_picked (h : Ready root idepth s) {hash : Move}
    (hh : hash = Move.null ∨ PseudoMove s.board hash) (hmove : ∃ m, SafeMove s.board m) :
    ∃ p : RootNodeMovePicker, createPicker S D jobId .root idepth hash s = some (.root p, s) ∧
      (∀ m ∈ p.moves, PseudoMove s.board m) ∧ ∃ m ∈ p.moves, SafeMove s.board m := by
  obtain ⟨hreg, hlegal⟩ := valid_iff.mp h.valid
  have hkillers : Built s.board.side (s.stack idepth).killers := h.side ▸ h.killers idepth
  obtain ⟨m, hm⟩ := hmove
  have hm' : SafeMove s.board (untag m) := hm
  have hgen : untag m ∈ (mkMoveGen s.board).genAllMoves := by
    obtain ⟨-, hout, hin⟩ := isMoveValid_iff_generated h.valid
    cases hcheck : isCheck s.board with
    | false => exact (hout hcheck _).mpr ⟨rfl, hm'.1⟩
    | true =>
      refine by_contra fun hnot => ?_
      have hfalse := hin hcheck _ rfl hm'.1.1 hm'.1.2 hnot
      rw [isMoveLegal_eq hreg hlegal hm'.1.playable, hm'.2] at hfalse
      cases hfalse
  have hnull : untag m ≠ Move.null := by
    intro he
    have hvalid := hm'.1.2
    rw [he] at hvalid
    exact Bool.false_ne_true hvalid
  have hperm := arrange_perm D jobId ((pending S s.board hash (s.stack idepth).killers s.history
    (MovePicker.create s.board hash)).filter fun m => decide (m ≠ Move.null))
  refine ⟨_, ?_, fun m hm => ?_, untag m, hperm.mem_iff.mpr ?_, hm'⟩
  · rw [createPicker, if_pos rfl, create_root hreg hh hkillers D jobId]
    rfl
  · obtain ⟨hmem, hne⟩ := List.mem_filter.mp (hperm.mem_iff.mp hm)
    exact playable_pending hreg hh hkillers hmem (of_decide_eq_true hne)
  · rw [List.mem_filter, decide_eq_true_eq]
    exact ⟨(mem_pending_create hreg hnull).mpr (exists_supplies hgen hreg), hnull⟩

omit [Evaluator] in
theorem nextOfPicker_root {b : Board} {first : Move} (hm : PseudoMove b first) (moves : List Move)
    (s : Searcher) : nextOfPicker S idepth s (.root ⟨first :: moves⟩) = some (first, .root ⟨moves⟩) :=
  if_neg (isWellFormed_ne_invalid hm.1)

/-- Before the first legal move nothing has happened yet; after it there is a best move. -/
def Turning (depth : Nat) (root : Color) (s : Searcher) (picker : NodePicker) (l : Locals)
    (s' : Searcher) : Prop :=
  Leaves root 0 (SafeMove s.board) s s' ∨
    Restored root 0 s s' ∧ BestLegal 0 s' ∧ s'.depth = depth ∧ l.alpha = -scoreInf ∧ l.hasMove = false ∧
      ∃ p, picker = .root p ∧ ∃ m ∈ p.moves, SafeMove s.board m

theorem wp_searchMoves_steady (h : Ready root 0 s) (hs : s.depth = depth) (hbest : BestLegal 0 s)
    (hdepth : 1 ≤ depth) (tag : Evaluator.Tag) (flags : Flags) {hash : Move}
    (hh : hash = Move.null ∨ PseudoMove s.board hash) (hmove : ∃ m, SafeMove s.board m)
    (isInCheck : Bool) :
    wp (steady depth) (searchMoves S D jobId (Job.search S D jobId (maxStackDepth - 2)) .root depth 0
        (-scoreInf) scoreInf tag flags hash isInCheck)
      (fun _ _ s' => SafeMove s.board (s'.stack 0).bestMove)
      (fun _ _ s' => SafeMove s.board (s'.stack 0).bestMove) () s := by
  have hfair : Fair s.board (SafeMove s.board) := ⟨fun _ hm => hm, fun _ hm => Or.inr hm⟩
  have hmin : (0 : Int) < depth := Int.natCast_pos.mpr hdepth
  have hchild : TidySearch depth root 1 (Job.search S D jobId (maxStackDepth - 2)) :=
    fun node depth' alpha beta tag flags _ hmax =>
      tidy_search S D jobId (maxStackDepth - 2) (by decide) node hmax alpha beta tag flags
  obtain ⟨p, hcreate, hoffers, hlegal⟩ := exists_legal_picked S D jobId h hh hmove
  rw [searchMoves, wp_bind, wp_tryModify]
  refine ⟨fun _ => trivial, fun picker s₁ hsome => ?_⟩
  obtain ⟨rfl, rfl⟩ := Prod.mk.inj (Option.some.inj (hcreate.symm.trans hsome))
  rw [wp_bind]
  refine wp_mono (wp_forLoop (fun picker l _ s' => NodeOffers s.board hash picker ∧
    Turning depth root s picker l s') (fun _ => 0) ?_ pickerTurns (Or.inr trivial)
    ⟨hoffers, Or.inr ⟨h.refl 0, hbest, hs, rfl, rfl, p, rfl, hlegal⟩⟩) (fun l _ s' hinv => ?_)
    fun _ _ _ hout => hout
  · intro picker l _ s' move picker' hinv hnext
    obtain ⟨hoffers, hturning⟩ := hinv
    refine ⟨Or.inr trivial, ?_⟩
    have hrestored : Restored root 0 s s' := hturning.elim (fun hl => hl.1) fun hr => hr.1
    have h' := h.after hrestored
    obtain ⟨hm, hoffers', -⟩ := nextOfPicker_spec S (valid_iff.mp h'.valid).1
      (hrestored.board.symm ▸ hh) (h'.side ▸ h'.killers 0) (hrestored.board.symm ▸ hoffers) hnext
    rw [hrestored.board] at hoffers'
    obtain hchosen | ⟨-, hbest', hs', halpha, hfirst, p, rfl, m, hmem, hlegal⟩ := hturning
    · have hfair' : Fair s'.board (SafeMove s.board) := hrestored.board.symm ▸ hfair
      exact wp_mono (wp_steady (wp_nodeTurn_leaves hchild h' hfair' hchosen.2 .root hmin le_rfl _ _ tag
        flags hm picker' l)) (fun _ _ _ hout => ⟨hoffers', Or.inl ⟨hrestored.trans hout.1, hout.2⟩⟩)
        fun _ _ _ hout => hout.2
    · obtain ⟨moves⟩ := p
      cases moves with
      | nil => exact absurd hmem List.not_mem_nil
      | cons first moves =>
        have hpseudo : PseudoMove s.board first := hoffers first List.mem_cons_self
        rw [nextOfPicker_root S hpseudo] at hnext
        obtain ⟨rfl, rfl⟩ := Prod.mk.inj (Option.some.inj hnext)
        by_cases hlegal' : SafeMove s'.board first
        · refine wp_mono (wp_nodeTurn_first S D jobId h' hs' hbest' hdepth tag flags hlegal' _ halpha
            hfirst) (fun _ _ _ hout => ⟨hoffers', Or.inl ⟨hrestored.trans hout.1, ?_⟩⟩)
            fun _ _ _ hout => ?_
          · exact hrestored.board ▸ hout.2
          · exact hrestored.board ▸ hout.2
        · refine wp_nodeTurn_skip h' (hrestored.board.symm ▸ hpseudo) hlegal' _ _ _ _ _ tag flags _
            ⟨hoffers', Or.inr ⟨hrestored, hbest', hs', halpha, hfirst, _, rfl, m, ?_, hlegal⟩⟩
          refine (List.mem_cons.mp hmem).resolve_left fun he => hlegal' ?_
          rw [hrestored.board, ← he]
          exact hlegal
  · obtain ⟨picker', ⟨hoffers, hturning⟩, hnone⟩ := hinv
    obtain hchosen | ⟨-, -, -, -, -, p, rfl, m, hmem, -⟩ := hturning
    · rw [wp_ite]
      split
      · rw [wp_bind]
        refine wp_mono (wp_steady (wp_ttStore (hchosen.best hfair) hmin le_rfl _ _ l.alpha))
          (fun _ _ s'' hs'' => ?_) fun _ _ _ hout => hout
        subst hs''
        exact hchosen.2
      · exact hchosen.2
    · obtain ⟨moves⟩ := p
      cases moves with
      | nil => exact absurd hmem List.not_mem_nil
      | cons first moves =>
        rw [nextOfPicker_root S (hoffers first List.mem_cons_self)] at hnone
        cases hnone

/-- A search that is not told to stop finds a legal move, unless the position counts as repeated;
then it leaves the best move as it was. -/
theorem wp_run_steady (h : Ready root 0 s) (hdepth : 1 ≤ depth) (hmove : ∃ m, SafeMove s.board m) :
    wp (steady depth) (run S D jobId depth)
      (fun out _ _ => (s.repetitions.has s.board.hash = false → SafeMove s.board out.2) ∧
        (s.repetitions.has s.board.hash = true → out.2 = (s.stack 0).bestMove)) (fun _ _ _ => False) () s := by
  have h' : Ready root 0 { s with depth := depth } := ⟨h.valid, h.side, h.room, h.killers⟩
  apply wp_run_root
  refine wp_searchNode_root S D jobId (Q := fun m => (s.repetitions.has s.board.hash = false →
    SafeMove s.board m) ∧ (s.repetitions.has s.board.hash = true → m = (s.stack 0).bestMove)) h'
    (fun hnew s₁ h₁ hboard hs₁ => ?_) fun hold => ⟨fun hnew => ?_, fun _ => rfl⟩
  · have hnew' : s.repetitions.has s.board.hash = false := hnew
    apply wp_doSearch_root S D jobId (Int.natCast_pos.mpr hdepth)
    have hset := h₁.setBestMove Move.null
    have hready := h₁.after hset
    have hboard' : (s₁.setBestMove 0 Move.null).board = s.board := hset.board.trans hboard
    refine wp_mono (wp_steady (wp_probe hready .root depth (-scoreInf) scoreInf))
      (fun hashMove _ s₂ h₂ => ?_) fun _ _ _ hout => absurd rfl hout.1
    obtain ⟨rfl, hh⟩ := h₂
    refine wp_mono (wp_searchMoves_steady S D jobId hready hs₁ (Or.inl (bestMove_setBestMove s₁ 0 Move.null))
      hdepth _ _ hh (hboard'.symm ▸ hmove) _) (fun _ _ s' hout => ⟨fun _ => ?_, fun hold => ?_⟩)
      fun _ _ s' hout => ⟨fun _ => ?_, fun hold => ?_⟩
    · exact hboard' ▸ hout
    · rw [hnew'] at hold
      cases hold
    · exact hboard' ▸ hout
    · rw [hnew'] at hold
      cases hold
  · have hold' : s.repetitions.has s.board.hash = true := hold
    rw [hnew] at hold'
    cases hold'

end Steady

end SoFCheck.Search.RootMove
