import SoFCheck.Search.Aborts
import SoFCheck.Search.Discipline

namespace SoFCheck.Search.Recursion

open SoFCheck.Util.Imperative SoFCheck.Util.Imperative.Program
open SoFCheck.Core.Types SoFCheck.Core.BoardState SoFCheck.Core.Moves SoFCheck.Core.Attack
open SoFCheck.Core.Validate SoFCheck.Core.CellSum SoFCheck.Core.InitialPosition SoFCheck.Eval.Score
open SoFCheck.Search.Tables SoFCheck.Search.Pickers SoFCheck.Search.Enumeration
open SoFCheck.Search.TableData SoFCheck.Search.Job SoFCheck.Search.Discipline
open SoFCheck.Search.Aborts (plainEvaluator keepingShuffler)

section Conversations

variable [Evaluator] [Globals]

/-- The table only has moves that can be made on the boards they are loaded for. -/
def Honest (l : List (Sigma Answer)) : Prop :=
  ∀ b data, (⟨.load b, data⟩ : Sigma Answer) ∈ l → Fits b data

/-- The same of the answers to come. -/
def HonestTable (env : List (Sigma Answer) → (q : Question) → Answer q) : Prop :=
  ∀ l b, Fits b (env l (.load b))

variable {limit : Int} {l : List (Sigma Answer)}

theorem path_of_honest (h : Honest l) : (contract limit).Path () l () := by
  induction l with
  | nil => exact .nil ()
  | cons e l ih =>
    obtain ⟨q, a⟩ := e
    refine .cons ?_ (ih fun b data hmem => h b data (List.mem_cons_of_mem _ hmem))
    cases q with
    | load b => exact h b a List.mem_cons_self
    | _ => trivial

variable {ρ α : Type} {m : Part ρ α} {Q : α → Searcher → Prop} {R : ρ → Searcher → Prop}
variable {s s' : Searcher}

theorem ends_with (h : wp (contract limit) m (fun a _ => Q a) (fun r _ => R r) () s) {out : Except ρ α}
    (hl : Runs m s l out s') (hhonest : Honest l) :
    match out with
    | .ok a => Q a s'
    | .error r => R r s' := by
  have hend := (path_of_honest hhonest).keeps hl h
  cases out with
  | ok a => exact hend
  | error r => exact hend

theorem not_stuck (h : wp (contract limit) m (fun a _ => Q a) (fun r _ => R r) () s)
    {t : Dialogue Answer (Except ρ α × Searcher)} (hl : (m s).Leads l t) (hhonest : Honest l) :
    t ≠ .stuck := by
  rintro rfl
  exact (path_of_honest hhonest).keeps hl h

theorem exists_runs (h : wp (contract limit) m (fun a _ => Q a) (fun r _ => R r) () s)
    {env : List (Sigma Answer) → (q : Question) → Answer q} (henv : HonestTable env) :
    ∃ l out s', Runs m s l out s' ∧ ∀ l₁ q a l₂, l = l₁ ++ ⟨q, a⟩ :: l₂ → a = env l₁ q := by
  obtain ⟨l, t, hl, hanswers, hend⟩ := Dialogue.exists_end (m s) env
  have hhonest : Honest l := by
    intro b data hmem
    obtain ⟨l₁, l₂, he⟩ := List.append_of_mem hmem
    rw [hanswers l₁ _ data l₂ he]
    exact henv l₁ b
  cases hend with
  | inl hstuck => exact absurd hstuck (not_stuck h hl hhonest)
  | inr hdone =>
    obtain ⟨⟨out, s'⟩, rfl⟩ := hdone
    exact ⟨l, out, s', hl, hanswers⟩

end Conversations

section Restoring

variable [Evaluator] [Globals] (S : Sorter) (D : Shuffler) (jobId : Nat)
variable {root : Color} {idepth left : Nat} {s : Searcher}

/-- The search that a node uses for its children. -/
def childSearch : (left : Nat) → Recurse
  | 0 => fun _ _ _ _ _ _ _ => stuck
  | left + 1 => search S D jobId left

/-- The board and the keys of the repetition table are what they were. -/
def Unchanged (s s' : Searcher) : Prop :=
  s'.board = s.board ∧ ∀ x, x ≠ 0 → (s'.repetitions.Holds x ↔ s.repetitions.Holds x)

/-- A part of the search restores its state, whatever it is told. -/
def Restores (m : Part Int Int) (s : Searcher) : Prop :=
  ∀ l out s', Runs m s l out s' → Honest l → Unchanged s s'

theorem restores_of_tidy {m : Part Int Int} {limit : Int} {n : Nat}
    (hm : Tidy limit root idepth n m) (h : Ready root idepth s) : Restores m s := by
  intro l out s' hruns hhonest
  have hend := ends_with (Q := fun _ => Restored root n s) (R := fun _ => Restored root n s) (hm () s h)
    hruns hhonest
  have hrestored : Restored root n s s' := by
    cases out with
    | ok a => exact hend
    | error r => exact hend
  exact ⟨hrestored.board, hrestored.keys⟩

/-- The search leaves the board and the repetition table as they were, on whatever way
it returns. -/
theorem search_restores (h : Ready root idepth s) (hleft : idepth + left + 1 = maxStackDepth) :
    (∀ node depth alpha beta tag flags,
      Restores (search S D jobId left node depth idepth alpha beta tag flags) s) ∧
    (∀ node depth alpha beta tag flags,
      Restores (doSearch S D jobId (childSearch S D jobId left) node depth idepth alpha beta tag flags)
        s) ∧
    ∀ alpha beta tag, Restores (quiescenseSearch S quiescenseLevels alpha beta tag) s := by
  refine ⟨fun node depth alpha beta tag flags => ?_, fun node depth alpha beta tag flags => ?_,
    fun alpha beta tag => ?_⟩
  · exact restores_of_tidy (tidy_search S D jobId left hleft node le_rfl alpha beta tag flags) h
  · refine restores_of_tidy (tidy_doSearch S D jobId (fun hne => ?_) node le_rfl alpha beta tag flags) h
    cases left with
    | zero => exact absurd hleft hne
    | succ left =>
      intro node' depth' alpha' beta' tag' flags' _ hmax
      exact tidy_search S D jobId left (by omega) node' hmax alpha' beta' tag' flags'
  · have htidy : Tidy 0 root idepth idepth (quiescenseSearch S quiescenseLevels alpha beta tag) :=
      tidy_quiescense S alpha beta tag
    exact restores_of_tidy htidy h

omit [Evaluator] in
theorem ready_create {b : Board} (hb : Valid b) {t : RepetitionTable} (ht : ∃ e ≤ 62, t.Sound e) :
    Ready b.side 0 (Searcher.create b t) :=
  ⟨hb, rfl, ht, fun _ => Built.empty⟩

omit [Evaluator] [Globals] in
theorem search_restores_initial : letI := spreadGlobals; letI := plainEvaluator
    let s := Searcher.create initialPosition RepetitionTable.empty
    (∀ node depth alpha beta tag flags,
      Restores (search Sorter.inserting keepingShuffler 0 264 node depth 0 alpha beta tag flags) s) ∧
    (∀ node depth alpha beta tag flags,
      Restores (doSearch Sorter.inserting keepingShuffler 0
        (childSearch Sorter.inserting keepingShuffler 0 264) node depth 0 alpha beta tag flags) s) ∧
    ∀ alpha beta tag, Restores (quiescenseSearch Sorter.inserting quiescenseLevels alpha beta tag) s :=
  letI := spreadGlobals
  letI := plainEvaluator
  search_restores Sorter.inserting keepingShuffler 0
    (ready_create valid_initialPosition ⟨5, by decide, RepetitionTable.Sound.empty⟩) (by decide)

end Restoring

section Asserting

variable [Evaluator] [Globals] (S : Sorter) (D : Shuffler) (jobId : Nat)

/-- `ttStore` that gets stuck when `Data::depth` does not return the depth that is stored. -/
def assertedTtStore (origAlpha origBeta depth : Int) (idepth : Nat) (score : Int) : Part Int Unit := do
  let out := boundedScore origAlpha origBeta score
  let bestMove ← gets fun s => (s.stack idepth).bestMove
  if bestMove ≠ Move.null then
    let board ← gets Searcher.board
    let data := Data.of bestMove (adjustCheckmate out.2 (-idepth)) depth out.1
    if 1 ≤ depth ∧ depth ≤ 255 ∧ data.depth = depth then query (.store board data) else stuck
  else pure ()

def assertedTakeScore (node : NodeKind) (depth : Int) (idepth : Nat) (origAlpha beta : Int)
    (move : Move) (stage : MovePickerStage) (l : Locals) (score : Int) (numHistoryMoves : Nat) :
    Part Int Locals := do
  query .useScore
  modify fun s => if score > l.alpha then s.setBestMove idepth move else s
  let alpha := if score > l.alpha then score else l.alpha
  if alpha ≥ beta then
    modify fun s =>
      if node ≠ .root ∧ stage.toNat ≥ MovePickerStage.killer.toNat then s.addKiller idepth move depth
      else s
    assertedTtStore origAlpha beta depth idepth beta
    earlyReturn beta
  else pure ⟨alpha, true, numHistoryMoves⟩

def assertedNodeTurn (search : Recurse) (node : NodeKind) (depth : Int) (idepth : Nat)
    (origAlpha beta : Int) (tag : Evaluator.Tag) (flags : Flags) (move : Move) (picker : NodePicker)
    (l : Locals) : Part Int Locals := do
  if move = Move.null then pure l
  else
    let result ← withMove move tag
      (searchMove search node depth idepth beta flags move picker.stage l)
    match result with
    | .illegal => pure l
    | .reduced numHistoryMoves => pure { l with hasMove := true, numHistoryMoves := numHistoryMoves }
    | .searched score numHistoryMoves =>
      assertedTakeScore node depth idepth origAlpha beta move picker.stage l score numHistoryMoves

def assertedSearchMoves (search : Recurse) (node : NodeKind) (depth : Int) (idepth : Nat)
    (alpha beta : Int) (tag : Evaluator.Tag) (flags : Flags) (hashMove : Move) (isInCheck : Bool) :
    Part Int Int := do
  let picker ← tryModify (createPicker S D jobId node idepth hashMove)
  let l ← forLoop (nextOfPicker S idepth)
    (assertedNodeTurn search node depth idepth alpha beta tag flags) pickerTurns picker ⟨alpha, false, 0⟩
  if l.hasMove then
    assertedTtStore alpha beta depth idepth l.alpha
    pure l.alpha
  else pure (if isInCheck then scoreCheckmateLose idepth else 0)

/-- `doSearch` that gets stuck when it leaves the stack, when no depth is left for the end of the
search, or when an entry does not hold its depth. -/
def assertedDoSearch (search : Recurse) (node : NodeKind) (depth : Int) (idepth : Nat)
    (alpha beta : Int) (tag : Evaluator.Tag) (flags : Flags) : Part Int Int :=
  if maxStackDepth ≤ idepth then stuck
  else do
    modify fun s => s.setBestMove idepth Move.null
    let board ← gets Searcher.board
    if node ≠ .root ∧ (board.moveCounter ≥ 100 ∨ isBoardDrawInsufficientMaterial board = true) then
      pure 0
    else if depth ≤ 0 ∨ idepth + 1 = maxStackDepth then leafSearch S alpha beta tag
    else
      let hashMove ← probe node depth idepth alpha beta
      let isInCheck := isCheck board
      let (depth, flags) ← prune S search node depth idepth alpha beta tag flags isInCheck
      if depth ≤ 0 then stuck
      else assertedSearchMoves S D jobId search node depth idepth alpha beta tag flags hashMove isInCheck

/-- `search` in which the functions call one another `levels` times at most. -/
def assertedSearch : (levels : Nat) → Recurse
  | 0, _, _, _, _, _, _, _ => stuck
  | levels + 1, node, depth, idepth, alpha, beta, tag, flags => do
    let isNew ← tryModify insertHash
    if isNew then
      let score ← call (assertedDoSearch S D jobId (assertedSearch levels) node depth idepth alpha beta
        tag flags)
      modify fun s => { s with repetitions := s.repetitions.erase s.board.hash }
      pure score
    else pure 0

def assertedRun (levels depth : Nat) : Part (Int × Move) (Int × Move) := do
  modify fun s => { s with depth := depth }
  let board ← gets Searcher.board
  let score ← call (assertedSearch S D jobId levels .root depth 0 (-scoreInf) scoreInf
    (Evaluator.ofBoard board) Flags.default)
  let bestMove ← gets fun s => (s.stack 0).bestMove
  pure (score, bestMove)

variable {search search' : Recurse} {idepth : Nat}

/-- Two searches that are the same on the children of a node, at the depths that there are. -/
def SameBelow (limit : Int) (search search' : Recurse) (idepth : Nat) : Prop :=
  ∀ node depth, depth ≤ limit → ∀ alpha beta tag flags,
    search node depth (idepth + 1) alpha beta tag flags =
      search' node depth (idepth + 1) alpha beta tag flags

theorem prune_congr {depth : Int} (h : SameBelow depth search search' idepth) (node : NodeKind)
    (alpha beta : Int) (tag : Evaluator.Tag) (flags : Flags) (isInCheck : Bool) :
    prune S search node depth idepth alpha beta tag flags isInCheck =
      prune S search' node depth idepth alpha beta tag flags isInCheck := by
  have hle : depth - NullMove.depthDec ≤ depth := by
    rw [NullMove.depthDec]
    omega
  have hnull : searchNullMove search depth idepth beta flags =
      searchNullMove search' depth idepth beta flags := by
    funext tag
    rw [searchNullMove, searchNullMove, h _ _ hle]
  rw [prune, prune, nullMoveReduction, nullMoveReduction, hnull]

theorem searchMove_congr {depth : Int} (h : SameBelow depth search search' idepth) (node : NodeKind) :
    searchMove search node depth idepth = searchMove search' node depth idepth := by
  have hone : depth - 1 ≤ depth := by omega
  have hreduced : depth - 1 - LateMove.reduceDepth ≤ depth := by
    rw [LateMove.reduceDepth]
    omega
  funext beta flags move stage l tag
  simp only [searchMove, lateMoveReduction, pvSearch, zeroWindowSearch, fullWindowSearch,
    h _ _ hone, h _ _ hreduced]

omit [Evaluator] [Globals] in
theorem depth_of {depth : Int} (hmin : 0 ≤ depth) (hmax : depth ≤ 255) (move : Move) (score : Int)
    (bound : PositionCostBound) : (Data.of move score depth bound).depth = depth := by
  simp only [Data.of, Data.depth, BitVec.toNat_ofInt]
  omega

omit [Globals] in
theorem assertedTtStore_eq {depth : Int} (hmin : 0 < depth) (hmax : depth ≤ 255)
    (origAlpha origBeta score : Int) :
    assertedTtStore origAlpha origBeta depth idepth score =
      ttStore origAlpha origBeta depth idepth score := by
  have hdepth : ∀ move score bound, 1 ≤ depth ∧ depth ≤ 255 ∧
      (Data.of move score depth bound).depth = depth := fun move score bound =>
    ⟨hmin, hmax, depth_of hmin.le hmax move score bound⟩
  simp only [assertedTtStore, ttStore, if_pos (hdepth _ _ _)]

theorem assertedSearchMoves_eq {depth : Int} (hmin : 0 < depth) (hmax : depth ≤ 255)
    (h : SameBelow depth search search' idepth) (node : NodeKind) (alpha beta : Int)
    (tag : Evaluator.Tag) (flags : Flags) (hashMove : Move) (isInCheck : Bool) :
    assertedSearchMoves S D jobId search node depth idepth alpha beta tag flags hashMove isInCheck =
      searchMoves S D jobId search' node depth idepth alpha beta tag flags hashMove isInCheck := by
  have htake : assertedTakeScore node depth idepth = takeScore node depth idepth := by
    funext origAlpha beta move stage l score numHistoryMoves
    rw [assertedTakeScore, takeScore, assertedTtStore_eq hmin hmax]
  have hturn : assertedNodeTurn search node depth idepth = nodeTurn search' node depth idepth := by
    funext origAlpha beta tag flags move picker l
    rw [assertedNodeTurn, searchMove_congr h, htake]
    rfl
  simp only [assertedSearchMoves, searchMoves, hturn, assertedTtStore_eq hmin hmax]

theorem prune_depth (node : NodeKind) {depth : Int} (hdepth : 0 < depth) (alpha beta : Int)
    (tag : Evaluator.Tag) (flags : Flags) (isInCheck : Bool) (s : Searcher) :
    wp Contract.free (prune S search node depth idepth alpha beta tag flags isInCheck)
      (fun out _ _ => 0 < out.1 ∧ out.1 ≤ depth) (fun _ _ _ => True) () s := by
  rw [prune, wp_ite]
  split
  · rw [wp_bind]
    refine wp_mono (wp_free _ s) (fun evalScore _ s₁ _ => ?_) fun _ _ _ h => h
    rw [wp_bind]
    refine wp_mono (wp_free _ s₁) (fun _ _ s₂ _ => ?_) fun _ _ _ h => h
    rw [wp_ite]
    split
    · rename_i hnull
      have hmin := hnull.1
      rw [NullMove.minDepth] at hmin
      rw [nullMoveReduction, wp_bind]
      refine wp_mono (wp_free _ s₂) (fun score _ s₃ _ => ?_) fun _ _ _ h => h
      rw [wp_ite]
      split
      · show 0 < depth - NullMove.reductionDec ∧ depth - NullMove.reductionDec ≤ depth
        rw [NullMove.reductionDec]
        omega
      · exact ⟨hdepth, le_rfl⟩
    · exact ⟨hdepth, le_rfl⟩
  · exact ⟨hdepth, le_rfl⟩

theorem assertedDoSearch_eq (hidepth : idepth < maxStackDepth) {depth : Int} (hmax : depth ≤ 255)
    (h : idepth + 1 ≠ maxStackDepth → SameBelow depth search search' idepth) (node : NodeKind)
    (alpha beta : Int) (tag : Evaluator.Tag) (flags : Flags) :
    assertedDoSearch S D jobId search node depth idepth alpha beta tag flags =
      doSearch S D jobId search' node depth idepth alpha beta tag flags := by
  rw [assertedDoSearch, if_neg (not_le.mpr hidepth), doSearch]
  refine congrArg _ (funext fun _ => congrArg _ (funext fun board => ?_))
  refine if_congr Iff.rfl rfl ?_
  by_cases hleaf : depth ≤ 0 ∨ idepth + 1 = maxStackDepth
  · rw [if_pos hleaf, if_pos hleaf]
  rw [if_neg hleaf, if_neg hleaf]
  rw [not_or, not_le] at hleaf
  have hbelow := h hleaf.2
  refine congrArg _ (funext fun hashMove => ?_)
  dsimp only
  rw [prune_congr S hbelow]
  refine bind_congr (prune_depth S node hleaf.1 alpha beta tag flags _) fun out hout => ?_
  have hless : SameBelow out.1 search search' idepth := fun node' depth' hle =>
    hbelow node' depth' (hle.trans hout.2)
  rw [if_neg (not_le.mpr hout.1), assertedSearchMoves_eq S D jobId hout.1 (hout.2.trans hmax) hless]

theorem assertedSearch_eq (left : Nat) {levels : Nat} (hleft : idepth + left + 1 = maxStackDepth)
    (hlevels : left < levels) (node : NodeKind) {depth : Int} (hmax : depth ≤ 255) (alpha beta : Int)
    (tag : Evaluator.Tag) (flags : Flags) :
    assertedSearch S D jobId levels node depth idepth alpha beta tag flags =
      Job.search S D jobId left node depth idepth alpha beta tag flags := by
  induction left generalizing levels idepth node depth alpha beta tag flags with
  | zero =>
    obtain ⟨levels, rfl⟩ := Nat.exists_eq_add_one_of_ne_zero (Nat.ne_of_gt hlevels)
    rw [assertedSearch, Job.search, searchNode, assertedDoSearch_eq S D jobId (by omega) hmax
      fun hne => absurd hleft hne]
  | succ left ih =>
    obtain ⟨levels, rfl⟩ := Nat.exists_eq_add_one_of_ne_zero (Nat.ne_of_gt (Nat.zero_lt_of_lt hlevels))
    rw [assertedSearch, Job.search, searchNode, assertedDoSearch_eq S D jobId (by omega) hmax
      fun _ => ?_]
    intro node depth' hle alpha beta tag flags
    exact ih (by omega) (by omega) node (hle.trans hmax) alpha beta tag flags

theorem assertedRun_eq {levels : Nat} (hlevels : maxStackDepth ≤ levels) {depth : Nat}
    (hdepth : depth ≤ maxDepth) : assertedRun S D jobId levels depth = run S D jobId depth := by
  have hmax : (depth : Int) ≤ 255 := Int.ofNat_le.mpr hdepth
  rw [assertedRun, run]
  refine congrArg _ (funext fun _ => congrArg _ (funext fun board => ?_))
  rw [assertedSearch_eq S D jobId (maxStackDepth - 1) (by decide)
    (lt_of_lt_of_le (by decide) hlevels) .root hmax]

variable {root : Color} {s : Searcher}

theorem wp_run (h : Ready root 0 s) (depth : Nat) :
    wp (contract depth) (run S D jobId depth) (fun _ _ => Restored root 0 s)
      (fun _ _ => Restored root 0 s) () s := by
  have h' : Ready root 0 { s with depth := depth } := ⟨h.valid, h.side, h.room, h.killers⟩
  have hset : Restored root 0 s { s with depth := depth } := (h.refl 0).congr rfl rfl rfl
  rw [run, wp_bind, wp_modify, wp_bind, wp_gets, wp_bind, wp_call]
  have hsearch : Tidy depth root 0 0 (Job.search S D jobId (maxStackDepth - 1) .root depth 0 (-scoreInf)
      scoreInf (Evaluator.ofBoard s.board) Flags.default) :=
    tidy_search S D jobId (maxStackDepth - 1) (by decide) .root le_rfl _ _ _ _
  exact wp_mono (hsearch () _ h') (fun _ _ _ h'' => hset.trans h'') fun _ _ _ h'' => hset.trans h''

/-- The search does not get stuck, whatever it is told. -/
def NeverStuck {ρ α : Type} (m : Part ρ α) (s : Searcher) : Prop :=
  ∀ l, Honest l → ¬(m s).Leads l .stuck

/-- The search comes to an end, on the stack that it has. No entry is stored with a depth that it does
not hold, and none with more depth than the search was given. -/
theorem run_bounded (h : Ready root 0 s) {depth : Nat} (hdepth : depth ≤ maxDepth) :
    (∀ levels, maxStackDepth ≤ levels → assertedRun S D jobId levels depth = run S D jobId depth) ∧
    NeverStuck (run S D jobId depth) s ∧
    (∀ env, HonestTable env → ∃ l out s', Runs (run S D jobId depth) s l out s' ∧
      ∀ l₁ q a l₂, l = l₁ ++ ⟨q, a⟩ :: l₂ → a = env l₁ q) ∧
    (∀ l l' b data t, (run S D jobId depth s).Leads (l ++ ⟨.store b data, ()⟩ :: l') t → Honest l →
      ∃ move score d bound, data = Data.of move score d bound ∧ 1 ≤ d ∧ d ≤ depth ∧ data.depth = d) ∧
    ∀ root' idepth s', Ready root' idepth s' → ∀ levels, menAndPawns s'.board.cells < levels →
      ∀ alpha beta tag, NeverStuck (quiescenseSearch S levels alpha beta tag) s' := by
  have hrun := wp_run S D jobId h depth
  refine ⟨fun levels hlevels => assertedRun_eq S D jobId hlevels hdepth,
    fun l hhonest hl => not_stuck (Q := fun _ => Restored root 0 s) (R := fun _ => Restored root 0 s) hrun hl
      hhonest rfl,
    fun env henv => exists_runs (Q := fun _ => Restored root 0 s) (R := fun _ => Restored root 0 s) hrun henv,
    fun l l' b data t hl hhonest => ?_,
    fun root' idepth s' h' levels hlevels alpha beta tag l hhonest hl => ?_⟩
  · obtain ⟨-, move, score, d, bound, rfl, hmin, hmax⟩ := (path_of_honest hhonest).asks hl hrun
    have hmax' : d ≤ 255 := hmax.trans (Int.ofNat_le.mpr hdepth)
    exact ⟨move, score, d, bound, rfl, hmin, hmax, depth_of (by omega) hmax' move score bound⟩
  · have hwp : wp (contract 0) (quiescenseSearch S levels alpha beta tag)
        (fun _ _ => Restored root' 0 s') (fun _ _ => Restored root' 0 s') () s' :=
      tidy_quiescenseSearch S levels alpha beta tag h' hlevels
    exact not_stuck (Q := fun _ => Restored root' 0 s') (R := fun _ => Restored root' 0 s') hwp hl
      hhonest rfl

omit [Evaluator] [Globals] in
theorem run_bounded_initial : letI := spreadGlobals; letI := plainEvaluator
    let s := Searcher.create initialPosition RepetitionTable.empty
    (∀ levels, maxStackDepth ≤ levels → assertedRun Sorter.inserting keepingShuffler 0 levels 255 =
      run Sorter.inserting keepingShuffler 0 255) ∧
    NeverStuck (run Sorter.inserting keepingShuffler 0 255) s ∧
    (∀ env, HonestTable env → ∃ l out s', Runs (run Sorter.inserting keepingShuffler 0 255) s l out s' ∧
      ∀ l₁ q a l₂, l = l₁ ++ ⟨q, a⟩ :: l₂ → a = env l₁ q) ∧
    (∀ l l' b data t,
      (run Sorter.inserting keepingShuffler 0 255 s).Leads (l ++ ⟨.store b data, ()⟩ :: l') t → Honest l →
        ∃ move score d bound, data = Data.of move score d bound ∧ 1 ≤ d ∧ d ≤ 255 ∧ data.depth = d) ∧
    ∀ root' idepth s', Ready root' idepth s' → ∀ levels, menAndPawns s'.board.cells < levels →
      ∀ alpha beta tag, NeverStuck (quiescenseSearch Sorter.inserting levels alpha beta tag) s' :=
  letI := spreadGlobals
  letI := plainEvaluator
  run_bounded Sorter.inserting keepingShuffler 0
    (ready_create valid_initialPosition ⟨5, by decide, RepetitionTable.Sound.empty⟩) le_rfl

end Asserting

end SoFCheck.Search.Recursion
