import SoFCheck.Search.Job
import SoFCheck.Util.Notes

namespace SoFCheck.Search.NotedJob

open SoFCheck.Util.Imperative SoFCheck.Util.Imperative.Program
open SoFCheck.Core.Types SoFCheck.Core.BoardState SoFCheck.Core.Moves SoFCheck.Core.Attack
open SoFCheck.Core.Validate SoFCheck.Core.MoveMake SoFCheck.Core.Movegen SoFCheck.Eval.Score
open SoFCheck.Search.Tables
open SoFCheck.Search.Pickers SoFCheck.Search.TableData SoFCheck.Search.Job

variable [Evaluator]

/-- What the search notes down: a value that is narrowed to `score_t`, and a call with
its window. -/
inductive Note where
  | converts (x : Int)
  | searches (node : NodeKind) (alpha beta : Int)
  | quiesces (alpha beta : Int)

abbrev NotedPart (ρ α : Type) : Type := Program (Noted Answer Note) Searcher ρ α

abbrev NotedRecurse := NodeKind → (depth : Int) → (idepth : Nat) → (alpha beta : Int) →
  Evaluator.Tag → Flags → NotedPart Int Int

section Parts

variable {ρ α β : Type}

def notedQuery (q : Question) : NotedPart ρ (Answer q) := (query q).embed Note

def notedReturnIfStopped (value : ρ) : NotedPart ρ Unit := (returnIfStopped value).embed Note

def convert (x : Int) : NotedPart ρ Int := do
  note (.converts x)
  pure (toScore x)

def notedAdjust (score delta : Int) : NotedPart ρ Int :=
  if scoreCheckmateThreshold ≤ score then convert (score - delta)
  else if -scoreCheckmateThreshold < score then pure score
  else convert (score + delta)

@[simp] theorem erase_notedQuery (q : Question) :
    (notedQuery q : NotedPart ρ (Answer q)).erase = query q := erase_embed _

@[simp] theorem erase_notedReturnIfStopped (value : ρ) :
    (notedReturnIfStopped value).erase = returnIfStopped value := erase_embed _

@[simp] theorem pure_bind (a : α) (f : α → Part ρ β) : (pure a >>= f : Part ρ β) = f a := rfl

@[simp] theorem erase_convert (x : Int) : (convert x : NotedPart ρ Int).erase = pure (toScore x) := rfl

@[simp] theorem erase_notedAdjust (score delta : Int) :
    (notedAdjust score delta : NotedPart ρ Int).erase = pure (adjustCheckmate score delta) := by
  rw [notedAdjust, adjustCheckmate]
  split
  · rfl
  · split <;> rfl

variable [Globals]

def notedWithMove (move : Move) (tag : Evaluator.Tag) (body : Evaluator.Tag → NotedPart ρ α) :
    NotedPart ρ α := do
  let board ← gets Searcher.board
  guarded
    (fun s => ((moveMake s.board move).2, { s with board := (moveMake s.board move).1 }))
    (fun p s => { s with board := moveUnmake s.board move p })
    (body (Evaluator.updated tag board move))

@[simp] theorem erase_notedWithMove (move : Move) (tag : Evaluator.Tag)
    (body : Evaluator.Tag → NotedPart ρ α) :
    (notedWithMove move tag body).erase = withMove move tag fun tag => (body tag).erase := by
  rw [notedWithMove, withMove, erase_bind, erase_gets]
  simp only [erase_guarded]

end Parts

variable [Globals]

section Quiescence

variable (S : Sorter)

def notedQuiescenseMove (recurse : Int → Int → Evaluator.Tag → NotedPart Int Int) (alpha beta : Int)
    (tag : Evaluator.Tag) : NotedPart Int (Option Int) := do
  let board ← gets Searcher.board
  if wasMoveLegal board then
    let alpha' ← convert (-beta)
    let beta' ← convert (-alpha)
    let score ← call (recurse alpha' beta' tag)
    notedReturnIfStopped 0
    let score ← convert (-score)
    pure (some score)
  else pure none

def notedQuiescenseTurn (recurse : Int → Int → Evaluator.Tag → NotedPart Int Int) (beta : Int)
    (tag : Evaluator.Tag) (move : Move) (_ : QuiescenseMovePicker) (alpha : Int) :
    NotedPart Int Int := do
  if move = Move.null then pure alpha
  else
    let found ← notedWithMove move tag (notedQuiescenseMove recurse alpha beta)
    match found with
    | none => pure alpha
    | some score =>
      notedQuery .useScore
      let alpha := max alpha score
      if alpha ≥ beta then earlyReturn beta else pure alpha

def notedQuiescenseSearch : (levels : Nat) → (alpha beta : Int) → Evaluator.Tag → NotedPart Int Int
  | 0, _, _, _ => stuck
  | levels + 1, alpha, beta, tag => do
    note (.quiesces alpha beta)
    let board ← gets Searcher.board
    if isBoardDrawInsufficientMaterial board then pure 0
    else
      let evalScore ← notedQuery (.evalForCur board tag)
      let alpha := max alpha evalScore
      if alpha ≥ beta then pure beta
      else
        forLoop (nextOfQuiescence S) (notedQuiescenseTurn (notedQuiescenseSearch levels) beta tag)
          pickerTurns (QuiescenseMovePicker.create S board) alpha

theorem erase_quiescenseTurn (recurse : Int → Int → Evaluator.Tag → NotedPart Int Int) (beta : Int)
    (tag : Evaluator.Tag) (move : Move) (picker : QuiescenseMovePicker) (alpha : Int) :
    (notedQuiescenseTurn recurse beta tag move picker alpha).erase =
      quiescenseTurn (fun alpha beta tag => (recurse alpha beta tag).erase) beta tag move picker alpha := by
  rw [notedQuiescenseTurn, quiescenseTurn, erase_ite]
  refine if_congr Iff.rfl rfl ?_
  have hmove : (fun tag => (notedQuiescenseMove recurse alpha beta tag).erase) =
      quiescenseMove (fun alpha beta tag => (recurse alpha beta tag).erase) alpha beta := by
    funext tag
    simp [notedQuiescenseMove, quiescenseMove]
  rw [erase_bind, erase_notedWithMove, hmove]
  refine congrArg _ (funext fun found => ?_)
  cases found with
  | none => rfl
  | some score =>
    rw [erase_bind]
    exact congrArg _ (funext fun _ => erase_ite _ _)

theorem erase_quiescenseSearch (levels : Nat) (alpha beta : Int) (tag : Evaluator.Tag) :
    (notedQuiescenseSearch S levels alpha beta tag).erase =
      quiescenseSearch S levels alpha beta tag := by
  induction levels generalizing alpha beta tag with
  | zero => rfl
  | succ levels ih =>
    rw [notedQuiescenseSearch, quiescenseSearch, erase_note_bind, erase_bind]
    refine congrArg _ (funext fun board => ?_)
    rw [erase_ite]
    refine if_congr Iff.rfl rfl ?_
    rw [erase_bind]
    refine congrArg _ (funext fun evalScore => ?_)
    dsimp only
    rw [erase_ite]
    refine if_congr Iff.rfl rfl ?_
    simp only [erase_forLoop, erase_quiescenseTurn, ih]

end Quiescence

section Node

variable (S : Sorter) (D : Shuffler) (jobId : Nat)

omit [Globals] in
def notedTtStore (origAlpha origBeta depth : Int) (idepth : Nat) (score : Int) :
    NotedPart Int Unit := do
  let out := boundedScore origAlpha origBeta score
  let score ← notedAdjust out.2 (-idepth)
  let bestMove ← gets fun s => (s.stack idepth).bestMove
  if bestMove ≠ Move.null then
    let board ← gets Searcher.board
    notedQuery (.store board (Data.of bestMove score depth out.1))
  else pure ()

omit [Globals] in
theorem erase_ttStore (origAlpha origBeta depth : Int) (idepth : Nat) (score : Int) :
    (notedTtStore origAlpha origBeta depth idepth score).erase =
      ttStore origAlpha origBeta depth idepth score := by
  rw [notedTtStore, ttStore, erase_bind, erase_notedAdjust, pure_bind, erase_bind]
  refine congrArg _ (funext fun bestMove => ?_)
  rw [erase_ite]
  exact if_congr Iff.rfl (erase_bind.trans rfl) rfl

omit [Globals] in
def notedProbe (node : NodeKind) (depth : Int) (idepth : Nat) (alpha beta : Int) :
    NotedPart Int Move := do
  let board ← gets Searcher.board
  let data ← notedQuery (.load board)
  if data.isValid then
    let allow ← (allowCutoff node depth board data).embed Note
    if allow then
      let score ← notedAdjust data.score idepth
      if isCutoff data alpha beta score then
        modify fun s => s.setBestMove idepth data.move
        earlyReturn score
      else pure data.move
    else pure data.move
  else pure Move.null

omit [Globals] in
theorem erase_probe (node : NodeKind) (depth : Int) (idepth : Nat) (alpha beta : Int) :
    (notedProbe node depth idepth alpha beta).erase = probe node depth idepth alpha beta := by
  rw [notedProbe, probe, erase_bind]
  refine congrArg _ (funext fun board => ?_)
  rw [erase_bind]
  refine congrArg _ (funext fun data => ?_)
  rw [erase_ite]
  refine if_congr Iff.rfl ?_ rfl
  rw [erase_bind, erase_embed]
  refine congrArg _ (funext fun allow => ?_)
  cases allow with
  | false => rfl
  | true =>
    rw [if_pos rfl, erase_bind, erase_notedAdjust, pure_bind, erase_ite]
    dsimp only
    rw [Bool.true_and]
    rfl

omit [Globals] in
def notedFutility (depth beta : Int) (tag : Evaluator.Tag) : NotedPart Int (Option Int) := do
  if depth ≤ Futility.maxDepth then
    let threshold ← convert (beta + Futility.margins depth)
    let evalScore ← (getEvalScore tag none).embed Note
    if evalScore ≥ threshold then earlyReturn beta else pure (some evalScore)
  else pure none

omit [Globals] in
theorem erase_futility (depth beta : Int) (tag : Evaluator.Tag) :
    (notedFutility depth beta tag).erase = futility depth beta tag := by
  rw [notedFutility, futility, erase_ite]
  refine if_congr Iff.rfl ?_ rfl
  rw [erase_bind, erase_convert, pure_bind, erase_bind, erase_embed]
  exact congrArg _ (funext fun evalScore => erase_ite _ _)

def notedRazoring (depth alpha : Int) (tag : Evaluator.Tag) (evalScore : Option Int) :
    NotedPart Int Unit := do
  if depth ≤ Razoring.maxDepth then
    let threshold ← convert (alpha - Razoring.margins depth)
    let evalScore ← (getEvalScore tag evalScore).embed Note
    if evalScore ≤ threshold then
      let above ← convert (threshold + 1)
      let score ← call (notedQuiescenseSearch S quiescenseLevels threshold above tag)
      if score ≤ threshold then earlyReturn alpha else pure ()
    else pure ()
  else pure ()

theorem erase_razoring (depth alpha : Int) (tag : Evaluator.Tag) (evalScore : Option Int) :
    (notedRazoring S depth alpha tag evalScore).erase = razoring S depth alpha tag evalScore := by
  rw [notedRazoring, razoring, erase_ite]
  refine if_congr Iff.rfl ?_ rfl
  rw [erase_bind, erase_convert, pure_bind, erase_bind, erase_embed]
  refine congrArg _ (funext fun evalScore => ?_)
  rw [erase_ite]
  refine if_congr Iff.rfl ?_ rfl
  rw [erase_bind, erase_convert, pure_bind, erase_bind, erase_call, erase_quiescenseSearch]
  exact congrArg _ (funext fun score => erase_ite _ _)

def notedSearchNullMove (search : NotedRecurse) (depth : Int) (idepth : Nat) (beta : Int)
    (flags : Flags) (tag : Evaluator.Tag) : NotedPart Int Int := do
  let alpha' ← convert (-beta)
  let beta' ← convert (-beta + 1)
  let score ← call (search .simple (depth - NullMove.depthDec) (idepth + 1) alpha' beta' tag
    ((flags &&& Flags.inherit) ||| Flags.nullMove))
  notedReturnIfStopped 0
  convert (-score)

def notedNullMoveReduction (search : NotedRecurse) (depth : Int) (idepth : Nat) (beta : Int)
    (tag : Evaluator.Tag) (flags : Flags) : NotedPart Int (Int × Flags) := do
  let score ← notedWithMove Move.null tag (notedSearchNullMove search depth idepth beta flags)
  if score ≥ beta then pure (depth - NullMove.reductionDec, flags ||| Flags.nullMoveReduction)
  else pure (depth, flags)

def notedLateMoveReduction (lmrEnabled : Bool) (search : NotedRecurse) (depth : Int) (idepth : Nat)
    (alpha : Int) (tag : Evaluator.Tag) (newFlags : Flags) : NotedPart Int Bool :=
  if lmrEnabled then do
    let alpha' ← convert (-alpha - 1)
    let beta' ← convert (-alpha)
    let score ← call (search .simple (depth - 1 - LateMove.reduceDepth) (idepth + 1) alpha' beta' tag
      (newFlags ||| Flags.lateMoveReduction))
    notedReturnIfStopped 0
    let score ← convert (-score)
    pure (decide (score ≤ alpha))
  else pure false

def notedZeroWindowSearch (search : NotedRecurse) (depth : Int) (idepth : Nat) (alpha : Int)
    (tag : Evaluator.Tag) (newFlags : Flags) : NotedPart Int Int := do
  let alpha' ← convert (-alpha - 1)
  let beta' ← convert (-alpha)
  let score ← call (search .simple (depth - 1) (idepth + 1) alpha' beta' tag newFlags)
  notedReturnIfStopped 0
  let score ← convert (-score)
  if score ≤ alpha then pure alpha else convert (alpha + 1)

def notedFullWindowSearch (search : NotedRecurse) (node : NodeKind) (depth : Int) (idepth : Nat)
    (alpha beta : Int) (tag : Evaluator.Tag) (newFlags : Flags) : NotedPart Int Int := do
  let newNode := if node.isPv then NodeKind.pv else NodeKind.simple
  let alpha' ← convert (-beta)
  let beta' ← convert (-alpha)
  let score ← call (search newNode (depth - 1) (idepth + 1) alpha' beta' tag newFlags)
  notedReturnIfStopped 0
  convert (-score)

def notedPvSearch (search : NotedRecurse) (node : NodeKind) (depth : Int) (idepth : Nat)
    (alpha beta : Int) (tag : Evaluator.Tag) (newFlags : Flags) (isFirstMove : Bool) :
    NotedPart Int Int :=
  if node.isPv && !isFirstMove then do
    let score ← notedZeroWindowSearch search depth idepth alpha tag newFlags
    if alpha < score ∧ (node = .root ∨ score < beta) then
      notedFullWindowSearch search node depth idepth alpha beta tag newFlags
    else pure score
  else notedFullWindowSearch search node depth idepth alpha beta tag newFlags

def notedSearchMove (search : NotedRecurse) (node : NodeKind) (depth : Int) (idepth : Nat)
    (beta : Int) (flags : Flags) (move : Move) (stage : MovePickerStage) (l : Locals)
    (tag : Evaluator.Tag) : NotedPart Int MoveResult := do
  let board ← gets Searcher.board
  if wasMoveLegal board then
    let numHistoryMoves :=
      if node ≠ .root ∧ stage = .history then l.numHistoryMoves + 1 else l.numHistoryMoves
    let newFlags := (flags &&& Flags.inherit) |||
      (if isMoveCapture board move then Flags.capture else Flags.none)
    let lmrEnabled := decide (node ≠ .root ∧ l.hasMove = true ∧ node.isPv = false ∧
      depth ≥ LateMove.minDepth ∧ stage = .history ∧ numHistoryMoves > LateMove.movesNoReduce ∧
      isCheck board = false)
    let isReduced ← notedLateMoveReduction lmrEnabled search depth idepth l.alpha tag newFlags
    if isReduced then pure (.reduced numHistoryMoves)
    else
      let score ← notedPvSearch search node depth idepth l.alpha beta tag newFlags (!l.hasMove)
      pure (.searched score numHistoryMoves)
  else pure .illegal

omit [Globals] in
def notedTakeScore (node : NodeKind) (depth : Int) (idepth : Nat) (origAlpha beta : Int)
    (move : Move) (stage : MovePickerStage) (l : Locals) (score : Int) (numHistoryMoves : Nat) :
    NotedPart Int Locals := do
  notedQuery .useScore
  modify fun s => if score > l.alpha then s.setBestMove idepth move else s
  let alpha := if score > l.alpha then score else l.alpha
  if alpha ≥ beta then
    modify fun s =>
      if node ≠ .root ∧ stage.toNat ≥ MovePickerStage.killer.toNat then s.addKiller idepth move depth
      else s
    notedTtStore origAlpha beta depth idepth beta
    earlyReturn beta
  else pure ⟨alpha, true, numHistoryMoves⟩

def notedNodeTurn (search : NotedRecurse) (node : NodeKind) (depth : Int) (idepth : Nat)
    (origAlpha beta : Int) (tag : Evaluator.Tag) (flags : Flags) (move : Move) (picker : NodePicker)
    (l : Locals) : NotedPart Int Locals := do
  if move = Move.null then pure l
  else
    let result ← notedWithMove move tag
      (notedSearchMove search node depth idepth beta flags move picker.stage l)
    match result with
    | .illegal => pure l
    | .reduced numHistoryMoves => pure { l with hasMove := true, numHistoryMoves := numHistoryMoves }
    | .searched score numHistoryMoves =>
      notedTakeScore node depth idepth origAlpha beta move picker.stage l score numHistoryMoves

def notedLeafSearch (alpha beta : Int) (tag : Evaluator.Tag) : NotedPart Int Int :=
  if alpha ≥ scoreCheckmateThreshold then pure alpha
  else if beta ≤ -scoreCheckmateThreshold then pure beta
  else call (notedQuiescenseSearch S quiescenseLevels alpha beta tag)

def notedPrune (search : NotedRecurse) (node : NodeKind) (depth : Int) (idepth : Nat)
    (alpha beta : Int) (tag : Evaluator.Tag) (flags : Flags) (isInCheck : Bool) :
    NotedPart Int (Int × Flags) := do
  let isMateBounds :=
    decide (alpha ≤ -scoreCheckmateThreshold) || decide (beta ≥ scoreCheckmateThreshold)
  if !node.isPv && !isInCheck && !isMateBounds then
    let evalScore ← notedFutility depth beta tag
    notedRazoring S depth alpha tag evalScore
    if depth ≥ NullMove.minDepth ∧ flags &&& Flags.nullMoveDisable = Flags.none then
      notedNullMoveReduction search depth idepth beta tag flags
    else pure (depth, flags)
  else pure (depth, flags)

def notedSearchMoves (search : NotedRecurse) (node : NodeKind) (depth : Int) (idepth : Nat)
    (alpha beta : Int) (tag : Evaluator.Tag) (flags : Flags) (hashMove : Move) (isInCheck : Bool) :
    NotedPart Int Int := do
  let picker ← tryModify (createPicker S D jobId node idepth hashMove)
  let l ← forLoop (nextOfPicker S idepth)
    (notedNodeTurn search node depth idepth alpha beta tag flags) pickerTurns picker ⟨alpha, false, 0⟩
  if l.hasMove then
    notedTtStore alpha beta depth idepth l.alpha
    pure l.alpha
  else if isInCheck then convert (idepth - scoreCheckmate) else pure 0

def notedDoSearch (search : NotedRecurse) (node : NodeKind) (depth : Int) (idepth : Nat)
    (alpha beta : Int) (tag : Evaluator.Tag) (flags : Flags) : NotedPart Int Int := do
  note (.searches node alpha beta)
  modify fun s => s.setBestMove idepth Move.null
  let board ← gets Searcher.board
  if node ≠ .root ∧ (board.moveCounter ≥ 100 ∨ isBoardDrawInsufficientMaterial board = true) then
    pure 0
  else if depth ≤ 0 ∨ idepth + 1 = maxStackDepth then notedLeafSearch S alpha beta tag
  else
    let hashMove ← notedProbe node depth idepth alpha beta
    let isInCheck := isCheck board
    let (depth, flags) ← notedPrune S search node depth idepth alpha beta tag flags isInCheck
    notedSearchMoves S D jobId search node depth idepth alpha beta tag flags hashMove isInCheck

def notedSearchNode (search : NotedRecurse) : NotedRecurse :=
  fun node depth idepth alpha beta tag flags => do
    note (.searches node alpha beta)
    let isNew ← tryModify insertHash
    if isNew then
      let score ← call (notedDoSearch S D jobId search node depth idepth alpha beta tag flags)
      modify fun s => { s with repetitions := s.repetitions.erase s.board.hash }
      pure score
    else pure 0

def notedSearch : (left : Nat) → NotedRecurse
  | 0 => notedSearchNode S D jobId fun _ _ _ _ _ _ _ => stuck
  | left + 1 => notedSearchNode S D jobId (notedSearch left)

def notedRun (depth : Nat) : NotedPart (Int × Move) (Int × Move) := do
  modify fun s => { s with depth := depth }
  let board ← gets Searcher.board
  let score ← call (notedSearch S D jobId (maxStackDepth - 1) .root depth 0 (-scoreInf) scoreInf
    (Evaluator.ofBoard board) Flags.default)
  let bestMove ← gets fun s => (s.stack 0).bestMove
  pure (score, bestMove)

section Erasing

variable (search : NotedRecurse)

/-- The recursive calls without their notes. -/
def eraseSearch : Recurse := fun node depth idepth alpha beta tag flags =>
  (search node depth idepth alpha beta tag flags).erase

theorem erase_nullMoveReduction (depth : Int) (idepth : Nat) (beta : Int) (tag : Evaluator.Tag)
    (flags : Flags) : (notedNullMoveReduction search depth idepth beta tag flags).erase =
      nullMoveReduction (eraseSearch search) depth idepth beta tag flags := by
  rw [notedNullMoveReduction, nullMoveReduction, erase_bind, erase_notedWithMove]
  have hscope : (fun tag => (notedSearchNullMove search depth idepth beta flags tag).erase) =
      searchNullMove (eraseSearch search) depth idepth beta flags := by
    funext tag
    simp [notedSearchNullMove, searchNullMove, eraseSearch]
  rw [hscope]
  exact congrArg _ (funext fun score => erase_ite _ _)

omit [Globals] in
theorem erase_lateMoveReduction (lmrEnabled : Bool) (depth : Int) (idepth : Nat) (alpha : Int)
    (tag : Evaluator.Tag) (newFlags : Flags) :
    (notedLateMoveReduction lmrEnabled search depth idepth alpha tag newFlags).erase =
      lateMoveReduction lmrEnabled (eraseSearch search) depth idepth alpha tag newFlags := by
  rw [notedLateMoveReduction, lateMoveReduction, erase_ite]
  refine if_congr Iff.rfl ?_ rfl
  simp [eraseSearch]

omit [Globals] in
theorem erase_pvSearch (node : NodeKind) (depth : Int) (idepth : Nat) (alpha beta : Int)
    (tag : Evaluator.Tag) (newFlags : Flags) (isFirstMove : Bool) :
    (notedPvSearch search node depth idepth alpha beta tag newFlags isFirstMove).erase =
      pvSearch (eraseSearch search) node depth idepth alpha beta tag newFlags isFirstMove := by
  have hfull : (notedFullWindowSearch search node depth idepth alpha beta tag newFlags).erase =
      fullWindowSearch (eraseSearch search) node depth idepth alpha beta tag newFlags := by
    simp [notedFullWindowSearch, fullWindowSearch, eraseSearch]
  have hzero : (notedZeroWindowSearch search depth idepth alpha tag newFlags).erase =
      zeroWindowSearch (eraseSearch search) depth idepth alpha tag newFlags := by
    rw [notedZeroWindowSearch, zeroWindowSearch]
    simp only [erase_bind, erase_convert, pure_bind, erase_call, erase_notedReturnIfStopped, erase_ite,
      erase_pure, eraseSearch]
    refine congrArg _ (funext fun score => congrArg _ (funext fun _ => ?_))
    split <;> rfl
  rw [notedPvSearch, pvSearch, erase_ite, erase_bind, hzero, hfull]
  refine if_congr Iff.rfl (congrArg _ (funext fun score => ?_)) rfl
  rw [erase_ite, hfull]
  rfl

theorem erase_searchMove (node : NodeKind) (depth : Int) (idepth : Nat) (beta : Int) (flags : Flags)
    (move : Move) (stage : MovePickerStage) (l : Locals) (tag : Evaluator.Tag) :
    (notedSearchMove search node depth idepth beta flags move stage l tag).erase =
      searchMove (eraseSearch search) node depth idepth beta flags move stage l tag := by
  rw [notedSearchMove, searchMove, erase_bind]
  refine congrArg _ (funext fun board => ?_)
  rw [erase_ite]
  refine if_congr Iff.rfl ?_ rfl
  dsimp only
  rw [erase_bind, erase_lateMoveReduction]
  refine congrArg _ (funext fun isReduced => ?_)
  rw [erase_ite, erase_bind, erase_pvSearch]
  rfl

omit [Globals] in
theorem erase_takeScore (node : NodeKind) (depth : Int) (idepth : Nat) (origAlpha beta : Int)
    (move : Move) (stage : MovePickerStage) (l : Locals) (score : Int) (numHistoryMoves : Nat) :
    (notedTakeScore node depth idepth origAlpha beta move stage l score numHistoryMoves).erase =
      takeScore node depth idepth origAlpha beta move stage l score numHistoryMoves := by
  rw [notedTakeScore, takeScore, erase_bind]
  refine congrArg _ (funext fun _ => ?_)
  rw [erase_bind]
  refine congrArg _ (funext fun _ => ?_)
  dsimp only
  rw [erase_ite, erase_bind]
  refine if_congr Iff.rfl (congrArg _ (funext fun _ => ?_)) rfl
  rw [erase_bind, erase_ttStore]
  rfl

theorem erase_nodeTurn (node : NodeKind) (depth : Int) (idepth : Nat) (origAlpha beta : Int)
    (tag : Evaluator.Tag) (flags : Flags) (move : Move) (picker : NodePicker) (l : Locals) :
    (notedNodeTurn search node depth idepth origAlpha beta tag flags move picker l).erase =
      nodeTurn (eraseSearch search) node depth idepth origAlpha beta tag flags move picker l := by
  rw [notedNodeTurn, nodeTurn, erase_ite]
  refine if_congr Iff.rfl rfl ?_
  rw [erase_bind, erase_notedWithMove]
  simp only [erase_searchMove]
  refine congrArg _ (funext fun result => ?_)
  cases result with
  | illegal => rfl
  | reduced numHistoryMoves => rfl
  | searched score numHistoryMoves => exact erase_takeScore _ _ _ _ _ _ _ _ _ _

theorem erase_leafSearch (alpha beta : Int) (tag : Evaluator.Tag) :
    (notedLeafSearch S alpha beta tag).erase = leafSearch S alpha beta tag := by
  rw [notedLeafSearch, leafSearch, erase_ite, erase_ite, erase_call, erase_quiescenseSearch]
  rfl

theorem erase_prune (node : NodeKind) (depth : Int) (idepth : Nat) (alpha beta : Int)
    (tag : Evaluator.Tag) (flags : Flags) (isInCheck : Bool) :
    (notedPrune S search node depth idepth alpha beta tag flags isInCheck).erase =
      prune S (eraseSearch search) node depth idepth alpha beta tag flags isInCheck := by
  rw [notedPrune, prune, erase_ite]
  refine if_congr Iff.rfl ?_ rfl
  rw [erase_bind, erase_futility]
  refine congrArg _ (funext fun evalScore => ?_)
  rw [erase_bind, erase_razoring]
  refine congrArg _ (funext fun _ => ?_)
  rw [erase_ite, erase_nullMoveReduction]
  rfl

theorem erase_searchMoves (node : NodeKind) (depth : Int) (idepth : Nat) (alpha beta : Int)
    (tag : Evaluator.Tag) (flags : Flags) (hashMove : Move) (isInCheck : Bool) :
    (notedSearchMoves S D jobId search node depth idepth alpha beta tag flags hashMove isInCheck).erase =
      searchMoves S D jobId (eraseSearch search) node depth idepth alpha beta tag flags hashMove
        isInCheck := by
  rw [notedSearchMoves, searchMoves, erase_bind, erase_tryModify]
  refine congrArg _ (funext fun picker => ?_)
  rw [erase_bind, erase_forLoop]
  simp only [erase_nodeTurn]
  refine congrArg _ (funext fun l => ?_)
  rw [erase_ite, erase_bind, erase_ttStore]
  refine if_congr Iff.rfl rfl ?_
  cases isInCheck <;> rfl

theorem erase_doSearch (node : NodeKind) (depth : Int) (idepth : Nat) (alpha beta : Int)
    (tag : Evaluator.Tag) (flags : Flags) :
    (notedDoSearch S D jobId search node depth idepth alpha beta tag flags).erase =
      doSearch S D jobId (eraseSearch search) node depth idepth alpha beta tag flags := by
  rw [notedDoSearch, doSearch, erase_note_bind, erase_bind]
  refine congrArg _ (funext fun _ => ?_)
  rw [erase_bind]
  refine congrArg _ (funext fun board => ?_)
  rw [erase_ite]
  refine if_congr Iff.rfl rfl ?_
  rw [erase_ite, erase_leafSearch]
  refine if_congr Iff.rfl rfl ?_
  rw [erase_bind, erase_probe]
  refine congrArg _ (funext fun hashMove => ?_)
  dsimp only
  rw [erase_bind, erase_prune]
  exact congrArg _ (funext fun reduced => erase_searchMoves S D jobId search _ _ _ _ _ _ _ _ _)

theorem erase_searchNode :
    eraseSearch (notedSearchNode S D jobId search) = searchNode S D jobId (eraseSearch search) := by
  funext node depth idepth alpha beta tag flags
  rw [eraseSearch, notedSearchNode, searchNode, erase_note_bind, erase_bind, erase_tryModify]
  refine congrArg _ (funext fun isNew => ?_)
  rw [erase_ite]
  refine if_congr Iff.rfl ?_ rfl
  rw [erase_bind, erase_call, erase_doSearch]
  rfl

theorem erase_search (left : Nat) :
    eraseSearch (notedSearch S D jobId left) = Job.search S D jobId left := by
  induction left with
  | zero => exact erase_searchNode S D jobId _
  | succ left ih =>
    rw [notedSearch, erase_searchNode, ih]
    rfl

theorem erase_run (depth : Nat) : (notedRun S D jobId depth).erase = run S D jobId depth := by
  rw [notedRun, run, erase_bind]
  refine congrArg _ (funext fun _ => ?_)
  rw [erase_bind]
  refine congrArg _ (funext fun board => ?_)
  rw [erase_bind, erase_call, ← erase_search]
  rfl

end Erasing

end Node

end SoFCheck.Search.NotedJob
