import SoFCheck.Search.Enumeration
import SoFCheck.Search.Job

namespace SoFCheck.Search.FirstMoves

open SoFCheck.Util.Imperative SoFCheck.Util.Imperative.Program
open SoFCheck.Core.Types SoFCheck.Core.BoardState SoFCheck.Core.Moves SoFCheck.Core.Attack
open SoFCheck.Core.Validate SoFCheck.Core.MoveMake SoFCheck.Core.Movegen SoFCheck.Core.Sequence
open SoFCheck.Eval.Score SoFCheck.Search.Tables SoFCheck.Search.Pickers SoFCheck.Search.Enumeration
open SoFCheck.Core.InitialPosition SoFCheck.Search.TableData SoFCheck.Search.Job

section Conversations
variable [Evaluator] [Globals] {S : Sorter} {D : Shuffler} {jobId : Nat} {search : Recurse}
variable {s s' s₁ s₂ s₃ : Searcher} {l l' : List (Sigma Answer)} {searchDepth alpha beta : Int} {idepth : Nat}
variable {origAlpha : Int} {tag : Evaluator.Tag} {flags : Flags} {node : NodeKind} {data : Data} {move : Move}

omit [Globals] in
theorem runs_query {ρ : Type} (q : Question) (a : Answer q) (s : Searcher) :
    Runs (query q : Part ρ (Answer q)) s [⟨q, a⟩] (.ok a) s := runs_ask q a s

omit [Evaluator] [Globals] in
theorem not_drawn {b : Board} (h : b.moveCounter < 100)
    (h' : isBoardDrawInsufficientMaterial b = false) :
    ¬(node ≠ .root ∧ (b.moveCounter ≥ 100 ∨ isBoardDrawInsufficientMaterial b = true)) := by
  intro hd
  obtain ⟨-, hcounter | hmaterial⟩ := hd
  · exact absurd h (BitVec.not_lt.mpr hcounter)
  · exact absurd (h'.symm.trans hmaterial) Bool.false_ne_true

omit [Globals] in
theorem runs_probe (hvalid : data.isValid = true) (hdepth : node = .root ∨ data.depth < searchDepth) :
    Runs (probe node searchDepth idepth alpha beta) s [⟨.load s.board, data⟩] (.ok data.move) s := by
  have hallow : Runs (allowCutoff node searchDepth s.board data) s [] (.ok false) s := by
    rw [allowCutoff, if_neg]
    · exact runs_pure false s
    · intro h
      obtain ⟨hroot, hge, -⟩ := h
      cases hdepth with
      | inl he => exact hroot he
      | inr hlt => omega
  refine (runs_gets Searcher.board s).silent (leads_ask_bind ?_)
  rw [if_pos hvalid]
  exact hallow.silent (runs_pure data.move s)

theorem runs_prune (hnode : node.isPv = true) (isInCheck : Bool) :
    Runs (prune S search node searchDepth idepth alpha beta tag flags isInCheck) s []
      (.ok (searchDepth, flags)) s := by
  rw [prune, hnode]
  exact runs_pure _ s

theorem leads_doSearch {picker picker' : NodePicker} (hnode : node.isPv = true)
    (hdraw : s.board.moveCounter < 100 ∧ isBoardDrawInsufficientMaterial s.board = false)
    (hdepth : 0 < searchDepth) (hidepth : idepth + 1 < maxStackDepth)
    (hprobe : Runs (probe node searchDepth idepth alpha beta) (s.setBestMove idepth Move.null) l
      (.ok move) (s.setBestMove idepth Move.null))
    (hpicker : createPicker S D jobId node idepth move (s.setBestMove idepth Move.null) =
      some (picker, s.setBestMove idepth Move.null))
    (hnext : nextOfPicker S idepth (s.setBestMove idepth Move.null) picker = some (move, picker')) :
    ∃ (f : Locals → Part Int Locals) (g : Locals → Part Int Int), (doSearch S D jobId search node searchDepth idepth alpha beta tag flags s).Leads l
      (((nodeTurn search node searchDepth idepth alpha beta tag flags move picker' ⟨alpha, false, 0⟩ >>=
        f) >>= g : Part Int Int) (s.setBestMove idepth Move.null)) := by
  refine ⟨forLoop (nextOfPicker S idepth)
    (nodeTurn search node searchDepth idepth alpha beta tag flags) 1023 picker', fun l => do
    if l.hasMove then
      ttStore alpha beta searchDepth idepth l.alpha
      pure l.alpha
    else pure (if isCheck s.board then scoreCheckmateLose idepth else 0), ?_⟩
  rw [doSearch]
  refine (runs_modify _ s).silent ((runs_gets Searcher.board _).silent ?_)
  rw [if_neg, if_neg]
  · refine List.append_nil l ▸ hprobe.bind ((runs_prune hnode _).silent ?_)
    refine (runs_tryModify hpicker).silent ?_
    exact (leads_forLoop hnext (.refl _)).bind _
  · omega
  · exact not_drawn hdraw.1 hdraw.2

omit [Globals] in
theorem runs_look {value : Int} (hcount : (s.counter + 1) &&& 1023 = 0) :
    Runs (returnIfStopped value) s [⟨.isStopped, false⟩, ⟨.checkTimeout, false⟩] (.ok ())
      { s with counter := s.counter + 1 } := by
  have hstop : Runs (mustStop : Part Int Bool) s [⟨.isStopped, false⟩, ⟨.checkTimeout, false⟩]
      (.ok false) { s with counter := s.counter + 1 } := by
    refine leads_ask_bind ((runs_modify _ s).silent ((runs_gets _ _).silent ?_))
    rw [if_pos hcount]
    exact runs_query .checkTimeout false _
  exact hstop.bind (.refl _)

omit [Globals] in
theorem runs_leave {value : Int} {d : Nat} (hcount : (s.counter + 1) &&& 1023 ≠ 0)
    (hd : d ≠ s.depth) :
    Runs (returnIfStopped value) s [⟨.isStopped, false⟩, ⟨.depth, d⟩] (.error value)
      { s with counter := s.counter + 1 } := by
  have hstop : Runs (mustStop : Part Int Bool) s [⟨.isStopped, false⟩, ⟨.depth, d⟩] (.ok true)
      { s with counter := s.counter + 1 } := by
    refine leads_ask_bind ((runs_modify _ s).silent ((runs_gets _ _).silent ?_))
    rw [if_neg hcount]
    refine leads_ask_bind ((runs_gets _ _).silent ?_)
    rw [decide_eq_true hd]
    exact .refl _
  exact hstop.bind (.refl _)

omit [Globals] in
theorem runs_fullWindow {score : Int} (hnode : node.isPv = true)
    (hchild : Runs (search .pv (searchDepth - 1) (idepth + 1) (toScore (-beta)) (toScore (-alpha)) tag
      flags) s l (.ok score) s')
    (hstop : Runs (returnIfStopped (0 : Int)) s' l' (.ok ()) s₁) :
    Runs (fullWindowSearch search node searchDepth idepth alpha beta tag flags) s (l ++ l')
      (.ok (toScore (-score))) s₁ := by
  rw [fullWindowSearch, hnode]
  exact hchild.call.bind (List.append_nil l' ▸ hstop.bind (.refl _))

omit [Globals] in
theorem runs_fullWindow_error {score value : Int} (hnode : node.isPv = true)
    (hchild : Runs (search .pv (searchDepth - 1) (idepth + 1) (toScore (-beta)) (toScore (-alpha)) tag
      flags) s l (.ok score) s')
    (hstop : Runs (returnIfStopped (0 : Int)) s' l' (.error value) s₁) :
    Runs (fullWindowSearch search node searchDepth idepth alpha beta tag flags) s (l ++ l')
      (.error value) s₁ := by
  rw [fullWindowSearch, hnode]
  exact hchild.call.bind hstop.bind_error

theorem runs_firstMove (stage : MovePickerStage) {out : Except Int Int}
    (hlegal : wasMoveLegal s.board = true)
    (hfull : ∀ flags, Runs (fullWindowSearch search node searchDepth idepth alpha beta tag flags) s l
      out s') :
    Runs (searchMove search node searchDepth idepth beta flags move stage ⟨alpha, false, 0⟩ tag) s l
      (out.map fun score =>
        .searched score (if node ≠ .root ∧ stage = .history then 0 + 1 else 0)) s' := by
  rw [searchMove]
  refine (runs_gets _ s).silent ?_
  rw [if_pos hlegal]
  have hlmr : ∀ lmrEnabled flags, lmrEnabled = false →
      Runs (lateMoveReduction lmrEnabled search searchDepth idepth alpha tag flags) s [] (.ok false) s := by
    intro lmrEnabled flags he
    rw [lateMoveReduction, if_neg (by simp [he])]
    exact .refl _
  refine (hlmr _ _ (by simp)).silent ?_
  rw [if_neg Bool.false_ne_true]
  have hpv : ∀ flags, Runs (pvSearch search node searchDepth idepth alpha beta tag flags true) s l
      out s' := by
    intro flags
    rw [pvSearch, if_neg (by simp)]
    exact hfull flags
  cases out with
  | error r => exact (hpv _).bind_error
  | ok => exact List.append_nil l ▸ (hpv _).bind (.refl _)

theorem runs_withMove {ρ α : Type} {body : Evaluator.Tag → Part ρ α} {out : Except ρ α}
    (hbody : ∀ tag, Runs (body tag) { s with board := (moveMake s.board move).1 } l out s') :
    Runs (withMove move tag body) s l out
      { s' with board := moveUnmake s'.board move (moveMake s.board move).2 } :=
  (runs_gets _ s).silent (hbody _).guarded

theorem runs_searchNode {out : Except Int Int} {score : Int} (hins : insertHash s = some (true, s₁))
    (hdo : Runs (doSearch S D jobId search node searchDepth idepth alpha beta tag flags) s₁ l out s₂)
    (hout : out = .ok score ∨ out = .error score) :
    Runs (searchNode S D jobId search node searchDepth idepth alpha beta tag flags) s l (.ok score)
      { s₂ with repetitions := s₂.repetitions.erase s₂.board.hash } := by
  refine (runs_tryModify hins).silent ?_
  rw [if_pos rfl]
  refine List.append_nil l ▸ Runs.bind (a := score) ?_ (.refl _)
  rcases hout with rfl | rfl
  · exact hdo.call
  · exact hdo.call_error

/-- A PV node that the transposition table answers. -/
theorem runs_cutoff (hvalid : data.isValid = true) (hepoch : data.depth ≥ searchDepth)
    (hbound : data.bound = PositionCostBound.exact.toBits) (hnode : node = .pv)
    (hdraw : s.board.moveCounter < 90 ∧ isBoardDrawInsufficientMaterial s.board = false)
    (hdepth : 0 < searchDepth) (hidepth : idepth + 1 < maxStackDepth) :
    Runs (doSearch S D jobId search node searchDepth idepth alpha beta tag flags) s
      [⟨.load s.board, data⟩, ⟨.isCurrentEpoch data, true⟩]
      (.error (adjustCheckmate data.score idepth))
      ((s.setBestMove idepth Move.null).setBestMove idepth data.move) := by
  subst hnode
  rw [doSearch]
  refine (runs_modify _ s).silent ((runs_gets Searcher.board _).silent ?_)
  rw [if_neg, if_neg]
  · refine Runs.bind_error ?_
    refine (runs_gets Searcher.board _).silent (leads_ask_bind ?_)
    rw [if_pos hvalid]
    have hallow : Runs (allowCutoff .pv searchDepth (s.setBestMove idepth Move.null).board data)
        (s.setBestMove idepth Move.null) [⟨.isCurrentEpoch data, true⟩] (.ok true)
        (s.setBestMove idepth Move.null) := by
      rw [allowCutoff, if_pos ⟨nofun, hepoch, hdraw.1⟩]
      exact runs_query (.isCurrentEpoch data) true _
    refine (List.append_nil [_] : [_] ++ [] = [(⟨.isCurrentEpoch data, true⟩ : Sigma Answer)]) ▸
      hallow.bind ?_
    have hcut : isCutoff data alpha beta (adjustCheckmate data.score idepth) = true :=
      decide_eq_true (Or.inl hbound)
    have hleave : Runs (if (true && isCutoff data alpha beta (adjustCheckmate data.score idepth)) = true
        then do
          Program.modify fun s => s.setBestMove idepth data.move
          earlyReturn (adjustCheckmate data.score idepth)
        else pure data.move : Part Int Move) (s.setBestMove idepth Move.null) []
        (.error (adjustCheckmate data.score idepth))
        ((s.setBestMove idepth Move.null).setBestMove idepth data.move) := by
      rw [hcut]
      exact (runs_modify _ _).silent (.refl _)
    exact hleave
  · omega
  · exact not_drawn (BitVec.lt_trans hdraw.1 (by decide)) hdraw.2

theorem runs_nodeTurn_error {picker : NodePicker} {score : Int} (hne : move ≠ Move.null)
    (hlegal : wasMoveLegal (moveMake s.board move).1 = true)
    (hfull : ∀ tag flags, Runs (fullWindowSearch search node searchDepth idepth alpha beta tag flags)
      { s with board := (moveMake s.board move).1 } l (.error score) s') :
    Runs (nodeTurn search node searchDepth idepth origAlpha beta tag flags move picker
      ⟨alpha, false, 0⟩) s l (.error score)
      { s' with board := moveUnmake s'.board move (moveMake s.board move).2 } := by
  rw [nodeTurn, if_neg hne]
  exact (runs_withMove fun tag => runs_firstMove picker.stage hlegal (hfull tag)).bind_error

omit [Globals] in
theorem leads_takeScore (stage : MovePickerStage) (locals : Locals) (score : Int) (n : Nat) :
    ∃ t, (takeScore node searchDepth idepth alpha beta move stage locals score n s).Leads
      [⟨.useScore, ()⟩] t :=
  ⟨_, leads_ask_bind (.refl _)⟩

theorem leads_nodeTurn {picker : NodePicker} {score : Int} (hne : move ≠ Move.null)
    (hlegal : wasMoveLegal (moveMake s.board move).1 = true)
    (hfull : ∀ tag flags, Runs (fullWindowSearch search node searchDepth idepth alpha beta tag flags)
      { s with board := (moveMake s.board move).1 } l (.ok score) s') :
    ∃ t, (nodeTurn search node searchDepth idepth origAlpha beta tag flags move picker
      ⟨alpha, false, 0⟩ s).Leads (l ++ [⟨.useScore, ()⟩]) t := by
  rw [nodeTurn, if_neg hne]
  obtain ⟨t, ht⟩ := leads_takeScore picker.stage ⟨alpha, false, 0⟩ score
    (if node ≠ .root ∧ picker.stage = .history then 0 + 1 else 0)
  exact ⟨t, (runs_withMove fun tag => runs_firstMove picker.stage hlegal (hfull tag)).bind ht⟩

end Conversations

section Roots

variable [Evaluator] {ρ α β : Type} {l : List (Sigma Answer)} {s s' s₁ : Searcher}

theorem leads_silent {m : Part ρ α} {f : α → Part ρ β} {a : α} (hm : Runs m s [] (.ok a) s')
    (h : ∃ t, (f a s').Leads l t) : ∃ t, ((m >>= f) s).Leads l t := h.imp fun _ => hm.silent

theorem leads_called {m : Part α α} {f : α → Part ρ β} (h : ∃ t, (m s).Leads l t) :
    ∃ t, ((call m >>= f) s).Leads l t := by
  obtain ⟨t, ht⟩ := h
  exact ⟨_, (ht.bind _).bind _⟩

variable [Globals] (S : Sorter) (D : Shuffler) (jobId : Nat) {depth : Nat}

theorem leads_run (hinsert : insertHash { s with depth := depth } = some (true, s₁))
    (h : ∃ t, (doSearch S D jobId (Job.search S D jobId (maxStackDepth - 2)) .root depth 0 (-scoreInf)
      scoreInf (Evaluator.ofBoard s.board) Flags.default s₁).Leads l t) :
    ∃ t, (run S D jobId depth s).Leads l t := by
  have hnode : ∃ t, (searchNode S D jobId (Job.search S D jobId (maxStackDepth - 2)) .root depth 0
      (-scoreInf) scoreInf (Evaluator.ofBoard s.board) Flags.default
      { s with depth := depth }).Leads l t := by
    rw [searchNode]
    apply leads_silent (runs_tryModify hinsert)
    rw [if_pos rfl]
    exact leads_called h
  rw [run]
  apply leads_silent (runs_modify _ _)
  apply leads_silent (runs_gets _ _)
  exact leads_called hnode

/-- The moves of a node that has its picker. -/
def pickedMoves (search : Recurse) (node : NodeKind) (depth : Int) (idepth : Nat) (alpha beta : Int)
    (tag : Evaluator.Tag) (flags : Flags) (isInCheck : Bool) (picker : NodePicker) : Part Int Int := do
  let l ← forLoop (nextOfPicker S idepth)
    (nodeTurn search node depth idepth alpha beta tag flags) pickerTurns picker ⟨alpha, false, 0⟩
  if l.hasMove then
    ttStore alpha beta depth idepth l.alpha
    pure l.alpha
  else pure (if isInCheck then scoreCheckmateLose idepth else 0)

variable {search : Recurse} {tag : Evaluator.Tag} {picker : NodePicker}

theorem leads_root (hdepth : 0 < depth)
    (h : ∃ t, ((probe .root depth 0 (-scoreInf) scoreInf >>= fun hashMove =>
      searchMoves S D jobId search .root depth 0 (-scoreInf) scoreInf tag Flags.default hashMove
        (isCheck s.board)) (s.setBestMove 0 Move.null)).Leads l t) :
    ∃ t, (doSearch S D jobId search .root depth 0 (-scoreInf) scoreInf tag Flags.default s).Leads l t := by
  rw [doSearch]
  apply leads_silent (runs_modify _ _)
  apply leads_silent (runs_gets _ _)
  have hpositive : ¬((depth : Int) ≤ 0 ∨ 0 + 1 = maxStackDepth) := by
    intro hor
    cases hor with
    | inl hle => omega
    | inr he => exact absurd he (by decide)
  rw [if_neg (fun h => h.1 rfl), if_neg hpositive]
  exact h

theorem leads_load (hdepth : 0 < depth) (data : Data) :
    ∃ t, (doSearch S D jobId search .root depth 0 (-scoreInf) scoreInf tag Flags.default s).Leads
      [⟨.load s.board, data⟩] t := by
  apply leads_root S D jobId hdepth
  have hprobe : ∃ t, (probe .root depth 0 (-scoreInf) scoreInf (s.setBestMove 0 Move.null)).Leads
      [⟨.load s.board, data⟩] t := leads_silent (runs_gets _ _) ⟨_, leads_ask_bind (.refl _)⟩
  obtain ⟨t, ht⟩ := hprobe
  exact ⟨_, ht.bind _⟩

theorem leads_moves (hdepth : 0 < depth)
    (hpicker : createPicker S D jobId .root 0 Move.null (s.setBestMove 0 Move.null) =
      some (picker, s.setBestMove 0 Move.null))
    (h : ∃ t, (pickedMoves S search .root depth 0 (-scoreInf) scoreInf tag Flags.default
      (isCheck s.board) picker (s.setBestMove 0 Move.null)).Leads l t) :
    ∃ t, (doSearch S D jobId search .root depth 0 (-scoreInf) scoreInf tag Flags.default s).Leads
      (⟨.load s.board, Data.zero⟩ :: l) t := by
  apply leads_root S D jobId hdepth
  have hprobe : Runs (probe .root depth 0 (-scoreInf) scoreInf) (s.setBestMove 0 Move.null)
      [⟨.load s.board, Data.zero⟩] (.ok Move.null) (s.setBestMove 0 Move.null) :=
    (runs_gets _ _).silent (leads_ask_bind (.refl _))
  obtain ⟨t, ht⟩ := leads_silent (f := pickedMoves S search .root depth 0 (-scoreInf) scoreInf tag
    Flags.default (isCheck s.board)) (runs_tryModify hpicker) h
  exact ⟨t, hprobe.bind ht⟩

omit [Evaluator] in
theorem createPicker_null (hb : Regular s.board) {idepth : Nat}
    (hk : Built s.board.side (s.stack idepth).killers) :
    createPicker S D 0 .root idepth Move.null s = some (.root ⟨(pending S s.board Move.null
      (s.stack idepth).killers s.history (MovePicker.create s.board Move.null)).filter
        fun m => decide (m ≠ Move.null)⟩, s) := by
  rw [createPicker, if_pos rfl, create_root hb (Or.inl rfl) hk D 0]
  rfl

end Roots

section Openings

variable [Evaluator] [Globals]

/-- An entry of the transposition table that answers a search of depth 1. -/
structure Answered (b : Board) (data : Data) : Prop where
  drawn : b.moveCounter < 90 ∧ isBoardDrawInsufficientMaterial b = false
  dataValid : data.isValid = true
  depth : data.depth = 1
  bound : data.bound = PositionCostBound.exact.toBits

/-- The search goes on with the move of the entry. -/
structure Leading (b : Board) (data : Data) : Prop extends Answered b data where
  valid : Valid b
  playable : data.move.isWellFormed b.side = true ∧ isMoveValid b data.move = true
  legal : isMoveLegal b data.move = true

variable {b : Board} {data : Data}

omit [Evaluator] in
theorem Leading.ne_null (h : Leading b data) : data.move ≠ Move.null := by
  intro he
  have hvalid := h.playable.2
  rw [he, isMoveValid_null] at hvalid
  exact Bool.false_ne_true hvalid

omit [Evaluator] in
theorem Leading.wasMoveLegal (h : Leading b data) :
    wasMoveLegal (moveMake b data.move).1 = true :=
  (isMoveLegal_eq_wasMoveLegal h.valid ⟨h.playable.1, Or.inr h.playable.2⟩).symm.trans h.legal

omit [Evaluator] in
theorem createPicker_root (s : Searcher) (idepth : Nat) (h : Leading s.board data) (S : Sorter)
    (D : Shuffler) (hk : Built s.board.side (s.stack idepth).killers) :
    ∃ p p', createPicker S D 0 .root idepth data.move s = some (p, s) ∧
      nextOfPicker S idepth s p = some (data.move, p') := by
  have hcreate : RootNodeMovePicker.create S D _ s.history _ 0 = _ :=
    create_root (valid_iff.mp h.valid).1 (Or.inr h.playable) hk D 0
  obtain ⟨rest, hrest⟩ : ∃ rest, (pending S s.board data.move (s.stack idepth).killers s.history
      (MovePicker.create s.board data.move)).filter (fun m => decide (m ≠ Move.null)) =
        data.move :: rest := by
    rw [pending_create, laterStages, List.flatMap_cons, stageMoves, if_pos h.ne_null]
    exact ⟨_, List.filter_cons_of_pos (decide_eq_true h.ne_null)⟩
  rw [hrest, RootNodeMovePicker.arrange, if_pos rfl] at hcreate
  refine ⟨.root ⟨data.move :: rest⟩, .root ⟨rest⟩, ?_, ?_⟩
  · rw [createPicker, if_pos rfl, hcreate]
    rfl
  · exact if_neg (isWellFormed_ne_invalid h.playable.1)

omit [Evaluator] in
theorem createPicker_inner (s : Searcher) (idepth : Nat) (h : Leading s.board data) (S : Sorter)
    (D : Shuffler) (jobId : Nat) :
    ∃ p p', createPicker S D jobId .pv idepth data.move s = some (p, s) ∧
      nextOfPicker S idepth s p = some (data.move, p') := by
  have hnext : MovePicker.next S (s.stack idepth).killers s.history
      (MovePicker.create s.board data.move) =
        (data.move, { MovePicker.create s.board data.move with stage := .hashMove, moves := [] }) := by
    simp [MovePicker.next, MovePicker.create, MovePicker.nextStage, MovePicker.fill,
      MovePickerStage.next, h.ne_null]
  refine ⟨.inner (MovePicker.create s.board data.move), ?_⟩
  rw [createPicker, if_neg (fun he => by cases he), nextOfPicker, hnext]
  exact ⟨_, rfl, if_neg (isWellFormed_ne_invalid h.playable.1)⟩

omit [Evaluator] [Globals] in
/-- The table takes the keys one after another. -/
def Room (t : RepetitionTable) (keys : List BoardHash) : Prop :=
  ∃ e ≤ 62, t.Sound e ∧ keys.Nodup ∧ ∀ x ∈ keys, x ≠ 0 ∧ ¬t.Holds x

omit [Evaluator] [Globals] in
theorem Room.insert {s : Searcher} {keys : List BoardHash}
    (h : Room s.repetitions (s.board.hash :: keys)) :
    ∃ t, insertHash s = some (true, { s with repetitions := t }) ∧ Room t keys := by
  obtain ⟨e, he, hs, hnodup, hnew⟩ := h
  obtain ⟨hne, hhash⟩ := hnew _ List.mem_cons_self
  obtain ⟨t, e', ht, hs', he', hkeys⟩ := RepetitionTable.insert_spec hs he s.board.hash
  have hhas : s.repetitions.has s.board.hash = false := by
    rw [← Bool.not_eq_true, hs.has_iff he hne]
    exact hhash
  obtain ⟨hfresh, hnodup⟩ := List.nodup_cons.mp hnodup
  refine ⟨t, ?_, e', he', hs', hnodup, fun x hx => ?_⟩
  · rw [insertHash, ht, hhas]
    rfl
  · obtain ⟨hx0, hxt⟩ := hnew x (List.mem_cons_of_mem _ hx)
    refine ⟨hx0, fun hholds => ?_⟩
    cases (hkeys x hx0).mp hholds with
    | inl he => exact hfresh (he ▸ hx)
    | inr hh => exact hxt hh

variable {S : Sorter} {D : Shuffler} {jobId : Nat} {search : Recurse} {s : Searcher}
variable {keys : List BoardHash} {idepth : Nat}

variable (S D jobId search s idepth) in
theorem runs_remembered (h : Answered s.board data) (hroom : Room s.repetitions (s.board.hash :: keys))
    (hidepth : idepth + 1 < maxStackDepth) :
    ∃ s', (∀ alpha beta tag flags,
        Runs (searchNode S D jobId search .pv 1 idepth alpha beta tag flags) s
          [⟨.load s.board, data⟩, ⟨.isCurrentEpoch data, true⟩]
          (.ok (adjustCheckmate data.score idepth)) s') ∧
      s'.depth = s.depth ∧ s'.counter = s.counter := by
  obtain ⟨t, hins, -⟩ := hroom.insert
  have hcut : ∀ alpha beta tag flags, Runs (doSearch S D jobId search .pv 1 idepth alpha beta tag flags)
      { s with repetitions := t } [⟨.load s.board, data⟩, ⟨.isCurrentEpoch data, true⟩]
      (.error (adjustCheckmate data.score idepth)) _ := fun alpha beta tag flags =>
    runs_cutoff h.dataValid h.depth.ge h.bound rfl h.drawn (by omega) hidepth
  refine ⟨_, fun alpha beta tag flags =>
    runs_searchNode hins (hcut alpha beta tag flags) (Or.inr rfl), rfl, rfl⟩

variable {node : NodeKind} {searchDepth alpha beta : Int} {tag : Evaluator.Tag} {flags : Flags}
variable {s₁ s₂ s₃ : Searcher} {p p' : NodePicker} {l l' : List (Sigma Answer)} {score : Int}

/-- A node whose first move is searched. -/
structure Opening (S : Sorter) (D : Shuffler) (jobId : Nat) (node : NodeKind) (searchDepth : Int)
    (idepth : Nat) (data : Data) (s : Searcher) (p p' : NodePicker) : Prop where
  leading : Leading s.board data
  isPv : node.isPv = true
  enough : node = .root ∨ data.depth < searchDepth
  depth_pos : 0 < searchDepth
  idepth_lt : idepth + 1 < maxStackDepth
  picker : createPicker S D jobId node idepth data.move (s.setBestMove idepth Move.null) =
    some (p, s.setBestMove idepth Move.null)
  next : nextOfPicker S idepth (s.setBestMove idepth Move.null) p = some (data.move, p')

/-- The scope of the first move. -/
def afterMove (s : Searcher) (idepth : Nat) (move : Move) : Searcher :=
  { s.setBestMove idepth Move.null with board := (moveMake s.board move).1 }

theorem Opening.leads (h : Opening S D jobId node searchDepth idepth data s p p') :
    ∃ (f : Locals → Part Int Locals) (g : Locals → Part Int Int),
      (doSearch S D jobId search node searchDepth idepth alpha beta tag flags s).Leads
        [⟨.load s.board, data⟩]
        (((nodeTurn search node searchDepth idepth alpha beta tag flags data.move p' ⟨alpha, false, 0⟩
          >>= f) >>= g : Part Int Int) (s.setBestMove idepth Move.null)) :=
  leads_doSearch h.isPv ⟨BitVec.lt_trans h.leading.drawn.1 (by decide), h.leading.drawn.2⟩
    h.depth_pos h.idepth_lt (runs_probe h.leading.dataValid h.enough) h.picker h.next

theorem Opening.runs_error (h : Opening S D jobId node searchDepth idepth data s p p')
    (hfull : ∀ tag flags, Runs (fullWindowSearch search node searchDepth idepth alpha beta tag flags)
      (afterMove s idepth data.move) l (.error score) s₂) :
    Runs (doSearch S D jobId search node searchDepth idepth alpha beta tag flags) s
      (⟨.load s.board, data⟩ :: l) (.error score)
      { s₂ with board := moveUnmake s₂.board data.move (moveMake s.board data.move).2 } := by
  obtain ⟨f, g, hlead⟩ := h.leads
  refine hlead.trans (Runs.bind_error (Runs.bind_error ?_))
  exact runs_nodeTurn_error h.leading.ne_null h.leading.wasMoveLegal hfull

theorem Opening.leads_useScore (h : Opening S D jobId node searchDepth idepth data s p p')
    (hfull : ∀ tag flags, Runs (fullWindowSearch search node searchDepth idepth alpha beta tag flags)
      (afterMove s idepth data.move) l (.ok score) s₂) :
    ∃ t, (doSearch S D jobId search node searchDepth idepth alpha beta tag flags s).Leads
      (⟨.load s.board, data⟩ :: (l ++ [⟨.useScore, ()⟩])) t := by
  obtain ⟨f, g, hlead⟩ := h.leads
  obtain ⟨t, ht⟩ := leads_nodeTurn (s := s.setBestMove idepth Move.null) h.leading.ne_null
    h.leading.wasMoveLegal hfull
  exact ⟨_, hlead.trans ((ht.bind _).bind _)⟩

end Openings

section Pawns

variable [Evaluator] [Globals]

/-- Two pawns that may take each other. -/
def pawnsFields : Board :=
  { initialFields with
    cells := fun s => [(62, makeCell .white .king), (36, makeCell .white .pawn),
      (6, makeCell .black .king), (27, makeCell .black .pawn)].lookup s.val |>.getD emptyCell
    castling := Castling.none }

def pawns : Board := update pawnsFields

omit [Evaluator] in
theorem valid_pawns : Valid pawns :=
  valid_update_of_cells ⟨by decide, by decide, fun h => absurd rfl h⟩ (by decide +kernel)
    (by decide +kernel) (by decide +kernel) (by decide +kernel)

def pawnsSearcher : Searcher := Searcher.create pawns RepetitionTable.empty

/-- The searcher at the root. -/
def pawnsRoot : Searcher :=
  { pawnsSearcher with
    depth := 1
    repetitions := ((RepetitionTable.empty.insert pawns.hash).getD (true, RepetitionTable.empty)).2 }

def pawnsPicker : NodePicker :=
  .root ⟨(pending Sorter.inserting pawns Move.null KillerLine.empty HistoryTable.empty
    (MovePicker.create pawns Move.null)).filter fun m => decide (m ≠ Move.null)⟩

omit [Globals] in
/-- The table is empty, nothing stops the search, and nobody is better. -/
def quietReply (depth : Nat) : (q : Question) → Answer q
  | .isStopped | .checkTimeout => false
  | .depth => depth
  | .load _ => Data.zero
  | .isCurrentEpoch _ => true
  | .evalForCur _ _ => (0 : Int)
  | .store _ _ | .useScore => ()

/-- Another position than the one that is searched is evaluated. -/
def evaluatesNext : Sigma Answer → Bool
  | ⟨.evalForCur b _, _⟩ => !sameBoard b pawns
  | _ => false

def storesPawns : Sigma Answer → Bool
  | ⟨.store b data, _⟩ => sameBoard b pawns && data.isValid
  | _ => false

theorem exists_evaluatesNext {l : List (Sigma Answer)} (h : l.any evaluatesNext = true) :
    ∃ b tag a, (⟨.evalForCur b tag, a⟩ : Sigma Answer) ∈ l ∧ sameBoard b pawns = false := by
  obtain ⟨⟨q, a⟩, hmem, hnext⟩ := List.any_eq_true.mp h
  cases q with
  | evalForCur b tag =>
    simp only [evaluatesNext, Bool.not_eq_true'] at hnext
    exact ⟨b, tag, a, hmem, hnext⟩
  | _ => cases hnext

theorem exists_storesPawns {l : List (Sigma Answer)} (h : l.any storesPawns = true) :
    ∃ b data, (⟨.store b data, ()⟩ : Sigma Answer) ∈ l ∧ sameBoard b pawns = true ∧
      data.isValid = true := by
  obtain ⟨⟨q, a⟩, hmem, hpawns⟩ := List.any_eq_true.mp h
  cases q with
  | store b data =>
    simp only [storesPawns, Bool.and_eq_true] at hpawns
    exact ⟨b, data, hmem, hpawns⟩
  | _ => cases hpawns

variable (D : Shuffler)

/-- What is said in a search of depth one. -/
def pawnsTalk : List (Sigma Answer) :=
  ⟨.load pawns, Data.zero⟩ :: (pickedMoves Sorter.inserting
    (Job.search Sorter.inserting D 0 (maxStackDepth - 2)) .root (1 : Nat) 0 (-scoreInf) scoreInf
    (Evaluator.ofBoard pawns) Flags.default (isCheck pawns) pawnsPicker
    (pawnsRoot.setBestMove 0 Move.null)).converse (quietReply 1) 29

theorem reply_of_mem_pawnsTalk {e : Sigma Answer} (h : e ∈ pawnsTalk D) : e.2 = quietReply 1 e.1 := by
  cases h with
  | head => rfl
  | tail _ h => exact Dialogue.eq_reply_of_mem h

omit [Globals] [Evaluator] in
theorem insertHash_pawns : letI := spreadGlobals
    insertHash { pawnsSearcher with depth := 1 } = some (true, pawnsRoot) := by
  let _ := spreadGlobals
  have hnew : (RepetitionTable.empty.insert pawns.hash).map Prod.fst = some true := by decide +kernel
  obtain ⟨⟨isNew, t⟩, ht, rfl⟩ := Option.map_eq_some_iff.mp hnew
  simp [insertHash, pawnsRoot, pawnsSearcher, Searcher.create, ht]

omit [Globals] in
theorem leads_pawnsTalk : letI := spreadGlobals
    ∃ t, (run Sorter.inserting D 0 1 pawnsSearcher).Leads (pawnsTalk D) t := by
  let _ := spreadGlobals
  apply leads_run Sorter.inserting D 0 insertHash_pawns
  have hpicker : createPicker Sorter.inserting D 0 .root 0 Move.null
      (pawnsRoot.setBestMove 0 Move.null) = some (pawnsPicker, pawnsRoot.setBestMove 0 Move.null) := by
    have hregular : Regular (pawnsRoot.setBestMove 0 Move.null).board := (valid_iff.mp valid_pawns).1
    have hkillers : ((pawnsRoot.setBestMove 0 Move.null).stack 0).killers = KillerLine.empty := rfl
    rw [createPicker_null Sorter.inserting D hregular (hkillers ▸ Built.empty), hkillers]
    rfl
  exact leads_moves Sorter.inserting D 0 Nat.one_pos hpicker
    (Dialogue.leads_converse (quietReply 1) 29 _)

omit [Globals] in
theorem leads_pawnsLoad (jobId : Nat) (data : Data) : letI := spreadGlobals
    ∃ t, (run Sorter.inserting D jobId 1 pawnsSearcher).Leads [⟨.load pawns, data⟩] t := by
  let _ := spreadGlobals
  apply leads_run Sorter.inserting D jobId insertHash_pawns
  exact leads_load Sorter.inserting D jobId Nat.one_pos data

end Pawns

end SoFCheck.Search.FirstMoves
