import SoFCheck.Core.Material
import SoFCheck.Search.Aborts
import SoFCheck.Search.Discipline

namespace SoFCheck.Search.Checkmates

open SoFCheck.Util.Imperative SoFCheck.Util.Imperative.Program
open SoFCheck.Core.Types SoFCheck.Core.BoardState SoFCheck.Core.Moves SoFCheck.Core.Attack
open SoFCheck.Core.Validate SoFCheck.Core.MoveMake SoFCheck.Core.Movegen SoFCheck.Core.Sequence
open SoFCheck.Core.InitialPosition SoFCheck.Core.Material SoFCheck.Core.MakeBoard
open SoFCheck.Core.Grid SoFCheck.Core.Position SoFCheck.Core.Mailbox SoFCheck.Core.Legality
open SoFCheck.Eval.Score SoFCheck.Search.Tables
open SoFCheck.Search.Pickers SoFCheck.Search.Enumeration SoFCheck.Search.PickerSteps
open SoFCheck.Search.TableData SoFCheck.Search.Job SoFCheck.Search.Discipline
open SoFCheck.Search.Aborts (plainEvaluator keepingShuffler)

section Mates

variable [Evaluator] [Globals]

/-- No entry is found for the board. -/
def NoEntry (b : Board) (env : List (Sigma Answer) → (q : Question) → Answer q) : Prop :=
  ∀ l, (env l (.load b)).isValid = false

/-- The search of a board that is not in the table comes to this score, whatever else
it is told. -/
def Returns (b : Board) (m : Part Int Int) (s : Searcher) (score : Int) : Prop :=
  ∀ env, NoEntry b env → ∃ l out s', Runs m s l out s' ∧
    (∀ l₁ q a l₂, l = l₁ ++ ⟨q, a⟩ :: l₂ → a = env l₁ q) ∧ (out = .ok score ∨ out = .error score)

/-- The table has nothing about the board. -/
def missing (b : Board) : Contract Answer Unit where
  guar _ _ := True
  rely _ q a _ :=
    match q, a with
    | .load b', data => b' = b → data.isValid = false
    | _, _ => True
  mayStick := False

variable {b : Board} {s : Searcher} {idepth : Nat} {move : Move} {ρ α : Type}

theorem wp_nodeTurn_illegal (hb : Valid s.board) (hmate : Checkmated s.board)
    (hm : move = Move.null ∨ PseudoMove s.board move) (search : Recurse) (node : NodeKind)
    (depth : Int) (alpha beta : Int) (tag : Evaluator.Tag) (flags : Flags) (picker : NodePicker)
    (l : Locals) :
    wp (missing b) (nodeTurn search node depth idepth alpha beta tag flags move picker l)
      (fun l' _ s' => l' = l ∧ s' = s) (fun _ _ _ => False) () s := by
  rw [nodeTurn, wp_ite]
  split
  · exact ⟨rfl, rfl⟩
  rename_i hnull
  have hpseudo := hm.resolve_left hnull
  obtain ⟨hr, hl⟩ := valid_iff.mp hb
  have hillegal : ¬wasMoveLegal (moveMake s.board move).1 = true := by
    rw [← isMoveLegal_eq hr hl hpseudo.playable, hmate.2 move hpseudo.1 hpseudo.2]
    exact Bool.false_ne_true
  have hunmake : moveUnmake (moveMake s.board move).1 move (moveMake s.board move).2 = s.board :=
    moveUnmake_playable hb hpseudo.playable
  rw [wp_bind, withMove]
  simp only [wp_bind, wp_gets, wp_guarded, searchMove, if_neg hillegal, wp_pure, hunmake]
  exact ⟨trivial, trivial⟩

variable (S : Sorter) (D : Shuffler) (jobId : Nat)

theorem wp_searchMoves_mated (hb : Valid s.board) (hmate : Checkmated s.board)
    (hk : Built s.board.side (s.stack idepth).killers) (search : Recurse) (node : NodeKind)
    (depth alpha beta : Int) (tag : Evaluator.Tag) (flags : Flags) :
    wp (missing b) (searchMoves S D jobId search node depth idepth alpha beta tag flags Move.null true)
      (fun score _ _ => score = scoreCheckmateLose idepth) (fun _ _ _ => False) () s := by
  have hr := (valid_iff.mp hb).1
  obtain ⟨picker, hpicker, hoffers, hturns⟩ := createPicker_spec S D jobId node hb
    (Or.inl rfl) hk
  rw [searchMoves, wp_bind, wp_tryModify]
  refine ⟨fun hnone => ?_, fun picker' s₁ hsome => ?_⟩
  · rw [hpicker] at hnone
    cases hnone
  obtain ⟨rfl, rfl⟩ := Prod.mk.inj (Option.some.inj (hpicker.symm.trans hsome))
  rw [wp_bind]
  refine wp_mono (wp_forLoop (fun picker l _ s' => s' = s ∧ l = ⟨alpha, false, 0⟩ ∧
    NodeOffers s.board Move.null picker) (nodeTurnsLeft s.board) ?_ pickerTurns (Or.inl hturns)
    ⟨rfl, rfl, hoffers⟩) (fun l _ s' h' => ?_) fun _ _ _ h' => h'
  · intro picker l _ s' move picker' hinv hnext
    obtain ⟨rfl, rfl, hoffers'⟩ := hinv
    obtain ⟨hm, hoffers'', hless⟩ := nextOfPicker_spec S hr (Or.inl rfl) hk hoffers' hnext
    refine ⟨Or.inl hless, ?_⟩
    exact wp_mono (wp_nodeTurn_illegal hb hmate hm search node depth alpha beta tag flags picker' _)
      (fun _ _ _ h'' => ⟨h''.2, h''.1, hoffers''⟩) fun _ _ _ h'' => h''
  · obtain ⟨-, ⟨-, rfl, -⟩, -⟩ := h'
    rfl

theorem wp_doSearch_mated (hb : Valid s.board) (hmate : Checkmated s.board)
    (hk : Built s.board.side (s.stack idepth).killers) (hcounter : s.board.moveCounter < 100)
    {depth : Int} (hdepth : 0 < depth) (hidepth : idepth + 1 < maxStackDepth) (search : Recurse)
    (node : NodeKind) (alpha beta : Int) (tag : Evaluator.Tag) (flags : Flags) :
    wp (missing s.board) (doSearch S D jobId search node depth idepth alpha beta tag flags)
      (fun score _ _ => score = scoreCheckmateLose idepth) (fun _ _ _ => False) () s := by
  have hr := (valid_iff.mp hb).1
  have hmaterial : ¬isBoardDrawInsufficientMaterial s.board = true := fun h =>
    not_checkmated hb ((isBoardDrawInsufficientMaterial_iff hr.cells hr.synced).mp h) hmate
  rw [doSearch, wp_bind, wp_modify, wp_bind, wp_gets, wp_ite, if_neg, wp_ite, if_neg, wp_bind, probe,
    wp_bind, wp_gets, wp_bind, wp_ask]
  · refine ⟨trivial, fun data _ hdata => ?_⟩
    have hinvalid : ¬data.isValid = true := by
      rw [hdata rfl]
      exact Bool.false_ne_true
    rw [if_neg hinvalid, wp_pure, wp_bind, prune]
    have hcheck : isCheck (s.setBestMove idepth Move.null).board = true := hmate.1
    simp only [hcheck, Bool.not_true, Bool.and_false, Bool.false_and, Bool.false_eq_true, if_false, wp_pure]
    refine wp_searchMoves_mated (s := s.setBestMove idepth Move.null) S D jobId hb hmate ?_ search node
      depth alpha beta tag flags
    simpa [Searcher.setBestMove, Searcher.setFrame] using hk
  · rw [not_or]
    exact ⟨not_le.mpr hdepth, hidepth.ne⟩
  · rintro ⟨-, hcounter' | hmaterial'⟩
    · exact BitVec.not_lt.mpr hcounter' hcounter
    · exact hmaterial hmaterial'

/-- An environment that answers at once, with an empty table. -/
def emptyTable : (q : Question) → Answer q
  | .isStopped | .checkTimeout => false
  | .depth => (0 : Nat)
  | .load _ => Data.zero
  | .isCurrentEpoch _ => false
  | .store _ _ | .useScore => ()
  | .evalForCur _ _ => (0 : Int)

omit [Globals] in
theorem path_of_noEntry {env : List (Sigma Answer) → (q : Question) → Answer q} (henv : NoEntry b env)
    (l₁ l₂ : List (Sigma Answer))
    (h : ∀ l q a l', l₁ ++ l₂ = l ++ ⟨q, a⟩ :: l' → a = env l q) : (missing b).Path () l₂ () := by
  induction l₂ generalizing l₁ with
  | nil => exact .nil ()
  | cons e l₂ ih =>
    obtain ⟨q, a⟩ := e
    refine .cons ?_ (ih (l₁ ++ [⟨q, a⟩]) fun l q' a' l' he => h l q' a' l' ?_)
    · have ha := h l₁ q a l₂ rfl
      cases q with
      | load b' =>
        rintro rfl
        rw [ha]
        exact henv l₁
      | _ => trivial
    · rw [← he, List.append_assoc]
      rfl

theorem lt_of_returns {depth : Int} (hidepth : idepth + 1 < maxStackDepth) (search : Recurse)
    {node : NodeKind} (hnode : node ≠ .root) (alpha beta : Int) (tag : Evaluator.Tag) (flags : Flags)
    (h : Returns s.board (doSearch S D jobId search node depth idepth alpha beta tag flags) s
      (scoreCheckmateLose idepth)) : s.board.moveCounter < 100 := by
  by_contra hcounter
  have hdraw : doSearch S D jobId search node depth idepth alpha beta tag flags s =
      .done (.ok 0, s.setBestMove idepth Move.null) := by
    have hread : doSearch S D jobId search node depth idepth alpha beta tag flags s =
      (if node ≠ .root ∧ ((s.setBestMove idepth Move.null).board.moveCounter ≥ 100 ∨ _) then _ else _ :
        Part Int Int) (s.setBestMove idepth Move.null) := rfl
    rw [hread, if_pos ⟨hnode, Or.inl (BitVec.not_lt.mp hcounter)⟩]
    rfl
  obtain ⟨l, out, s', hruns, -, hout⟩ := h (fun _ => emptyTable) fun _ =>
    (by decide : Data.zero.isValid = false)
  rw [Runs, hdraw] at hruns
  cases hruns
  have hzero : scoreCheckmateLose idepth ≠ 0 := by
    rw [maxStackDepth, maxDepth] at hidepth
    rw [scoreCheckmateLose, scoreCheckmate, toScore_eq] <;> omega
  obtain hout | hout := hout
  · exact hzero (Except.ok.inj hout).symm
  · cases hout

/-- A mated board is scored as such, unless fifty moves without a capture have come
first. -/
theorem returns_mate_iff (hb : Valid s.board) (hmate : Checkmated s.board)
    (hk : Built s.board.side (s.stack idepth).killers) {depth : Int} (hdepth : 0 < depth)
    (hidepth : idepth + 1 < maxStackDepth) (search : Recurse) {node : NodeKind} (hnode : node ≠ .root)
    (alpha beta : Int) (tag : Evaluator.Tag) (flags : Flags) :
    Returns s.board (doSearch S D jobId search node depth idepth alpha beta tag flags) s
      (scoreCheckmateLose idepth) ↔ s.board.moveCounter < 100 := by
  refine ⟨lt_of_returns S D jobId hidepth search hnode alpha beta tag flags, fun hcounter env henv => ?_⟩
  have hwp := wp_doSearch_mated S D jobId hb hmate hk hcounter hdepth hidepth search node alpha beta tag
    flags
  obtain ⟨l, t, hl, hanswers, hend⟩ := Dialogue.exists_end
    (doSearch S D jobId search node depth idepth alpha beta tag flags s) env
  have hpath := path_of_noEntry henv [] l hanswers
  have hkeeps := hpath.keeps hl hwp
  obtain rfl | ⟨⟨out, s'⟩, rfl⟩ := hend
  · exact hkeeps.elim
  · refine ⟨l, out, s', hl, hanswers, ?_⟩
    cases out with
    | ok score => exact Or.inl (congrArg Except.ok hkeeps)
    | error score => exact hkeeps.elim

end Mates

section Corner

/-- A king in the corner before a queen that its own king guards. -/
def cornerCells (s : Square) : Cell :=
  if s = 0 then makeCell .black .king
  else if s = 9 then makeCell .white .queen
  else if s = 18 then makeCell .white .king else emptyCell

def cornerMateFields (counter : BitVec 16) : Board :=
  { initialFields with
    cells := cornerCells
    side := .black
    castling := Castling.none
    moveCounter := counter }

variable [Globals]

def cornerMate (counter : BitVec 16) : Board := update (cornerMateFields counter)

theorem valid_cornerMate (counter : BitVec 16) : Valid (cornerMate counter) :=
  valid_update_of_cells
    ⟨(by decide : ∀ s, isCellValid (cornerCells s) = true),
      (by decide : Castling.none &&& Castling.all = Castling.none), fun h => absurd rfl h⟩
    (by decide +kernel : ∀ c, (Finset.univ.filter fun s =>
      cornerCells s ≠ emptyCell ∧ cellPieceColor (cornerCells s) = c).card ≤ 16)
    (by decide +kernel : ∀ c, ∃ k, ∀ s, cornerCells s = makeCell c .king ↔ s = k)
    (by decide +kernel : ∀ c s, cornerCells s = makeCell c .pawn → row s ≠ 0 ∧ row s ≠ 7)
    (by decide +kernel : ¬(position (cornerMateFields 0)).InCheck .white)

omit [Globals] in
theorem updateEnpassant_of_none {b : Board} (h : b.enpassantCoord = invalidCoord) :
    updateEnpassant b = b := if_neg (not_not_intro h)

theorem position_cornerMate (counter : BitVec 16) :
    position (cornerMate counter) = position (cornerMateFields 0) ∧ (cornerMate counter).side = .black :=
  position_update (b := cornerMateFields counter)
    (by decide : keptCastling cornerCells .black (keptCastling cornerCells .white Castling.none) =
      Castling.none)
    (congrArg Board.enpassantCoord (updateEnpassant_of_none rfl))

theorem moveCounter_cornerMate (counter : BitVec 16) : (cornerMate counter).moveCounter = counter := by
  obtain ⟨h, w, k, a, p, hu, -⟩ := update_spec (cornerMateFields counter)
  rw [cornerMate, hu]
  rfl

theorem isMoveValid_untag (b : Board) (m : Move) : isMoveValid b (untag m) = isMoveValid b m := rfl

theorem isMoveLegal_untag (b : Board) (m : Move) : isMoveLegal b (untag m) = isMoveLegal b m := rfl

theorem checkmated_cornerMate (counter : BitVec 16) : Checkmated (cornerMate counter) := by
  obtain ⟨hr, hl⟩ := valid_iff.mp (valid_cornerMate counter)
  obtain ⟨hpos, hside⟩ := position_cornerMate counter
  refine ⟨?_, fun m hw hv => ?_⟩
  · rw [isCheck_iff hr, hpos, hside]
    decide +kernel
  obtain he | ⟨k, s, t, he, hp⟩ := playable_cases hr ⟨hw, Or.inr hv⟩
  · rw [← isMoveValid_untag, he, isMoveValid_null] at hv
    cases hv
  have hmen : ∀ s pc, (position (cornerMateFields 0)).pieceAt s = some (.black, pc) →
      s = 0 ∧ pc = .king := by decide +kernel
  have hstep : ∀ t, Reaches (position (cornerMateFields 0)).occupied .black .king 0 t →
      ((position (cornerMateFields 0)).play .simple 0 t).InCheck .black := by decide +kernel
  have hcheck : ((position (cornerMate counter)).play k s t).InCheck (cornerMate counter).side := by
    rw [hpos] at hp ⊢
    rw [hside]
    cases hp with
    | piece hs hpc hr ht =>
      obtain ⟨rfl, rfl⟩ := hmen _ _ hs
      exact hstep t hr
    | push hs ho ht hk => cases (hmen _ _ hs).2
    | double hs hr ho ho' hu ht => cases (hmen _ _ hs).2
    | capture hs hr ht hk => cases (hmen _ _ hs).2
    | enpassant he hpe hs hr hc ho ht => cases (hmen _ _ hs).2
    | castlingKingside hf hk hr h5 h6 ha ha' => cases (hmen _ _ hr).2
    | castlingQueenside hf hk hr h1 h2 h3 ha ha' => cases (hmen _ _ hr).2
  rw [← isMoveLegal_untag, he, ← Bool.not_eq_true, isMoveLegal_iff hr hl hp]
  exact not_not_intro hcheck

variable [Evaluator]

omit [Globals] [Evaluator] in
theorem returns_mate_iff_cornerMate : letI := spreadGlobals; letI := plainEvaluator
    let s := Searcher.create (cornerMate 0) RepetitionTable.empty
    Returns s.board (doSearch Sorter.inserting keepingShuffler 0 (search Sorter.inserting keepingShuffler 0 0)
      .simple 3 1 0 1 () Flags.default) s (scoreCheckmateLose (1 : Nat)) ↔ s.board.moveCounter < 100 :=
  letI := spreadGlobals
  letI := plainEvaluator
  returns_mate_iff (s := Searcher.create (cornerMate 0) RepetitionTable.empty) Sorter.inserting
    keepingShuffler 0 (valid_cornerMate 0) (checkmated_cornerMate 0) Built.empty (by decide) (by decide) _
    (by decide) 0 1 () Flags.default

omit [Globals] [Evaluator] in
/-- The mate comes with the fiftieth move. -/
theorem not_returns_mate : letI := spreadGlobals; letI := plainEvaluator
    let s := Searcher.create (cornerMate 100) RepetitionTable.empty
    Valid s.board ∧ Checkmated s.board ∧
    ¬Returns s.board (doSearch Sorter.inserting keepingShuffler 0
      (search Sorter.inserting keepingShuffler 0 0) .simple 3 1 0 1 () Flags.default) s
        (scoreCheckmateLose (1 : Nat)) := by
  let _ := spreadGlobals
  let _ := plainEvaluator
  refine ⟨valid_cornerMate 100, checkmated_cornerMate 100, fun h => ?_⟩
  have hcounter : (cornerMate 100).moveCounter < 100 :=
    lt_of_returns (s := Searcher.create (cornerMate 100) RepetitionTable.empty) Sorter.inserting
      keepingShuffler 0 (by decide) _ (by decide) 0 1 () Flags.default h
  rw [moveCounter_cornerMate] at hcounter
  exact absurd hcounter (by decide)

end Corner

end SoFCheck.Search.Checkmates
