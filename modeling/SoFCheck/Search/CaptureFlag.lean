import SoFCheck.Search.Aborts
import SoFCheck.Search.Discipline

namespace SoFCheck.Search.CaptureFlag

open SoFCheck.Util.Imperative SoFCheck.Util.Imperative.Program
open SoFCheck.Core.Types SoFCheck.Core.BoardState SoFCheck.Core.Moves SoFCheck.Core.Attack
open SoFCheck.Core.Validate SoFCheck.Core.MoveMake SoFCheck.Core.MakeCells SoFCheck.Core.MakeBoard
open SoFCheck.Core.CellView SoFCheck.Core.MakeRegular SoFCheck.Core.Movegen SoFCheck.Core.Sequence
open SoFCheck.Core.InitialPosition SoFCheck.Eval.Score SoFCheck.Search.Tables SoFCheck.Search.Pickers
open SoFCheck.Search.PickerSteps SoFCheck.Search.Job SoFCheck.Search.Discipline
open SoFCheck.Search.Aborts (plainEvaluator keepingShuffler)

section Moves

variable [Globals] {b : Board} {m : Move}

/-- The move takes a piece of the enemy, perhaps en passant. -/
def Captures (b : Board) (m : Move) : Prop :=
  (∃ p, b.cells (toSquare m.dst) = makeCell (invert b.side) p) ∨ m.kind = .enpassant

omit [Globals] in
theorem movedCells_dst {f : Square → Cell} {c : Color} {k : MoveKind} {s t : Square}
    (h : Shape f c k s t) (hk : k ≠ .null) : movedCells f c k s t t ≠ emptyCell := by
  cases k with
  | null => exact absurd rfl hk
  | invalid => exact h.elim
  | simple =>
    obtain ⟨-, ⟨p, hp⟩, -⟩ := h
    simp [movedCells, relocateCells, hp]
  | pawnDoubleMove =>
    obtain ⟨-, hp, -⟩ := h
    simp [movedCells, relocateCells, hp]
  | enpassant =>
    obtain ⟨-, -, hne, hp, -⟩ := h
    simp [movedCells, relocateCells, hp, Function.update_of_ne hne]
  | castlingKingside =>
    obtain ⟨rfl, rfl, hp, -⟩ := h
    simp [movedCells, relocateCells, hp, homeCell_inj]
  | castlingQueenside =>
    obtain ⟨rfl, rfl, -, -, -, hp⟩ := h
    simp [movedCells, relocateCells, hp, homeCell_inj]
  | promoteKnight | promoteBishop | promoteRook | promoteQueen =>
    simp [movedCells, relocateCells]

theorem isMoveCapture_made (hb : Regular b) (hm : PseudoMove b m) :
    isMoveCapture (moveMake b m).1 m = true := by
  obtain he | ⟨k, s, t, he, hp⟩ := playable_cases hb hm.playable
  · exact absurd (congrArg Move.kind he) hm.kind_ne
  have hshape := shape_of_pseudo hb hp
  have hcells : (moveMake b m).1.cells = movedCells b.cells b.side k s t := by
    change (moveMake b (untag m)).1.cells = _
    rw [he]
    exact moveMake_cells hb.synced hshape
  have hdst : m.dst = toCoord t := congrArg Move.dst he
  have hkind : m.kind = k := congrArg Move.kind he
  rw [isMoveCapture, hcells, hdst, toSquare_toCoord, Bool.or_eq_true, bne_iff_ne]
  exact Or.inl (movedCells_dst hshape (hkind ▸ hm.kind_ne))

end Moves

section Flags

variable [Evaluator]

/-- A part of the search only calls the search with flags that have `P`: what the
search does otherwise does not matter. -/
def CallsWith {ρ α : Type} (P : Flags → Prop) (part : Recurse → Part ρ α) (s : Searcher) : Prop :=
  ∀ search search' : Recurse,
    (∀ node depth idepth alpha beta tag flags, P flags →
      search node depth idepth alpha beta tag flags = search' node depth idepth alpha beta tag flags) →
    part search s = part search' s

omit [Evaluator] in
theorem capture_or (flags extra : Flags) :
    ((flags ||| Flags.capture) ||| extra) &&& Flags.capture ≠ Flags.none := by
  intro h
  have hbit := congrArg (fun x : Flags => x.getLsbD 0) h
  simp [Flags.capture, Flags.none] at hbit

/-- The flags tell whether the move captured something. -/
def Truthful (captures : Prop) (flags : Flags) : Prop :=
  flags &&& Flags.capture ≠ Flags.none ↔ captures

end Flags

section Turns

variable [Evaluator] [Globals] {root : Color} {idepth : Nat} {s : Searcher} {move : Move}
variable {node : NodeKind} {depth origAlpha beta : Int} {tag : Evaluator.Tag} {flags : Flags}
variable {picker : NodePicker} {l : Locals} {search search' : Recurse}

/-- The flags of the recursive calls in the scope of a move. -/
def toldFlags (flags : Flags) : Flags := (flags &&& Flags.inherit) ||| Flags.capture

theorem searchMove_made (hb : Valid s.board) (hm : SafeMove s.board move) (search : Recurse)
    (stage : MovePickerStage) :
    searchMove search node depth idepth beta flags move stage l tag (made s move) = (do
      let numHistoryMoves :=
        if node ≠ .root ∧ stage = .history then l.numHistoryMoves + 1 else l.numHistoryMoves
      let lmrEnabled := decide (node ≠ .root ∧ l.hasMove = true ∧ node.isPv = false ∧
        depth ≥ LateMove.minDepth ∧ stage = .history ∧ numHistoryMoves > LateMove.movesNoReduce ∧
        isCheck (made s move).board = false)
      let isReduced ← lateMoveReduction lmrEnabled search depth idepth l.alpha tag (toldFlags flags)
      if isReduced then pure (.reduced numHistoryMoves)
      else
        let score ← pvSearch search node depth idepth l.alpha beta tag (toldFlags flags) (!l.hasMove)
        pure (.searched score numHistoryMoves) : Part Int MoveResult) (made s move) := by
  have hlegal : wasMoveLegal (made s move).board = true := hm.2
  have hcapture : isMoveCapture (made s move).board move = true :=
    isMoveCapture_made (valid_iff.mp hb).1 hm.1
  have hread : searchMove search node depth idepth beta flags move stage l tag (made s move) =
    (if wasMoveLegal (made s move).board then _ else _ : Part Int MoveResult) (made s move) := rfl
  rw [hread, if_pos hlegal, if_pos hcapture]
  rfl

theorem searchMove_congr (hb : Valid s.board) (hm : SafeMove s.board move)
    (h : ∀ extra node depth idepth alpha beta tag,
      search node depth idepth alpha beta tag (toldFlags flags ||| extra) =
        search' node depth idepth alpha beta tag (toldFlags flags ||| extra))
    (stage : MovePickerStage) :
    searchMove search node depth idepth beta flags move stage l tag (made s move) =
      searchMove search' node depth idepth beta flags move stage l tag (made s move) := by
  have htold : ∀ node depth idepth alpha beta tag,
      search node depth idepth alpha beta tag (toldFlags flags) =
        search' node depth idepth alpha beta tag (toldFlags flags) := by
    intro node depth idepth alpha beta tag
    have hzero : toldFlags flags ||| (0 : Flags) = toldFlags flags := BitVec.or_zero
    exact hzero ▸ h 0 node depth idepth alpha beta tag
  rw [searchMove_made hb hm, searchMove_made hb hm]
  simp only [lateMoveReduction, pvSearch, zeroWindowSearch, fullWindowSearch, h, htold]

theorem withMove_congr {ρ α : Type} {body body' : Evaluator.Tag → Part ρ α}
    (h : ∀ tag, body tag (made s move) = body' tag (made s move)) :
    withMove move tag body s = withMove move tag body' s := by
  have hscope : ∀ body : Evaluator.Tag → Part ρ α, withMove move tag body s =
      (body (Evaluator.updated tag s.board move) (made s move)).bind fun out => .done (out.1,
        { out.2 with board := moveUnmake out.2.board move (moveMake s.board move).2 }) := fun _ => rfl
  rw [hscope, hscope, h]

theorem callsWith_of_captures (hb : Valid s.board) (hm : SafeMove s.board move)
    (h : Captures s.board move) :
    CallsWith (Truthful (Captures s.board move)) (fun search =>
      nodeTurn search node depth idepth origAlpha beta tag flags move picker l) s := by
  intro search search' hagree
  have hne : move ≠ Move.null := fun he => hm.1.kind_ne (congrArg Move.kind he)
  have hscope : withMove move tag (searchMove search node depth idepth beta flags move picker.stage l) s =
      withMove move tag (searchMove search' node depth idepth beta flags move picker.stage l) s := by
    refine withMove_congr fun tag => searchMove_congr hb hm (fun extra node depth idepth alpha beta tag => ?_)
      picker.stage
    exact hagree node depth idepth alpha beta tag _ (iff_of_true (capture_or _ extra) h)
  show (nodeTurn search node depth idepth origAlpha beta tag flags move picker l) s =
    (nodeTurn search' node depth idepth origAlpha beta tag flags move picker l) s
  rw [nodeTurn, nodeTurn, if_neg hne, if_neg hne]
  exact congrArg (fun d : Dialogue Answer _ => d.bind _) hscope

/-- A thread that asks something first is told apart from one that is stuck. -/
def asking : Contract Answer Unit := ⟨fun _ _ => True, fun _ _ _ _ => False, False⟩

omit [Globals] in
theorem wp_congr {ρ α : Type} {m m' : Part ρ α} {Q : α → Unit → Searcher → Prop}
    {R : ρ → Unit → Searcher → Prop} {v : Unit} (h : m s = m' s) :
    wp asking m Q R v s ↔ wp asking m' Q R v s := by
  unfold wp
  rw [h]

omit [Globals] in
theorem wp_called {ρ β : Type} (c : Part Int Int) (f : Int → Part ρ β) (value : ρ)
    (Q : β → Unit → Searcher → Prop) (R : ρ → Unit → Searcher → Prop) :
    wp asking (do
        let score ← Program.call c
        returnIfStopped value
        f score) Q R () s ↔
      wp asking c (fun _ _ _ => True) (fun _ _ _ => True) () s := by
  rw [wp_bind, wp_call]
  have hask : ∀ score v s, wp asking (do
      returnIfStopped value
      f score : Part ρ β) Q R v s := fun score v s => ⟨trivial, fun _ _ h => h.elim⟩
  constructor
  · intro h
    exact wp_mono h (fun _ _ _ _ => trivial) fun _ _ _ _ => trivial
  · intro h
    exact wp_mono h (fun score v s _ => hask score v s) fun score v s _ => hask score v s

/-- What a turn does first, if the move is legal, is a recursive call. -/
theorem wp_nodeTurn_first (hb : Valid s.board) (hm : SafeMove s.board move) {search : Recurse}
    (c : Part Int Int) (hsearch : ∀ extra node depth idepth alpha beta tag,
      search node depth idepth alpha beta tag (toldFlags flags ||| extra) = c) :
    wp asking (nodeTurn search node depth idepth origAlpha beta tag flags move picker l)
      (fun _ _ _ => True) (fun _ _ _ => True) () s ↔
    wp asking c (fun _ _ _ => True) (fun _ _ _ => True) () (made s move) := by
  have hne : move ≠ Move.null := fun he => hm.1.kind_ne (congrArg Move.kind he)
  have htold : ∀ node depth idepth alpha beta tag,
      search node depth idepth alpha beta tag (toldFlags flags) = c := by
    have hzero : toldFlags flags ||| (0 : Flags) = toldFlags flags := BitVec.or_zero
    exact hzero ▸ hsearch 0
  have hrest : ∀ (lmrEnabled : Bool) (n : Nat) (tag : Evaluator.Tag)
      (Q : MoveResult → Unit → Searcher → Prop) (R : Int → Unit → Searcher → Prop),
      wp asking (do
        let isReduced ← lateMoveReduction lmrEnabled search depth idepth l.alpha tag (toldFlags flags)
        if isReduced then pure (.reduced n)
        else
          let score ← pvSearch search node depth idepth l.alpha beta tag (toldFlags flags) (!l.hasMove)
          pure (.searched score n) : Part Int MoveResult) Q R () (made s move) ↔
      wp asking c (fun _ _ _ => True) (fun _ _ _ => True) () (made s move) := by
    intro lmrEnabled n tag Q R
    cases lmrEnabled with
    | true =>
      rw [lateMoveReduction, if_pos rfl, hsearch, wp_bind]
      exact wp_called c _ 0 _ _
    | false =>
      rw [lateMoveReduction, if_neg Bool.false_ne_true, wp_bind, wp_pure, if_neg Bool.false_ne_true,
        wp_bind, pvSearch, wp_ite]
      split
      · rw [wp_bind, zeroWindowSearch, htold]
        exact wp_called c _ 0 _ _
      · rw [fullWindowSearch, htold]
        exact wp_called c _ 0 _ _
  rw [nodeTurn, if_neg hne, wp_bind, withMove]
  simp only [wp_bind, wp_gets, wp_guarded]
  exact (wp_congr (searchMove_made hb hm search picker.stage)).trans (hrest _ _ _ _ _)

theorem captures_of_callsWith (hb : Valid s.board) (hm : SafeMove s.board move)
    (h : CallsWith (Truthful (Captures s.board move)) (fun search =>
      nodeTurn search node depth idepth origAlpha beta tag flags move picker l) s) :
    Captures s.board move := by
  by_contra hquiet
  have hsame := h (fun _ _ _ _ _ _ _ => pure 0)
    (fun _ _ _ _ _ _ flags => if flags &&& Flags.capture = Flags.none then pure 0 else stuck)
    fun _ _ _ _ _ _ flags htruth => (if_pos (of_not_not fun hne => hquiet (htruth.mp hne))).symm
  have hgoes : wp asking (nodeTurn (fun _ _ _ _ _ _ _ => pure 0) node depth idepth origAlpha beta tag
      flags move picker l) (fun _ _ _ => True) (fun _ _ _ => True) () s :=
    (wp_nodeTurn_first hb hm (pure 0) fun _ _ _ _ _ _ _ => rfl).mpr trivial
  exact (wp_nodeTurn_first hb hm stuck fun extra _ _ _ _ _ _ => if_neg (capture_or _ extra)).mp
    ((wp_congr hsame).mp hgoes)

/-- The flags with which the search of a legal move goes on say whether it is a capture
only if it is one: they always say so. -/
theorem callsWith_iff (hb : Valid s.board) (hm : SafeMove s.board move) (node : NodeKind)
    (depth : Int) (idepth : Nat) (origAlpha beta : Int) (tag : Evaluator.Tag) (flags : Flags)
    (picker : NodePicker) (l : Locals) :
    CallsWith (Truthful (Captures s.board move)) (fun search =>
      nodeTurn search node depth idepth origAlpha beta tag flags move picker l) s ↔
    Captures s.board move :=
  ⟨captures_of_callsWith hb hm, callsWith_of_captures hb hm⟩

omit [Globals] [Evaluator] in
theorem safeMove_firstMove : letI := spreadGlobals; SafeMove initialPosition firstMove := by
  let _ := spreadGlobals
  refine ⟨⟨playable_firstMove.1, playable_firstMove.2.resolve_left (by decide)⟩, ?_⟩
  exact (valid_iff.mp (valid_moveMake valid_initialPosition legalStep_firstMove)).2

omit [Globals] [Evaluator] in
theorem not_captures_firstMove : letI := spreadGlobals; ¬Captures initialPosition firstMove := by
  let _ := spreadGlobals
  intro h
  obtain ⟨p, hp⟩ | hk := h
  · revert p
    decide +kernel
  · exact absurd hk (by decide)

omit [Globals] [Evaluator] in
theorem callsWith_iff_firstMove : letI := spreadGlobals; letI := plainEvaluator
    CallsWith (Truthful (Captures initialPosition firstMove)) (fun search =>
      nodeTurn search .pv 6 1 0 100 () Flags.default firstMove
        (.inner (MovePicker.create initialPosition Move.null)) ⟨0, false, 0⟩)
      (Searcher.create initialPosition RepetitionTable.empty) ↔
    Captures initialPosition firstMove :=
  letI := spreadGlobals
  letI := plainEvaluator
  callsWith_iff (s := Searcher.create initialPosition RepetitionTable.empty) valid_initialPosition
    safeMove_firstMove .pv 6 1 0 100 () Flags.default _ ⟨0, false, 0⟩

omit [Globals] [Evaluator] in
/-- A pawn moves forward, and its move is said to be a capture. -/
theorem not_callsWith : letI := spreadGlobals; letI := plainEvaluator
    Valid initialPosition ∧ SafeMove initialPosition firstMove ∧
    ¬CallsWith (Truthful (Captures initialPosition firstMove)) (fun search =>
      nodeTurn search .pv 6 1 0 100 () Flags.default firstMove
        (.inner (MovePicker.create initialPosition Move.null)) ⟨0, false, 0⟩)
      (Searcher.create initialPosition RepetitionTable.empty) := by
  let _ := spreadGlobals
  let _ := plainEvaluator
  refine ⟨valid_initialPosition, safeMove_firstMove, fun h => not_captures_firstMove ?_⟩
  exact captures_of_callsWith (s := Searcher.create initialPosition RepetitionTable.empty)
    valid_initialPosition safeMove_firstMove h

theorem prune_told (S : Sorter) (search search' : Recurse) (node : NodeKind) (depth : Int)
    (idepth : Nat) (alpha beta : Int) (tag : Evaluator.Tag) (flags extra : Flags) (isInCheck : Bool) :
    prune S search node depth idepth alpha beta tag (toldFlags flags ||| extra) isInCheck =
      prune S search' node depth idepth alpha beta tag (toldFlags flags ||| extra) isInCheck := by
  have hdisabled : ¬((toldFlags flags ||| extra) &&& Flags.nullMoveDisable = Flags.none) := by
    intro h
    have hbit := congrArg (fun x : Flags => x.getLsbD 0) h
    simp [toldFlags, Flags.nullMoveDisable, Flags.nullMove, Flags.nullMoveReduction, Flags.capture,
      Flags.none] at hbit
  simp only [prune, hdisabled, and_false, if_false]

end Turns

end SoFCheck.Search.CaptureFlag
