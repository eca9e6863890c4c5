import SoFCheck.Search.JobRun

namespace SoFCheck.Search.Iterations

open SoFCheck.Util.Imperative SoFCheck.Util.Imperative.Program
open SoFCheck.Core.Types SoFCheck.Core.BoardState SoFCheck.Core.Moves SoFCheck.Core.Validate
open SoFCheck.Core.MoveMake SoFCheck.Core.Sequence SoFCheck.Core.InitialPosition
open SoFCheck.Core.CellSum
open SoFCheck.Search.Tables SoFCheck.Search.Pickers SoFCheck.Search.Job SoFCheck.Search.Types
open SoFCheck.Search.Discipline SoFCheck.Search.Recursion SoFCheck.Search.RootMove
open SoFCheck.Search.JobRun
open SoFCheck.Search.UnwindPv (after)
open SoFCheck.Search.Aborts (keepingShuffler)
open SoFCheck.Search.Evaluations (shippedEvaluator)

section Model

variable [Evaluator] [Globals] (S : Sorter) (D : Shuffler) (jobId : Nat)

/-- The searchers that `Job::run` starts an iteration of some depth with. The iterations before it
may have been left early. -/
inductive Called (position : Position) : Nat → Searcher → Prop
  | first {board : Board} {doubleRepeat : RepetitionTable}
      (h : fillRepetitions position.moves position.first .empty .empty = some (board, doubleRepeat)) :
      Called position 1 (Searcher.create board doubleRepeat)
  | next {depth : Nat} {s s' : Searcher} {l : List (Sigma Answer)} {out : Int × Move}
      (h : Called position depth s) (hl : Runs (run S D jobId depth) s l (.ok out) s')
      (hhonest : Honest l) : Called position (depth + 1) s'

/-- The moves of the table can be made, and no score is one that there cannot be. -/
structure Credible (l : List (Sigma Answer)) : Prop where
  honest : Honest l
  scores : ∀ e ∈ l, Windows.contract.erase.rely () e.1 e.2 ()

/-- No call of `mustStop` stops the search. -/
def Completed (depth : Nat) (l : List (Sigma Answer)) : Prop :=
  ∀ e ∈ l, Aborts.outcome depth e ≠ some true

/-- If the iteration is not left early, it returns a legal move. -/
def Yields (depth : Nat) (s : Searcher) : Prop :=
  ∀ l out s', Runs (run S D jobId depth) s l (.ok out) s' → Credible l → Completed depth l →
    LegalMove s.board out.2

end Model

section Iterations

variable [Evaluator] [Globals] {S : Sorter} {D : Shuffler} {jobId depth : Nat} {position : Position}
variable {root : Board} {repeated : Prop} {s : Searcher} {l : List (Sigma Answer)}

theorem between_of_called (hvalid : Valid (after position.first position.moves))
    (h : Called S D jobId position depth s) :
    1 ≤ depth ∧ Between (after position.first position.moves) (Repeated position) s := by
  induction h with
  | first hfill =>
    obtain ⟨t, hfill', hbetween⟩ := between_create hvalid
    obtain ⟨rfl, rfl⟩ := Prod.mk.inj (Option.some.inj (hfill.symm.trans hfill'))
    exact ⟨le_rfl, hbetween⟩
  | next h hl hhonest ih =>
    have hend := ends_with (wp_run_between S D jobId ih.2 ih.1) hl hhonest
    exact ⟨Nat.le_succ_of_le ih.1, hend.1⟩

theorem path_of_completed (h : Credible l) (hc : Completed depth l) : (steady depth).Path () l () := by
  induction l with
  | nil => exact .nil ()
  | cons e l ih =>
    obtain ⟨hhonest, hscores⟩ := h
    have hrest : Credible l := by
      refine ⟨fun b data hmem => hhonest b data (List.mem_cons_of_mem _ hmem), fun e' hmem => ?_⟩
      exact hscores e' (List.mem_cons_of_mem _ hmem)
    refine .cons ⟨?_, hscores e List.mem_cons_self, hc e List.mem_cons_self⟩
      (ih hrest fun e' hmem => hc e' (List.mem_cons_of_mem _ hmem))
    obtain ⟨q, a⟩ := e
    cases q with
    | load b => exact hhonest b a List.mem_cons_self
    | _ => trivial

theorem yields_iff_has (h : Between root repeated s) (hdepth : 1 ≤ depth) (hmove : ∃ m, LegalMove root m) :
    Yields S D jobId depth s ↔
      (s.repetitions.has s.board.hash = true → LegalMove s.board (s.stack 0).bestMove) := by
  obtain ⟨m, hm⟩ := hmove
  have hsafe : ∃ m, SafeMove s.board m := ⟨m, (safeMove_iff h.ready.valid).mpr (h.board.symm ▸ hm)⟩
  constructor
  · intro hyields hold
    obtain ⟨out, s', hrun, hout⟩ := runs_of_mute (wp_run_repeated S D jobId h.ready hold depth)
    have hmove := hyields [] out s' hrun ⟨fun b data hmem => absurd hmem List.not_mem_nil,
      fun e hmem => absurd hmem List.not_mem_nil⟩ fun e hmem => absurd hmem List.not_mem_nil
    rw [hout] at hmove
    exact hmove
  · intro hold l out s' hrun hcredible hcompleted
    obtain ⟨hlegal, hbest⟩ := (path_of_completed hcredible hcompleted).keeps hrun
      (wp_run_steady S D jobId h.ready hdepth hsafe)
    cases hhas : s.repetitions.has s.board.hash with
    | false => exact (safeMove_iff h.ready.valid).mp (hlegal hhas)
    | true =>
      have hout : out.2 = (s.stack 0).bestMove := hbest hhas
      rw [hout]
      exact hold hhas

/-- An iteration that is not left early returns a legal move, unless the table of repetitions
has the board already. That is so when the position occurred at least twice before. -/
theorem yields_iff (hvalid : Valid (after position.first position.moves))
    (hmove : ∃ m, LegalMove (after position.first position.moves) m)
    (h : Called S D jobId position depth s) :
    s.board = after position.first position.moves ∧
    (Yields S D jobId depth s ↔
      (s.repetitions.has s.board.hash = true → LegalMove s.board (s.stack 0).bestMove)) ∧
    ((after position.first position.moves).hash ≠ 0 →
      (Yields S D jobId depth s ↔ (passed position.first position.moves).count
        (after position.first position.moves).hash < 2)) := by
  obtain ⟨hdepth, hbetween⟩ := between_of_called hvalid h
  have hiff : Yields S D jobId depth s ↔ _ := yields_iff_has hbetween hdepth hmove
  refine ⟨hbetween.board, hiff, fun hhash => hiff.trans ?_⟩
  rw [hbetween.has_iff hhash, ← not_le]
  constructor
  · intro hlegal hrepeated
    have hnull := hlegal hrepeated
    rw [hbetween.unnamed hhash hrepeated] at hnull
    exact Bool.false_ne_true hnull.valid
  · exact fun hnew hrepeated => absurd hrepeated hnew

end Iterations

section Knights

theorem valid_after [Globals] {b : Board} {ms : List Move} (hb : Valid b) (h : Along LegalMove b ms) :
    Valid (after b ms) := by
  rw [after, foldl_moveMake]
  exact valid_along hb h

/-- Two knights go out and come back, so many times. -/
def outAndBack : Nat → List Move
  | 0 => []
  | n + 1 => mkMove .simple 62 47 :: mkMove .simple 6 21 :: mkMove .simple 47 62 ::
      mkMove .simple 21 6 :: outAndBack n

abbrev outAndBackGame [Globals] (n : Nat) : Position := Position.fromMoves initialPosition (outAndBack n)

theorem valid_outAndBackGame [Globals] (n : Nat) : Valid (outAndBackGame n).first :=
  valid_initialPosition

theorem legal_outAndBackGame : letI := spreadGlobals
    ∀ n ∈ [1, 2], Along LegalMove (outAndBackGame n).first (outAndBackGame n).moves ∧
      LegalMove (after (outAndBackGame n).first (outAndBackGame n).moves) (mkMove .simple 62 47) := by
  decide +kernel

theorem valid_last_outAndBackGame : letI := spreadGlobals
    ∀ n ∈ [1, 2], Valid (outAndBackGame n).last := by
  let _ := spreadGlobals
  intro n hn
  have hafter := valid_after (valid_outAndBackGame n) (legal_outAndBackGame n hn).1
  exact hafter

theorem passed_outAndBackGame : letI := spreadGlobals
    ∀ n ∈ [1, 2], (after (outAndBackGame n).first (outAndBackGame n).moves).hash ≠ 0 ∧
      (passed (outAndBackGame n).first (outAndBackGame n).moves).count
        (after (outAndBackGame n).first (outAndBackGame n).moves).hash = n := by
  decide +kernel

/-- When the knights have come back once, the first iteration finds a move. -/
theorem yields_iff_once : letI := spreadGlobals; letI := shippedEvaluator
    ∃ s, Called Sorter.inserting keepingShuffler 0 (outAndBackGame 1) 1 s ∧
      Yields Sorter.inserting keepingShuffler 0 1 s := by
  let _ := spreadGlobals
  let _ := shippedEvaluator
  obtain ⟨hlegal, hmove⟩ := legal_outAndBackGame 1 (by decide)
  obtain ⟨hhash, hcount⟩ := passed_outAndBackGame 1 (by decide)
  have hvalid := valid_after (valid_outAndBackGame 1) hlegal
  obtain ⟨t, hfill, -⟩ := between_create hvalid
  have hcalled : Called Sorter.inserting keepingShuffler 0 (outAndBackGame 1) 1 _ := .first hfill
  have hiff := (yields_iff hvalid ⟨_, hmove⟩ hcalled).2.2 hhash
  exact ⟨_, hcalled, hiff.mpr (lt_of_eq_of_lt hcount (by decide))⟩

/-- When they have come back twice, it finds none. -/
theorem not_yields_twice : letI := spreadGlobals; letI := shippedEvaluator
    Valid (outAndBackGame 2).first ∧ Along LegalMove (outAndBackGame 2).first (outAndBackGame 2).moves ∧
      (∃ m, LegalMove (after (outAndBackGame 2).first (outAndBackGame 2).moves) m) ∧
      ∃ s, Called Sorter.inserting keepingShuffler 0 (outAndBackGame 2) 1 s ∧
        ¬Yields Sorter.inserting keepingShuffler 0 1 s := by
  let _ := spreadGlobals
  let _ := shippedEvaluator
  obtain ⟨hlegal, hmove⟩ := legal_outAndBackGame 2 (by decide)
  obtain ⟨hhash, hcount⟩ := passed_outAndBackGame 2 (by decide)
  have hvalid := valid_after (valid_outAndBackGame 2) hlegal
  obtain ⟨t, hfill, hbetween⟩ := between_create hvalid
  refine ⟨valid_outAndBackGame 2, hlegal, ⟨_, hmove⟩, _, .first hfill, fun hyields => ?_⟩
  have hnull := (yields_iff_has hbetween le_rfl ⟨_, hmove⟩).mp hyields
    ((hbetween.has_iff hhash).mpr (le_of_eq hcount.symm))
  exact Bool.false_ne_true hnull.valid

end Knights

end SoFCheck.Search.Iterations
