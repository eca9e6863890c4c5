import SoFCheck.Eval.Bounds
import SoFCheck.Eval.Incremental
import SoFCheck.Search.Recursion
import SoFCheck.Util.Threads

namespace SoFCheck.Search.Evaluations

open SoFCheck.Util.Imperative SoFCheck.Util.Imperative.Program
open SoFCheck.Core.Types SoFCheck.Core.BoardState SoFCheck.Core.Moves SoFCheck.Core.Attack
open SoFCheck.Core.Validate SoFCheck.Core.MoveMake SoFCheck.Core.MakeBoard SoFCheck.Core.Sequence
open SoFCheck.Core.CellSum SoFCheck.Core.Movegen SoFCheck.Eval.Score
open SoFCheck.Search.Tables SoFCheck.Search.Pickers SoFCheck.Search.PickerSteps
open SoFCheck.Search.TableData SoFCheck.Search.Job SoFCheck.Search.Discipline

section Parts

variable [Evaluator] [Globals]

/-- The tags that belong to a board stay so as moves are made. -/
structure Tracks (ok : Evaluator.Tag → Board → Prop) : Prop where
  ofBoard : ∀ b, ok (Evaluator.ofBoard b) b
  updated : ∀ {tag b m}, Valid b → Playable b m → ok tag b →
    ok (Evaluator.updated tag b m) (moveMake b m).1

variable (ok : Evaluator.Tag → Board → Prop) (limit : Int)

/-- The table and the evaluator are asked about valid boards, the evaluator with their tags. -/
def contract : Contract Answer Unit where
  guar _ q :=
    match q with
    | .load board | .store board _ => Valid board
    | .evalForCur board tag => Valid board ∧ ok tag board
    | _ => True
  rely := (Discipline.contract limit).rely
  mayStick := True

/-- What a part of the search asks of the table and of the evaluator. -/
def Evals {ρ α : Type} (m : Part ρ α) (s : Searcher) : Prop :=
  wp (contract ok limit) m (fun _ _ _ => True) (fun _ _ _ => True) () s

variable {ok limit} {root : Color} {idepth n : Nat} {s s' : Searcher} {ρ α β : Type}

theorem Evals.both {m : Part ρ α} {Q : α → Unit → Searcher → Prop} {R : ρ → Unit → Searcher → Prop}
    (h : Evals ok limit m s) (hm : wp (Discipline.contract limit) m Q R () s) :
    wp (contract ok limit) m Q R () s := by
  have hboth : wp (contract ok limit) m (fun a v s => Q a v s ∧ True) (fun r v s => R r v s ∧ True)
      () s := by
    refine wp_adapt ?_ ?_ ?_ (wp_both hm h)
    · exact fun _ _ hq => hq.2
    · exact fun _ _ _ _ hr => ⟨hr, hr⟩
    · exact fun _ => trivial
  exact wp_mono hboth (fun _ _ _ hout => hout.1) fun _ _ _ hout => hout.1

theorem Evals.bind {m : Part ρ α} {f : α → Part ρ β} {Q : α → Searcher → Prop}
    {R : ρ → Unit → Searcher → Prop} (h : Evals ok limit m s)
    (hm : wp (Discipline.contract limit) m (fun a _ => Q a) R () s)
    (hf : ∀ a s', Q a s' → Evals ok limit (f a) s') : Evals ok limit (m >>= f) s := by
  rw [Evals, wp_bind]
  exact wp_mono (h.both hm) (fun a _ s' hq => hf a s' hq) fun _ _ _ _ => trivial

/-- A part that does not ask them anything. -/
abbrev Mute (ok : Evaluator.Tag → Board → Prop) (limit : Int) (m : Part ρ α) : Prop :=
  Orderly (contract ok limit) (.invariant fun _ _ => True) m

theorem Mute.evals {m : Part ρ α} (h : Mute ok limit m) : Evals ok limit m s := h () s trivial

theorem Evals.bind_mute {m : Part ρ α} {f : α → Part ρ β} (h : Evals ok limit m s)
    (hf : ∀ a, Mute ok limit (f a)) : Evals ok limit (m >>= f) s := by
  rw [Evals, wp_bind]
  exact wp_mono h (fun a _ _ _ => Mute.evals (hf a)) fun _ _ _ _ => trivial

theorem mute_query (q : Question) (hq : (contract ok limit).guar () q) :
    Mute ok limit (query q : Part ρ (Answer q)) :=
  orderly_ask fun _ _ _ => ⟨hq, fun _ _ _ => trivial⟩

theorem Evals.call {m : Part α α} (h : Evals ok limit m s) :
    Evals ok limit (Program.call m : Part ρ α) s := (wp_call m).mpr h

theorem evals_ite {c : Prop} [Decidable c] {m m' : Part ρ α} (hm : c → Evals ok limit m s)
    (hm' : ¬c → Evals ok limit m' s) : Evals ok limit (if c then m else m') s := by
  split
  · rename_i h
    exact hm h
  · rename_i h
    exact hm' h

theorem mute_returnIfStopped (value : ρ) : Mute ok limit (returnIfStopped value) := by
  rw [returnIfStopped, mustStop]
  refine Orderly.bind ?_ fun _ => orderly_ite (orderly_earlyReturn value) (orderly_pure ())
  refine (mute_query .isStopped trivial).bind fun _ => orderly_ite (orderly_pure true) ?_
  refine (orderly_modify fun _ _ _ => trivial).bind fun _ => (orderly_gets _).bind fun _ => ?_
  refine orderly_ite (mute_query .checkTimeout trivial) ?_
  exact (mute_query .depth trivial).bind fun _ => (orderly_gets _).bind fun _ => orderly_pure _

theorem Evals.searched {m : Part β β} (h : Evals ok limit m s) (value : ρ) (f : β → α) :
    Evals ok limit (do
      let score ← Program.call m
      returnIfStopped value
      pure (f score) : Part ρ α) s :=
  h.call.bind_mute fun _ => (mute_returnIfStopped value).bind fun _ => orderly_pure _

theorem evals_withMove (hok : Tracks ok) {move : Move} {tag : Evaluator.Tag}
    {body : Evaluator.Tag → Part ρ α} (h : Ready root idepth s) (hm : Playable s.board move)
    (htag : ok tag s.board)
    (hbody : ∀ tag, ok tag (made s move).board → Evals ok limit (body tag) (made s move)) :
    Evals ok limit (withMove move tag body) s := by
  rw [Evals, withMove]
  simp only [wp_bind, wp_gets, wp_guarded]
  exact hbody _ (hok.updated h.valid hm htag)

theorem evals_query (h : Ready root idepth s) {tag : Evaluator.Tag} (htag : ok tag s.board) :
    Evals ok limit (query (.evalForCur s.board tag) : Part ρ Int) s :=
  ⟨⟨h.valid, htag⟩, fun _ _ _ => trivial⟩

section Quiescence

variable (S : Sorter)

/-- A turn of the loop leaves everything in order. -/
theorem tidy_quiescenseTurn {levels : Nat} {move : Move} (h : Ready root idepth s)
    (hm : move = Move.null ∨ PseudoMove s.board move)
    (hdown : PseudoMove s.board move → menAndPawns (made s move).board.cells < levels)
    (alpha beta : Int) (tag : Evaluator.Tag) (picker : QuiescenseMovePicker) :
    wp (Discipline.contract limit)
      (quiescenseTurn (quiescenseSearch S levels) beta tag move picker alpha)
      (fun _ _ => Restored root n s) (fun _ _ => Restored root n s) () s := by
  rw [quiescenseTurn, wp_ite]
  split
  · exact h.refl n
  rename_i hnull
  have hpseudo := hm.resolve_left hnull
  rw [wp_bind]
  refine wp_mono (wp_withMove (n := n) (Q := fun _ => True) h hpseudo.playable fun tag => ?_)
    (fun found _ s' hfound => ?_) fun _ _ _ h' => h'
  · rw [quiescenseMove, wp_bind, wp_gets, wp_ite]
    split
    · rename_i hlegal
      have hmade := h.made hpseudo.playable hlegal
      have hrec : wp (Discipline.contract limit)
          (quiescenseSearch S levels (toScore (-beta)) (toScore (-alpha)) tag)
          (fun _ _ => Restored root n (made s move)) (fun _ _ => Restored root n (made s move)) ()
          (made s move) := tidy_quiescenseSearch S levels _ _ tag hmade (hdown hpseudo)
      exact wp_mono (wp_searched hmade hrec 0 _) (fun _ _ _ h' => ⟨h', trivial⟩) fun _ _ _ h' => h'
    · exact ⟨restored_made h move, trivial⟩
  · cases found with
    | none => exact hfound.1
    | some score =>
      simp only [wp_bind, wp_ask, wp_ite]
      refine ⟨trivial, fun _ _ _ => ?_⟩
      split
      · exact hfound.1
      · exact hfound.1

theorem evals_quiescenseTurn (hok : Tracks ok) {levels : Nat} {move : Move}
    (h : Ready root idepth s) (hm : move = Move.null ∨ PseudoMove s.board move)
    (hrec : ∀ alpha beta tag, Ready root (idepth + 1) (made s move) → PseudoMove s.board move →
      ok tag (made s move).board →
      Evals ok limit (quiescenseSearch S levels alpha beta tag) (made s move))
    (alpha beta : Int) {tag : Evaluator.Tag} (htag : ok tag s.board) (picker : QuiescenseMovePicker) :
    Evals ok limit (quiescenseTurn (quiescenseSearch S levels) beta tag move picker alpha) s := by
  rw [quiescenseTurn]
  refine evals_ite (fun _ => trivial) fun hnull => ?_
  have hpseudo := hm.resolve_left hnull
  refine Evals.bind_mute (evals_withMove hok h hpseudo.playable htag fun tag htag => ?_) fun found => ?_
  · rw [quiescenseMove, Evals, wp_bind, wp_gets]
    refine evals_ite (fun hlegal => ?_) fun _ => trivial
    exact (hrec _ _ tag (h.made hpseudo.playable hlegal) hpseudo htag).searched 0 _
  · cases found with
    | none => exact orderly_pure alpha
    | some score =>
      exact (mute_query .useScore trivial).bind fun _ => orderly_ite (orderly_earlyReturn beta) (orderly_pure _)

theorem evals_quiescenseSearch (hok : Tracks ok) (levels : Nat) (alpha beta : Int)
    {tag : Evaluator.Tag} (h : Ready root idepth s) (hlevels : menAndPawns s.board.cells < levels)
    (htag : ok tag s.board) : Evals ok limit (quiescenseSearch S levels alpha beta tag) s := by
  induction levels generalizing alpha beta tag s idepth with
  | zero => exact absurd hlevels (Nat.not_lt_zero _)
  | succ levels ih =>
    have hreg := (valid_iff.mp h.valid).1
    rw [quiescenseSearch, Evals, wp_bind, wp_gets, wp_ite]
    split
    · trivial
    rw [wp_bind, wp_ask]
    refine ⟨⟨h.valid, htag⟩, fun evalScore _ _ => ?_⟩
    rw [wp_ite]
    split
    · trivial
    refine wp_mono (R := fun _ _ _ => True) (wp_forLoop (fun picker _ _ s' => Restored root 0 s s' ∧
      OffersForcing s.board picker) (forcingLeft s.board) ?_ pickerTurns
      (Or.inr trivial) ⟨h.refl 0, offersForcing_create hreg⟩)
      (fun _ _ _ _ => trivial) fun _ _ _ _ => trivial
    intro picker alpha _ s' move picker' hinv hnext
    obtain ⟨hrestored, hoffers⟩ := hinv
    refine ⟨Or.inr trivial, ?_⟩
    rw [nextOfQuiescence] at hnext
    obtain hinvalid | ⟨hforcing, hoffers', -⟩ := quiescence_next_spec (S := S) hreg hoffers
    · rw [if_pos hinvalid] at hnext
      cases hnext
    split at hnext
    · cases hnext
    have hout := Option.some.inj hnext
    rw [hout, ← hrestored.board] at hforcing hoffers'
    have h' := h.after hrestored
    -- Each capture or promotion takes something off the board.
    have hdown : PseudoMove s'.board move → menAndPawns (made s' move).board.cells < levels := by
      intro hpseudo
      have hless := menAndPawns_moveMake (valid_iff.mp h'.valid).1 hpseudo.playable hpseudo.kind_ne
        hforcing.2
      exact lt_of_lt_of_le hless (hrestored.board ▸ Nat.le_of_lt_succ hlevels)
    have hturn : Evals ok limit
        (quiescenseTurn (quiescenseSearch S levels) beta tag move picker' alpha) s' :=
      evals_quiescenseTurn S hok h' (Or.inr hforcing.1)
        (fun alpha beta tag hmade hpseudo htag => ih alpha beta hmade (hdown hpseudo) htag) alpha beta
        (hrestored.board ▸ htag) picker'
    exact wp_mono (hturn.both (tidy_quiescenseTurn S h' (Or.inr hforcing.1) hdown alpha beta tag picker'))
      (fun _ _ _ h'' => ⟨hrestored.trans h'', hrestored.board ▸ hoffers'⟩) fun _ _ _ _ => trivial

end Quiescence

section Node

variable (S : Sorter) (D : Shuffler) (jobId : Nat)

theorem evals_quiescense (hok : Tracks ok) (h : Ready root idepth s) (alpha beta : Int)
    {tag : Evaluator.Tag} (htag : ok tag s.board) :
    Evals ok limit (quiescenseSearch S quiescenseLevels alpha beta tag) s :=
  evals_quiescenseSearch S hok quiescenseLevels alpha beta h
    ((menAndPawns_le (valid_iff.mp h.valid).1).trans_lt (by decide)) htag

theorem evals_leafSearch (hok : Tracks ok) (h : Ready root idepth s) (alpha beta : Int)
    {tag : Evaluator.Tag} (htag : ok tag s.board) : Evals ok limit (leafSearch S alpha beta tag) s :=
  evals_ite (fun _ => trivial) fun _ => evals_ite (fun _ => trivial) fun _ =>
    (evals_quiescense S hok h alpha beta htag).call

theorem evals_getEvalScore (h : Ready root idepth s) {tag : Evaluator.Tag} (htag : ok tag s.board)
    (evalScore : Option Int) : Evals ok limit (getEvalScore tag evalScore) s := by
  cases evalScore with
  | none => exact evals_query h htag
  | some score => trivial

theorem evals_futility (h : Ready root idepth s) (depth beta : Int) {tag : Evaluator.Tag}
    (htag : ok tag s.board) : Evals ok limit (futility depth beta tag) s := by
  rw [futility]
  refine evals_ite (fun _ => ?_) fun _ => trivial
  exact (evals_getEvalScore h htag none).bind_mute fun _ =>
    orderly_ite (orderly_earlyReturn beta) (orderly_pure _)

theorem evals_razoring (hok : Tracks ok) (h : Ready root idepth s) (depth alpha : Int)
    {tag : Evaluator.Tag} (htag : ok tag s.board) (evalScore : Option Int) :
    Evals ok limit (razoring S depth alpha tag evalScore) s := by
  rw [razoring]
  refine evals_ite (fun _ => ?_) fun _ => trivial
  refine (evals_getEvalScore h htag evalScore).bind (tidy_getEvalScore (n := 0) tag evalScore () s h)
    fun score s' h' => ?_
  refine evals_ite (fun _ => ?_) fun _ => trivial
  exact (evals_quiescense S hok (h.after h') _ _ (h'.board ▸ htag)).call.bind_mute fun _ =>
    orderly_ite (orderly_earlyReturn alpha) (orderly_pure ())

theorem evals_ttStore (h : Ready root n s) (alpha beta depth score : Int) :
    Evals ok limit (ttStore alpha beta depth idepth score) s := by
  rw [ttStore, Evals, wp_bind, wp_gets]
  refine evals_ite (fun _ => ?_) fun _ => trivial
  exact ⟨h.valid, fun _ _ _ => trivial⟩

theorem evals_takeScore (h : Ready root idepth s) (node : NodeKind) (depth alpha beta : Int)
    {move : Move} (hm : move.isWellFormed s.board.side = true) (stage : MovePickerStage) (l : Locals)
    (score : Int) (numHistoryMoves : Nat) : Evals ok limit
      (takeScore node depth idepth alpha beta move stage l score numHistoryMoves) s := by
  rw [takeScore, Evals, wp_bind, wp_ask]
  refine ⟨trivial, fun _ _ _ => ?_⟩
  rw [wp_bind, wp_modify]
  obtain ⟨s₁, hs₁, h₁⟩ : ∃ s₁, (if score > l.alpha then s.setBestMove idepth move else s) = s₁ ∧
      Restored root idepth s s₁ := by
    split
    · exact ⟨_, rfl, h.setBestMove move⟩
    · exact ⟨_, rfl, h.refl idepth⟩
  rw [hs₁]
  refine evals_ite (fun _ => ?_) fun _ => trivial
  rw [Evals, wp_bind, wp_modify]
  obtain ⟨s₂, hs₂, h₂⟩ : ∃ s₂, (if node ≠ .root ∧
      stage.toNat ≥ MovePickerStage.killer.toNat then s₁.addKiller idepth move depth else s₁) = s₂ ∧
      Restored root idepth s s₂ := by
    split
    · exact ⟨_, rfl, h₁.trans ((h.after h₁).addKiller (h₁.board ▸ hm) depth)⟩
    · exact ⟨_, rfl, h₁⟩
  rw [hs₂]
  exact (evals_ttStore (h.after h₂) alpha beta depth beta).bind_mute fun _ => orderly_earlyReturn beta

theorem evals_probe (h : Ready root n s) (node : NodeKind) (depth alpha beta : Int) :
    Evals ok limit (probe node depth idepth alpha beta) s := by
  rw [probe, Evals, wp_bind, wp_gets, wp_bind, wp_ask]
  refine ⟨h.valid, fun data _ _ => ?_⟩
  refine Mute.evals (orderly_ite (Orderly.bind ?_ fun allow => ?_) (orderly_pure _))
  · rw [allowCutoff]
    exact orderly_ite (orderly_ite (mute_query (.isCurrentEpoch data) trivial) (orderly_pure true))
      (orderly_pure false)
  · have hset : Mute ok limit (modify fun s => s.setBestMove idepth data.move : Part Int Unit) :=
      orderly_modify fun _ _ _ => trivial
    exact orderly_ite (hset.bind fun _ => orderly_earlyReturn _) (orderly_pure _)

/-- The searches of the children ask what they should. -/
def EvalSearch (ok : Evaluator.Tag → Board → Prop) (limit : Int) (root : Color) (idepth : Nat)
    (search : Recurse) : Prop :=
  ∀ node depth alpha beta tag flags s, node ≠ .root → depth ≤ limit → Ready root idepth s →
    ok tag s.board → Evals ok limit (search node depth idepth alpha beta tag flags) s

variable {search : Recurse} (hok : Tracks ok) (hevals : EvalSearch ok limit root (idepth + 1) search)

include hok hevals

theorem evals_nullMoveReduction (h : Ready root idepth s) (hcheck : isCheck s.board = false)
    {depth : Int} (hmax : depth ≤ limit) (beta : Int) {tag : Evaluator.Tag} (htag : ok tag s.board)
    (flags : Flags) : Evals ok limit (nullMoveReduction search depth idepth beta tag flags) s := by
  have hnull : Playable s.board Move.null := ⟨by cases s.board.side <;> decide, Or.inl rfl⟩
  have hlegal : wasMoveLegal (moveMake s.board Move.null).1 = true := by
    rw [wasMoveLegal_null (valid_iff.mp h.valid).1, hcheck]
    rfl
  rw [nullMoveReduction]
  refine Evals.bind_mute (evals_withMove hok h hnull htag fun tag htag => ?_)
    fun score => orderly_ite (orderly_pure _) (orderly_pure _)
  rw [searchNullMove]
  refine Evals.searched (hevals .simple _ _ _ tag _ _ ?_ ?_ (h.made hnull hlegal) htag) 0 _
  · simp
  · rw [NullMove.depthDec]
    omega

theorem evals_prune (h : Ready root idepth s) (node : NodeKind) {depth : Int} (hmax : depth ≤ limit) (alpha beta : Int) {tag : Evaluator.Tag}
    (htag : ok tag s.board) (flags : Flags) : Evals ok limit
      (prune S search node depth idepth alpha beta tag flags (isCheck s.board)) s := by
  rw [prune]
  refine evals_ite (fun hcond => ?_) fun _ => trivial
  have hcheck : isCheck s.board = false := by
    simp only [Bool.and_eq_true, Bool.not_eq_true'] at hcond
    exact hcond.1.2
  refine (evals_futility h depth beta htag).bind (tidy_futility (n := 0) depth beta tag () s h)
    fun evalScore s₁ h₁ => ?_
  have hready := h.after h₁
  refine (evals_razoring S hok hready depth alpha (h₁.board ▸ htag) evalScore).bind
    (tidy_razoring (n := 0) S depth alpha tag evalScore () s₁ hready) fun _ s₂ h₂ => ?_
  have h' := h₁.trans h₂
  refine evals_ite (fun hnull => ?_) fun _ => trivial
  exact evals_nullMoveReduction hok hevals (h.after h') (h'.board ▸ hcheck) hmax beta (h'.board ▸ htag)
    flags

omit hok in
theorem evals_lateMoveReduction (h : Ready root (idepth + 1) s) (lmrEnabled : Bool) {depth : Int}
    (hmax : depth ≤ limit) (alpha : Int) {tag : Evaluator.Tag} (htag : ok tag s.board)
    (newFlags : Flags) : Evals ok limit
      (lateMoveReduction lmrEnabled search depth idepth alpha tag newFlags) s := by
  refine evals_ite (fun _ => ?_) fun _ => trivial
  refine Evals.searched (hevals .simple _ _ _ tag _ _ ?_ ?_ h htag) 0 _
  · simp
  · rw [LateMove.reduceDepth]
    omega

omit hok in
theorem evals_fullWindowSearch (h : Ready root (idepth + 1) s) (node : NodeKind) {depth : Int}
    (hmax : depth ≤ limit) (alpha beta : Int) {tag : Evaluator.Tag} (htag : ok tag s.board)
    (newFlags : Flags) : Evals ok limit
      (fullWindowSearch search node depth idepth alpha beta tag newFlags) s := by
  refine Evals.searched (hevals _ _ _ _ tag _ _ ?_ (by omega) h htag) 0 _
  split <;> simp

variable (htidy : TidySearch limit root (idepth + 1) search)

include htidy

omit hok in
theorem evals_pvSearch (h : Ready root (idepth + 1) s) (node : NodeKind) {depth : Int}
    (hmax : depth ≤ limit) (alpha beta : Int) {tag : Evaluator.Tag} (htag : ok tag s.board)
    (newFlags : Flags) (isFirstMove : Bool) : Evals ok limit
      (pvSearch search node depth idepth alpha beta tag newFlags isFirstMove) s := by
  rw [pvSearch]
  refine evals_ite (fun _ => ?_) fun _ => evals_fullWindowSearch hevals h node hmax alpha beta htag _
  have hzero : Evals ok limit (zeroWindowSearch search depth idepth alpha tag newFlags) s :=
    Evals.searched (hevals .simple _ _ _ tag _ _ (by simp) (by omega) h htag) 0 _
  have hkept : Tidy limit root (idepth + 1) 0
      (zeroWindowSearch search depth idepth alpha tag newFlags) := by
    intro _ s h
    have hchild := htidy .simple (depth - 1) (toScore (-alpha - 1)) (toScore (-alpha)) tag newFlags
      (by simp) (by omega) () s h
    exact wp_searched h (wp_mono hchild (fun _ _ _ h' => h'.mono (Nat.zero_le _)) fun _ _ _ h' =>
      h'.mono (Nat.zero_le _)) 0 _
  refine hzero.bind (hkept () s h) fun score s' h' => evals_ite (fun _ => ?_) fun _ => trivial
  exact evals_fullWindowSearch hevals (h.after h') node hmax alpha beta (h'.board ▸ htag) newFlags

omit hok in
theorem evals_searchMove (h : Ready root idepth s) (node : NodeKind) {depth : Int}
    (hmax : depth ≤ limit) (beta : Int) (flags : Flags) {move : Move} (hm : PseudoMove s.board move)
    (stage : MovePickerStage) (l : Locals) {tag : Evaluator.Tag} (htag : ok tag (made s move).board) :
    Evals ok limit (searchMove search node depth idepth beta flags move stage l tag)
      (made s move) := by
  rw [searchMove, Evals, wp_bind, wp_gets]
  refine evals_ite (fun hlegal => ?_) fun _ => trivial
  have hmade := h.made hm.playable hlegal
  refine (evals_lateMoveReduction hevals hmade _ hmax l.alpha htag _).bind
    (tidy_lateMoveReduction htidy _ hmax l.alpha tag _ () _ hmade) fun isReduced s' h' => ?_
  refine evals_ite (fun _ => trivial) fun _ => Evals.bind_mute ?_ fun score => orderly_pure _
  exact evals_pvSearch hevals htidy (hmade.after h') node hmax l.alpha beta (h'.board ▸ htag) _ _

theorem evals_nodeTurn (h : Ready root idepth s) (node : NodeKind) {depth : Int}
    (hmax : depth ≤ limit) (alpha beta : Int) {tag : Evaluator.Tag} (htag : ok tag s.board)
    (flags : Flags) {move : Move} (hm : move = Move.null ∨ PseudoMove s.board move)
    (picker : NodePicker) (l : Locals) : Evals ok limit
      (nodeTurn search node depth idepth alpha beta tag flags move picker l) s := by
  rw [nodeTurn]
  refine evals_ite (fun _ => trivial) fun hnull => ?_
  have hpseudo := hm.resolve_left hnull
  have hscope : wp (Discipline.contract limit)
      (withMove move tag (searchMove search node depth idepth beta flags move picker.stage l))
      (fun result _ s' => Restored root (idepth + 1) s s' ∧
        (result ≠ MoveResult.illegal → SafeMove s.board move))
      (fun _ _ => Restored root (idepth + 1) s) () s :=
    wp_withMove (Q := fun result => result ≠ MoveResult.illegal → SafeMove s.board move) h
      hpseudo.playable fun tag => wp_searchMove htidy h node hmax beta flags hpseudo picker.stage l tag
  rw [Evals, wp_bind]
  refine wp_mono ((evals_withMove hok h hpseudo.playable htag fun tag htag => ?_).both hscope)
    (fun result _ s' h' => ?_) fun _ _ _ _ => trivial
  · exact evals_searchMove hevals htidy h node hmax beta flags hpseudo picker.stage l htag
  · obtain ⟨hrestored, -⟩ := h'
    have hm' : move.isWellFormed s'.board.side = true := by
      rw [hrestored.board]
      exact hpseudo.1
    cases result with
    | illegal => trivial
    | reduced numHistoryMoves => trivial
    | searched score numHistoryMoves =>
      exact evals_takeScore (h.after hrestored) node depth alpha beta hm' _ l score _

theorem evals_searchMoves (h : Ready root idepth s) (hbest : BestLegal idepth s) (node : NodeKind)
    {depth : Int} (hmin : 0 < depth) (hmax : depth ≤ limit) (alpha beta : Int) {tag : Evaluator.Tag}
    (htag : ok tag s.board) (flags : Flags) {hashMove : Move}
    (hh : hashMove = Move.null ∨ PseudoMove s.board hashMove) (isInCheck : Bool) : Evals ok limit
      (searchMoves S D jobId search node depth idepth alpha beta tag flags hashMove isInCheck) s := by
  obtain ⟨picker, hpicker, hoffers, -⟩ := createPicker_spec S D jobId node
    h.valid hh (h.side ▸ h.killers idepth)
  rw [searchMoves, Evals, wp_bind, wp_tryModify]
  refine ⟨fun _ => trivial, fun picker' s₁ hsome => ?_⟩
  obtain ⟨rfl, rfl⟩ := Prod.mk.inj (Option.some.inj (hpicker.symm.trans hsome))
  have hend : ∀ (l : Locals) s', Restored root idepth s s' → Evals ok limit (if l.hasMove then do
      ttStore alpha beta depth idepth l.alpha
      pure l.alpha
    else pure (if isInCheck then scoreCheckmateLose idepth else 0) : Part Int Int) s' := by
    intro l s' h'
    refine evals_ite (fun _ => ?_) fun _ => trivial
    exact (evals_ttStore (h.after h') alpha beta depth l.alpha).bind_mute fun _ => orderly_pure _
  rw [wp_bind]
  refine wp_mono (R := fun _ _ _ => True) (wp_forLoop (fun picker _ _ s' => Restored root idepth s s' ∧
    BestLegal idepth s' ∧ NodeOffers s.board hashMove picker) (nodeTurnsLeft s.board) ?_ pickerTurns
    (Or.inr trivial) ⟨h.refl _, hbest, hoffers⟩) (fun l _ s' h' => ?_) fun _ _ _ _ => trivial
  rotate_left
  · obtain ⟨_, hinv, -⟩ := h'
    exact hend l s' hinv.1
  intro picker l _ s' move picker' hinv hnext
  obtain ⟨hrestored, hbest', hoffers'⟩ := hinv
  have h' := h.after hrestored
  rw [← hrestored.board] at hoffers' hh
  obtain ⟨hm, hoffers'', -⟩ := nextOfPicker_spec S (valid_iff.mp h'.valid).1 hh
    (h'.side ▸ h'.killers idepth) hoffers' hnext
  rw [hrestored.board] at hoffers''
  have hturn := evals_nodeTurn hok hevals htidy h' node hmax alpha beta (hrestored.board ▸ htag) flags
    hm picker' l
  refine ⟨Or.inr trivial, ?_⟩
  exact wp_mono
    (hturn.both (wp_nodeTurn htidy h' hbest' node hmin hmax alpha beta tag flags hm picker' l))
    (fun _ _ _ h'' => ⟨hrestored.trans h''.1, h''.2, hoffers''⟩) fun _ _ _ _ => trivial

omit hevals htidy

theorem evals_doSearch
    (hevals : idepth + 1 ≠ maxStackDepth → EvalSearch ok limit root (idepth + 1) search)
    (htidy : idepth + 1 ≠ maxStackDepth → TidySearch limit root (idepth + 1) search)
    (h : Ready root idepth s) (node : NodeKind) {depth : Int} (hmax : depth ≤ limit) (alpha beta : Int)
    {tag : Evaluator.Tag} (htag : ok tag s.board) (flags : Flags) : Evals ok limit
      (doSearch S D jobId search node depth idepth alpha beta tag flags) s := by
  have h₁ := h.setBestMove Move.null
  have hready := h.after h₁
  have hbest : BestLegal idepth (s.setBestMove idepth Move.null) :=
    Or.inl (bestMove_setBestMove s idepth Move.null)
  rw [doSearch, Evals, wp_bind, wp_modify, wp_bind, wp_gets]
  refine evals_ite (fun _ => trivial) fun _ => ?_
  refine evals_ite (fun _ => evals_leafSearch S hok hready alpha beta htag) fun hdepth => ?_
  rw [not_or, not_le] at hdepth
  have hwithin := @wp_probe _ _ limit _ _ _ hready node depth alpha beta
  refine (evals_probe hready node depth alpha beta).bind hwithin fun hashMove s₂ h₂ => ?_
  obtain ⟨rfl, hh⟩ := h₂
  refine (evals_prune S hok (hevals hdepth.2) hready node hmax alpha beta htag flags).bind
    (wp_prune S (htidy hdepth.2) hready node hdepth.1 hmax alpha beta tag flags) fun reduced s₃ h₃ => ?_
  obtain ⟨h₃, hmin, hle⟩ := h₃
  exact evals_searchMoves S D jobId hok (hevals hdepth.2) (htidy hdepth.2)
    (hready.after (h₃.mono (Nat.le_succ idepth))) (hbest.after h₃) node hmin (hle.trans hmax) alpha beta
    (h₃.board.symm ▸ htag) reduced.2 (h₃.board.symm ▸ hh) _

theorem evals_searchNode
    (hevals : idepth + 1 ≠ maxStackDepth → EvalSearch ok limit root (idepth + 1) search)
    (htidy : idepth + 1 ≠ maxStackDepth → TidySearch limit root (idepth + 1) search)
    (h : Ready root idepth s) (node : NodeKind) {depth : Int} (hmax : depth ≤ limit) (alpha beta : Int)
    {tag : Evaluator.Tag} (htag : ok tag s.board) (flags : Flags) : Evals ok limit
      (searchNode S D jobId search node depth idepth alpha beta tag flags) s := by
  obtain ⟨e, he, hsound⟩ := h.room
  obtain ⟨t, e', hinsert, hsound', he', hkeys⟩ := RepetitionTable.insert_spec hsound he s.board.hash
  have hins : insertHash s = some (!s.repetitions.has s.board.hash, { s with repetitions := t }) := by
    rw [insertHash, hinsert]
    rfl
  rw [searchNode, Evals, wp_bind, wp_tryModify]
  refine ⟨fun _ => trivial, fun isNew s₁ hsome => ?_⟩
  obtain ⟨rfl, rfl⟩ := Prod.mk.inj (Option.some.inj (hins.symm.trans hsome))
  have h₁ : Ready root idepth { s with repetitions := t } :=
    ⟨h.valid, h.side, ⟨e', he', hsound'⟩, h.killers⟩
  refine evals_ite (fun _ => ?_) fun _ => trivial
  exact (evals_doSearch S D jobId hok hevals htidy h₁ node hmax alpha beta htag flags).call.bind_mute
    fun score => (orderly_modify fun _ _ _ => trivial).bind fun _ => orderly_pure score

theorem evals_search (left : Nat) (hleft : idepth + left + 1 = maxStackDepth)
    (h : Ready root idepth s) (node : NodeKind) {depth : Int} (hmax : depth ≤ limit) (alpha beta : Int)
    {tag : Evaluator.Tag} (htag : ok tag s.board) (flags : Flags) : Evals ok limit
      (Job.search S D jobId left node depth idepth alpha beta tag flags) s := by
  induction left generalizing node depth idepth alpha beta tag flags s with
  | zero =>
    exact evals_searchNode S D jobId hok (fun hne => absurd hleft hne) (fun hne => absurd hleft hne) h
      node hmax alpha beta htag flags
  | succ left ih =>
    refine evals_searchNode S D jobId hok (fun _ => ?_) (fun _ => ?_) h node hmax alpha beta htag flags
    · intro node depth alpha beta tag flags s _ hmax h htag
      exact ih (by omega) h node hmax alpha beta htag flags
    · intro node depth alpha beta tag flags _ hmax
      exact tidy_search S D jobId left (by omega) node hmax alpha beta tag flags

theorem evals_run (h : Ready root 0 s) (depth : Nat) : Evals ok depth (run S D jobId depth) s := by
  have h' : Ready root 0 { s with depth := depth } := ⟨h.valid, h.side, h.room, h.killers⟩
  rw [run, Evals, wp_bind, wp_modify, wp_bind, wp_gets]
  have hsearch : Evals ok depth (Job.search S D jobId (maxStackDepth - 1) .root depth 0 (-scoreInf)
      scoreInf (Evaluator.ofBoard s.board) Flags.default) { s with depth := depth } :=
    evals_search S D jobId hok (maxStackDepth - 1) (by decide) h' .root le_rfl _ _ (hok.ofBoard s.board) _
  exact hsearch.call.bind_mute fun score => (orderly_gets _).bind fun bestMove => orderly_pure _

end Node

end Parts

section Shipped

open SoFCheck.Eval.Weights SoFCheck.Eval.Evaluate
open SoFCheck.Eval SoFCheck.Eval.Incremental SoFCheck.Eval.Shipped SoFCheck.Eval.PawnCache
open SoFCheck.Eval.Bounds SoFCheck.Search.Recursion SoFCheck.Search.FirstMoves
open SoFCheck.Search.Aborts (keepingShuffler)

/-- The tags that `Evaluator<score_t>` computes from scratch. -/
def shippedTag (b : Board) : Tag ScorePair := tagFrom (scoreWeights weightValues) shippedFeatures.psq b

/-- `Evaluator<score_t>`; there is always room in a sum of scores. -/
@[reducible] def shippedEvaluator : Evaluator where
  Tag := Tag ScorePair
  ofBoard := shippedTag
  updated tag b m := (tag.updated (scoreWeights weightValues) shippedFeatures.psq b m).getD tag

theorem balanced_shipped (b : Board) (m : Move) : Balanced weightValues shippedFeatures.psq b m := by
  have hleast : least weightValues shippedFeatures.psq .king 62 = false ∧
      least weightValues shippedFeatures.psq .rook 61 = false ∧
      least weightValues shippedFeatures.psq .king 60 = false ∧
      least weightValues shippedFeatures.psq .rook 63 = false ∧
      least weightValues shippedFeatures.psq .king 58 = false ∧
      least weightValues shippedFeatures.psq .rook 59 = false ∧
      least weightValues shippedFeatures.psq .rook 56 = false := by decide +kernel
  obtain ⟨h1, h2, h3, h4, h5, h6, h7⟩ := hleast
  intro _
  rw [h1, h2, h3, h4, h5, h6, h7]
  exact ⟨fun _ => rfl, fun _ => rfl⟩

theorem tracks_shipped [Globals] : letI := shippedEvaluator
    Tracks fun (tag : Tag ScorePair) b => tag = shippedTag b := by
  let _ := shippedEvaluator
  refine ⟨fun _ => rfl, ?_⟩
  intro tag b m hb hm htag
  have hreg := (valid_iff.mp hb).1
  have hvalid : tag.isValid (scoreWeights weightValues) shippedFeatures.psq b = true := by
    rw [htag]
    exact isValid_tagFrom scoreDenotation b
  obtain ⟨tag', hupd, htag'⟩ := (isValid_step (D := scoreDenotation)
    (psq_emptyCell_score weightValues shippedFeatures.psq) hreg hm hvalid).mpr
      ⟨isSome_updated_score hreg hm, (castlingError_score weightValues shippedFeatures.psq b m).mpr
        (balanced_shipped b m)⟩
  rw [Tag.isValid, Bool.and_eq_true, beq_iff_eq, beq_iff_eq] at htag'
  have hnext : (tag.updated (scoreWeights weightValues) shippedFeatures.psq b m).getD tag = tag' := by
    rw [hupd]
    rfl
  show (tag.updated (scoreWeights weightValues) shippedFeatures.psq b m).getD tag = _
  rw [hnext]
  obtain ⟨cost, stage⟩ := tag'
  obtain ⟨rfl, rfl⟩ := htag'
  rfl

variable [Globals] (S : Sorter) (D : Shuffler) (jobId : Nat) {root : Color}

/-- Whatever a search asks the evaluator is about a valid board and comes with the tag that would
be computed from scratch for it. So nothing overflows, and no answer looks like a checkmate. -/
theorem evaluations_current {s : Searcher} (h : Ready root 0 s) (depth : Nat) :
    letI := shippedEvaluator
    ∀ l b (tag : Tag ScorePair) (a : Int) l' t,
      (run S D jobId depth s).Leads (l ++ ⟨.evalForCur b tag, a⟩ :: l') t → Honest l →
      Valid b ∧ tag = shippedTag b ∧
        ∃ score, exactScore weightValues shippedFeatures b = some score ∧
          evalUncached (scoreWeights weightValues) shippedFeatures b tag = some score ∧
          -scoreCheckmateThreshold < score ∧ score < scoreCheckmateThreshold := by
  let _ := shippedEvaluator
  intro l b tag a l' t hl hhonest
  have hhonest' : (Discipline.contract depth).Path () l () := path_of_honest hhonest
  have hpath : (contract (fun (tag : Tag ScorePair) b => tag = shippedTag b) depth).Path () l () :=
    hhonest'.of_rely fun _ _ _ _ hr => hr
  have hevals : Evals (fun (tag : Tag ScorePair) b => tag = shippedTag b) depth
      (run S D jobId depth) s := evals_run S D jobId tracks_shipped h depth
  obtain ⟨hb, htag⟩ := hpath.asks hl hevals
  obtain ⟨score, hexact, hlo, hhi⟩ := exactScore_bounds (valid_iff.mp hb).1
  have huncached := score_exact weightValues shippedFeatures b hexact
  exact ⟨hb, htag, score, hexact, htag ▸ huncached, hlo.trans_lt' (by decide),
    hhi.trans_lt (by decide)⟩

omit [Globals] in
theorem evaluations_current_pawns : letI := spreadGlobals; letI := shippedEvaluator
    ∃ (l : List (Sigma Answer)) (b : Board) (tag : Tag ScorePair) (a : Int)
        (l' : List (Sigma Answer)) (t : Dialogue Answer (Except (Int × Move) (Int × Move) × Searcher)),
      (run Sorter.inserting keepingShuffler 0 1 pawnsSearcher).Leads
        (l ++ ⟨.evalForCur b tag, a⟩ :: l') t ∧ sameBoard b pawns = false ∧
      Valid b ∧ tag = shippedTag b ∧
        ∃ score, exactScore weightValues shippedFeatures b = some score ∧
          evalUncached (scoreWeights weightValues) shippedFeatures b tag = some score ∧
          -scoreCheckmateThreshold < score ∧ score < scoreCheckmateThreshold := by
  let _ := spreadGlobals
  let _ := shippedEvaluator
  have hevaluates : (pawnsTalk keepingShuffler).any evaluatesNext = true := by decide +kernel
  obtain ⟨b, tag, a, hmem, hnext⟩ := exists_evaluatesNext hevaluates
  obtain ⟨t, ht⟩ := leads_pawnsTalk keepingShuffler
  obtain ⟨l, l', hl⟩ := List.append_of_mem hmem
  have hhonest : Honest l := by
    intro b data hmem hvalid
    have htalk : (⟨.load b, data⟩ : Sigma Answer) ∈ pawnsTalk keepingShuffler := by
      rw [hl]
      exact List.mem_append_left _ hmem
    have hzero : data = Data.zero := reply_of_mem_pawnsTalk keepingShuffler htalk
    rw [hzero] at hvalid
    exact absurd hvalid (by decide)
  rw [hl] at ht
  exact ⟨l, b, tag, a, l', t, ht, hnext, evaluations_current Sorter.inserting keepingShuffler 0
    (ready_create valid_pawns ⟨5, by decide, RepetitionTable.Sound.empty⟩) 1 l b tag a l' t ht hhonest⟩

end Shipped

end SoFCheck.Search.Evaluations
