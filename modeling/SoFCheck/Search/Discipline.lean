import SoFCheck.Core.CellSum
import SoFCheck.Search.Job
import SoFCheck.Search.PickerSteps

namespace SoFCheck.Search.Discipline

open SoFCheck.Util.Imperative SoFCheck.Util.Imperative.Program
open SoFCheck.Core.Types SoFCheck.Core.BoardState SoFCheck.Core.Moves SoFCheck.Core.Attack
open SoFCheck.Core.Validate SoFCheck.Core.MoveMake SoFCheck.Core.MakeBoard SoFCheck.Core.Movegen
open SoFCheck.Core.Sequence SoFCheck.Core.CellSum SoFCheck.Eval.Score SoFCheck.Search.Tables
open SoFCheck.Search.Pickers SoFCheck.Search.Enumeration SoFCheck.Search.PickerSteps
open SoFCheck.Search.TableData SoFCheck.Search.Job

section Promises

variable [Globals]

/-- The side to move some plies after the root. -/
def plyColor (root : Color) (idepth : Nat) : Color :=
  if idepth % 2 = 0 then root else invert root

omit [Globals] in
theorem plyColor_succ (root : Color) (idepth : Nat) :
    plyColor root (idepth + 1) = invert (plyColor root idepth) := by
  rw [plyColor, plyColor]
  split <;> split <;> first | omega | simp [invert_invert]

/-- A pseudo-legal move that does not leave the king in check. -/
def SafeMove (b : Board) (m : Move) : Prop :=
  PseudoMove b m ∧ wasMoveLegal (moveMake b m).1 = true

theorem safeMove_iff {b : Board} {m : Move} (hb : Valid b) : SafeMove b m ↔ LegalMove b m := by
  obtain ⟨hr, hl⟩ := valid_iff.mp hb
  constructor
  · intro h
    exact ⟨h.1.1, h.1.2, (isMoveLegal_eq hr hl h.1.playable).trans h.2⟩
  · intro h
    have hpseudo : PseudoMove b m := ⟨h.wellFormed, h.valid⟩
    exact ⟨hpseudo, (isMoveLegal_eq hr hl hpseudo.playable).symm.trans h.legal⟩

/-- A move of the transposition table can be made on the board it is loaded for. -/
def Fits (b : Board) (data : Data) : Prop :=
  data.isValid = true → data.move = Move.null ∨ PseudoMove b data.move

/-- An entry of a search that is at most `limit` deep. -/
def Storable (limit : Int) (b : Board) (data : Data) : Prop :=
  SafeMove b data.move ∧ ∃ move score depth bound,
    data = Data.of move score depth bound ∧ 1 ≤ depth ∧ depth ≤ limit

/-- The state in which a node is entered. -/
structure Ready (root : Color) (idepth : Nat) (s : Searcher) : Prop where
  valid : Valid s.board
  side : s.board.side = plyColor root idepth
  room : ∃ e ≤ 62, s.repetitions.Sound e
  killers : ∀ i, Built (plyColor root i) (s.stack i).killers

/-- What a node leaves as it was: the board, the keys of the repetition table and
the frames of the nodes above it. -/
structure Restored (root : Color) (idepth : Nat) (s s' : Searcher) : Prop where
  board : s'.board = s.board
  keys : ∀ x, x ≠ 0 → (s'.repetitions.Holds x ↔ s.repetitions.Holds x)
  frames : ∀ i < idepth, s'.stack i = s.stack i
  room : ∃ e ≤ 62, s'.repetitions.Sound e
  killers : ∀ i, Built (plyColor root i) (s'.stack i).killers

variable {root : Color} {idepth : Nat} {s s' s'' : Searcher} {move : Move}

theorem Ready.refl (h : Ready root idepth s) (n : Nat) : Restored root n s s :=
  ⟨rfl, fun _ _ => Iff.rfl, fun _ _ => rfl, h.room, h.killers⟩

theorem Ready.after {n : Nat} (h : Ready root idepth s) (h' : Restored root n s s') :
    Ready root idepth s' :=
  ⟨h'.board ▸ h.valid, h'.board ▸ h.side, h'.room, h'.killers⟩

omit [Globals] in
theorem Restored.trans {n : Nat} (h : Restored root n s s') (h' : Restored root n s' s'') :
    Restored root n s s'' :=
  ⟨h'.board.trans h.board, fun x hx => (h'.keys x hx).trans (h.keys x hx),
    fun i hi => (h'.frames i hi).trans (h.frames i hi), h'.room, h'.killers⟩

omit [Globals] in
theorem Restored.mono {n m : Nat} (h : Restored root n s s') (hm : m ≤ n) : Restored root m s s' :=
  ⟨h.board, h.keys, fun i hi => h.frames i (hi.trans_le hm), h.room, h.killers⟩

omit [Globals] in
theorem Restored.congr {n : Nat} (h : Restored root n s s') (hb : s''.board = s'.board)
    (hr : s''.repetitions = s'.repetitions) (hs : s''.stack = s'.stack) : Restored root n s s'' :=
  ⟨hb.trans h.board, hr ▸ h.keys, hs ▸ h.frames, hr ▸ h.room, hs ▸ h.killers⟩

/-- The state in the scope of a move. -/
def made (s : Searcher) (move : Move) : Searcher := { s with board := (moveMake s.board move).1 }

theorem Ready.made (h : Ready root idepth s) (hm : Playable s.board move)
    (hlegal : wasMoveLegal (moveMake s.board move).1 = true) :
    Ready root (idepth + 1) (made s move) where
  valid := valid_iff.mpr ⟨regular_playable h.valid hm, hlegal⟩
  side := by
    rw [plyColor_succ, ← h.side]
    exact moveMake_side s.board move
  room := h.room
  killers := h.killers

theorem Restored.unmake {n : Nat} (h : Ready root idepth s) (hm : Playable s.board move)
    (h' : Restored root n (Discipline.made s move) s') :
    Restored root n s { s' with board := moveUnmake s'.board move (moveMake s.board move).2 } where
  board := by
    rw [h'.board]
    exact moveUnmake_playable h.valid hm
  keys := h'.keys
  frames := h'.frames
  room := h'.room
  killers := h'.killers

/-- The best move of a node is legal, if there is one. -/
def BestLegal (idepth : Nat) (s : Searcher) : Prop :=
  (s.stack idepth).bestMove = Move.null ∨ SafeMove s.board (s.stack idepth).bestMove

theorem BestLegal.after (h : BestLegal idepth s) (h' : Restored root (idepth + 1) s s') :
    BestLegal idepth s' := by
  rw [BestLegal, h'.board, h'.frames idepth (Nat.lt_succ_self idepth)]
  exact h

theorem Ready.setBestMove (h : Ready root idepth s) (move : Move) :
    Restored root idepth s (s.setBestMove idepth move) where
  board := rfl
  keys := fun _ _ => Iff.rfl
  frames := fun i hi => Function.update_of_ne hi.ne _ _
  room := h.room
  killers := fun i => by
    rw [Searcher.setBestMove, Searcher.setFrame]
    dsimp only
    rw [Function.update_apply]
    split
    · rename_i hi
      exact hi ▸ h.killers i
    · exact h.killers i

omit [Globals] in
theorem bestMove_setBestMove (s : Searcher) (idepth : Nat) (move : Move) :
    ((s.setBestMove idepth move).stack idepth).bestMove = move := by
  simp [Searcher.setBestMove, Searcher.setFrame]

theorem Ready.addKiller (h : Ready root idepth s) (hm : move.isWellFormed s.board.side = true)
    (depth : Int) : Restored root idepth s (s.addKiller idepth move depth) where
  board := rfl
  keys := fun _ _ => Iff.rfl
  frames := fun i hi => Function.update_of_ne hi.ne _ _
  room := h.room
  killers := fun i => by
    rw [Searcher.addKiller, Searcher.setFrame]
    dsimp only
    rw [Function.update_apply]
    split
    · rename_i hi
      subst hi
      exact (h.killers i).add (h.side ▸ hm)
    · exact h.killers i

omit [Globals] in
theorem bestMove_addKiller (s : Searcher) (idepth : Nat) (move : Move) (depth : Int) :
    ((s.addKiller idepth move depth).stack idepth).bestMove = (s.stack idepth).bestMove := by
  simp [Searcher.addKiller, Searcher.setFrame]

end Promises

section Pickers

variable [Globals] (S : Sorter) {b : Board} {hash move : Move} {killers : KillerLine}
variable {history : HistoryTable}

/-- The picker of a node offers moves of its board only. -/
def NodeOffers (b : Board) (hash : Move) : NodePicker → Prop
  | .root picker => ∀ m ∈ picker.moves, PseudoMove b m
  | .inner picker => Offers b hash picker

def nodeTurnsLeft (b : Board) : NodePicker → Nat
  | .root picker => picker.moves.length
  | .inner picker => turnsLeft b picker

theorem stageMoves_length_le (stage : MovePickerStage) :
    (stageMoves S b hash killers history stage).length ≤ stageRoom b stage := by
  cases stage with
  | start | finished => exact le_rfl
  | hashMove =>
    simp only [stageMoves, stageRoom]
    split <;> simp
  | capture =>
    rw [stageMoves, List.length_map, sortMvvLva, List.length_map, (S.perm _ _).length_eq,
      List.length_map]
    exact le_rfl
  | simplePromote =>
    rw [stageMoves, List.length_map]
    exact (S.perm _ _).length_eq.le
  | killer =>
    rw [stageMoves, List.length_map]
    exact List.length_filter_le _ _
  | history =>
    rw [stageMoves, List.length_map, List.length_map]
    exact (S.perm _ _).length_eq.le

theorem pending_length_lt (hb : Valid b) :
    (pending S b hash killers history (MovePicker.create b hash)).length < 1024 := by
  refine lt_of_le_of_lt ?_ (turnsLeft_create hash hb)
  rw [pending_create, List.length_flatMap]
  exact (List.sum_le_sum fun stage _ => stageMoves_length_le S stage).trans (Nat.le_add_left _ _)

variable (D : Shuffler) (jobId : Nat) {idepth : Nat} {s : Searcher}

theorem createPicker_spec (node : NodeKind) (hb : Valid s.board) (hh : hash = Move.null ∨ PseudoMove s.board hash)
    (hk : Built s.board.side (s.stack idepth).killers) :
    ∃ picker, createPicker S D jobId node idepth hash s = some (picker, s) ∧
      NodeOffers s.board hash picker ∧ nodeTurnsLeft s.board picker < pickerTurns := by
  have hreg := (valid_iff.mp hb).1
  rw [createPicker]
  split
  · rw [create_root hreg hh hk D jobId]
    have hperm := arrange_perm D jobId ((pending S s.board hash (s.stack idepth).killers s.history
      (MovePicker.create s.board hash)).filter fun m => decide (m ≠ Move.null))
    refine ⟨_, rfl, fun m hm => ?_, ?_⟩
    · obtain ⟨hmem, hne⟩ := List.mem_filter.mp (hperm.mem_iff.mp hm)
      exact playable_pending hreg hh hk hmem (of_decide_eq_true hne)
    · rw [nodeTurnsLeft, hperm.length_eq]
      exact (List.length_filter_le _ _).trans_lt (pending_length_lt S hb)
  · exact ⟨_, rfl, offers_create, turnsLeft_create hash hb⟩

theorem nextOfPicker_spec {picker picker' : NodePicker} (hb : Regular s.board)
    (hh : hash = Move.null ∨ PseudoMove s.board hash)
    (hk : Built s.board.side (s.stack idepth).killers) (h : NodeOffers s.board hash picker)
    (hn : nextOfPicker S idepth s picker = some (move, picker')) :
    (move = Move.null ∨ PseudoMove s.board move) ∧ NodeOffers s.board hash picker' ∧
      nodeTurnsLeft s.board picker' < nodeTurnsLeft s.board picker := by
  cases picker with
  | root p =>
    obtain ⟨moves⟩ := p
    rw [nextOfPicker] at hn
    cases moves with
    | nil => simp [RootNodeMovePicker.next] at hn
    | cons m moves =>
      have hne : m ≠ Move.invalid := isWellFormed_ne_invalid (h m List.mem_cons_self).1
      have hsome : some (m, NodePicker.root ⟨moves⟩) = some (move, picker') := (if_neg hne).symm.trans hn
      obtain ⟨rfl, rfl⟩ := Prod.mk.inj (Option.some.inj hsome)
      exact ⟨Or.inr (h m List.mem_cons_self), fun m' hm' => h m' (List.mem_cons_of_mem m hm'),
        Nat.lt_succ_self _⟩
  | inner p =>
    rw [nextOfPicker] at hn
    split at hn
    · cases hn
    rename_i hne
    obtain ⟨rfl, rfl⟩ := Prod.mk.inj (Option.some.inj hn)
    exact (next_spec hb hh hk h).resolve_left hne

end Pickers

section Parts

variable [Evaluator] [Globals]

/-- What the search promises, and what it is promised about the table. -/
def contract (limit : Int) : Contract Answer Unit where
  guar _ q :=
    match q with
    | .store board data => Storable limit board data
    | _ => True
  rely _ q a _ :=
    match q, a with
    | .load board, data => Fits board data
    | _, _ => True
  mayStick := False

variable {limit : Int} {root : Color} {idepth : Nat} {s s' : Searcher} {ρ α β : Type}

/-- The parts of a node leave everything in order. -/
def restoring (root : Color) (idepth n : Nat) : Frame Unit Searcher where
  ready _ := Ready root idepth
  leaves _ s _ := Restored root n s
  refl h := h.refl n
  trans := Restored.trans
  keeps := Ready.after

abbrev Tidy (limit : Int) (root : Color) (idepth n : Nat) (m : Part ρ α) : Prop :=
  Orderly (contract limit) (restoring root idepth n) m

variable {n : Nat}

theorem tidy_query (q : Question) (hq : (contract limit).guar () q) :
    Tidy limit root idepth n (query q : Part ρ (Answer q)) :=
  orderly_ask fun _ _ h => ⟨hq, fun _ _ _ => h.refl n⟩

theorem tidy_mustStop : Tidy limit root idepth n (mustStop : Part ρ Bool) := by
  rw [mustStop]
  refine (tidy_query .isStopped trivial).bind fun stopped => orderly_ite (orderly_pure true) ?_
  have hcount : Tidy limit root idepth n
      (Program.modify fun s => { s with counter := s.counter + 1 } : Part ρ Unit) :=
    orderly_modify fun _ _ h => (h.refl n).congr rfl rfl rfl
  refine hcount.bind fun _ => (orderly_gets _).bind fun counter => ?_
  refine orderly_ite (tidy_query .checkTimeout trivial) ?_
  exact (tidy_query .depth trivial).bind fun depth => (orderly_gets _).bind fun own => orderly_pure _

theorem tidy_returnIfStopped (value : ρ) : Tidy limit root idepth n (returnIfStopped value) :=
  tidy_mustStop.bind fun _ => orderly_ite (orderly_earlyReturn value) (orderly_pure ())

theorem wp_searched {m : Part β β} (h : Ready root idepth s)
    (hm : wp (contract limit) m (fun _ _ => Restored root n s) (fun _ _ => Restored root n s) () s)
    (value : ρ) (f : β → α) :
    wp (contract limit) (do
        let score ← Program.call m
        returnIfStopped value
        pure (f score))
      (fun _ _ => Restored root n s) (fun _ _ => Restored root n s) () s := by
  rw [wp_bind, wp_call]
  have hstop : ∀ score s', Restored root n s s' → wp (contract limit) (do
      returnIfStopped value
      pure (f score) : Part ρ α) (fun _ _ => Restored root n s) (fun _ _ => Restored root n s) () s' := by
    intro score s' h'
    have htidy : Tidy limit root idepth n (do
        returnIfStopped value
        pure (f score) : Part ρ α) := (tidy_returnIfStopped value).bind fun _ => orderly_pure _
    exact wp_mono (htidy () s' (h.after h')) (fun _ _ _ h'' => h'.trans h'') fun _ _ _ h'' => h'.trans h''
  exact wp_mono hm (fun score _ s' h' => hstop score s' h') fun score _ s' h' => hstop score s' h'

theorem wp_withMove {move : Move} {tag : Evaluator.Tag} {body : Evaluator.Tag → Part ρ α}
    {Q : α → Prop} (h : Ready root idepth s) (hm : Playable s.board move)
    (hbody : ∀ tag, wp (contract limit) (body tag)
      (fun a _ s' => Restored root n (made s move) s' ∧ Q a)
      (fun _ _ => Restored root n (made s move)) () (made s move)) :
    wp (contract limit) (withMove move tag body) (fun a _ s' => Restored root n s s' ∧ Q a)
      (fun _ _ => Restored root n s) () s := by
  rw [withMove]
  simp only [wp_bind, wp_gets, wp_guarded]
  exact wp_mono (hbody _) (fun _ _ _ h' => ⟨h'.1.unmake h hm, h'.2⟩) fun _ _ _ h' => h'.unmake h hm

omit [Evaluator] in
theorem restored_made (h : Ready root idepth s) (move : Move) :
    Restored root n (made s move) (made s move) :=
  ⟨rfl, fun _ _ => Iff.rfl, fun _ _ => rfl, h.room, h.killers⟩

section Quiescence

variable (S : Sorter)

/-- The quiescence search looks at fewer pieces and pawns with each level. -/
theorem tidy_quiescenseSearch (levels : Nat) (alpha beta : Int) (tag : Evaluator.Tag)
    (h : Ready root idepth s) (hlevels : menAndPawns s.board.cells < levels) :
    wp (contract limit) (quiescenseSearch S levels alpha beta tag) (fun _ _ => Restored root n s)
      (fun _ _ => Restored root n s) () s := by
  induction levels generalizing alpha beta tag s idepth with
  | zero => exact absurd hlevels (Nat.not_lt_zero _)
  | succ levels ih =>
    have hreg := (valid_iff.mp h.valid).1
    rw [quiescenseSearch, wp_bind, wp_gets, wp_ite]
    split
    · exact h.refl n
    rw [wp_bind, wp_ask]
    refine ⟨trivial, fun evalScore _ _ => ?_⟩
    rw [wp_ite]
    split
    · exact h.refl n
    refine wp_mono (wp_forLoop (fun picker _ _ s' => Restored root n s s' ∧
      OffersForcing s.board picker) (forcingLeft s.board) ?_ pickerTurns
      (Or.inl (forcingLeft_create h.valid)) ⟨h.refl n, offersForcing_create hreg⟩)
      (fun alpha _ s' h' => ?_) fun _ _ _ h' => h'
    · intro picker alpha _ s' move picker' hinv hnext
      obtain ⟨hrestored, hoffers⟩ := hinv
      rw [nextOfQuiescence] at hnext
      obtain hinvalid | ⟨hforcing, hoffers', hless⟩ := quiescence_next_spec (S := S) hreg hoffers
      · rw [if_pos hinvalid] at hnext
        cases hnext
      · split at hnext
        · cases hnext
        have hout := Option.some.inj hnext
        rw [hout] at hforcing hoffers' hless
        refine ⟨Or.inl hless, ?_⟩
        have h' := h.after hrestored
        rw [quiescenseTurn, wp_ite]
        split
        · exact ⟨hrestored, hoffers'⟩
        rename_i hnull
        have hpseudo : PseudoMove s'.board move := hrestored.board ▸ hforcing.1
        rw [wp_bind]
        refine wp_mono (wp_withMove (n := n) (Q := fun _ => True) h' hpseudo.playable fun tag => ?_)
          (fun found _ s'' hfound => ?_) fun _ _ _ h'' => hrestored.trans h''
        · rw [quiescenseMove, wp_bind, wp_gets, wp_ite]
          split
          · rename_i hlegal
            have hmade := h'.made hpseudo.playable hlegal
            have hdown := menAndPawns_moveMake hreg hforcing.1.playable hforcing.1.kind_ne hforcing.2
            rw [← hrestored.board] at hdown
            have hrec := ih (toScore (-beta)) (toScore (-alpha)) tag hmade
              (lt_of_lt_of_le hdown (hrestored.board ▸ Nat.le_of_lt_succ hlevels))
            exact wp_mono (wp_searched hmade hrec 0 _) (fun _ _ _ h'' => ⟨h'', trivial⟩) fun _ _ _ h'' => h''
          · exact ⟨restored_made h' move, trivial⟩
        · cases found with
          | none => exact ⟨hrestored.trans hfound.1, hoffers'⟩
          | some score =>
            simp only [wp_bind, wp_ask, wp_ite]
            refine ⟨trivial, fun _ _ _ => ?_⟩
            split
            · exact hrestored.trans hfound.1
            · exact ⟨hrestored.trans hfound.1, hoffers'⟩
    · obtain ⟨picker, hinv, -⟩ := h'
      exact hinv.1

end Quiescence

section Node

variable (S : Sorter) (D : Shuffler) (jobId : Nat)

theorem tidy_quiescense (alpha beta : Int) (tag : Evaluator.Tag) :
    Tidy limit root idepth n (quiescenseSearch S quiescenseLevels alpha beta tag) := fun _ s h =>
  tidy_quiescenseSearch S quiescenseLevels alpha beta tag h
    ((menAndPawns_le (valid_iff.mp h.valid).1).trans_lt (by decide))

theorem tidy_leafSearch (alpha beta : Int) (tag : Evaluator.Tag) :
    Tidy limit root idepth n (leafSearch S alpha beta tag) :=
  orderly_ite (orderly_pure alpha) (orderly_ite (orderly_pure beta) (tidy_quiescense S alpha beta tag).call)

theorem tidy_getEvalScore (tag : Evaluator.Tag) (evalScore : Option Int) :
    Tidy limit root idepth n (getEvalScore tag evalScore) := by
  cases evalScore with
  | none => exact (orderly_gets _).bind fun board => tidy_query (.evalForCur board tag) trivial
  | some score => exact orderly_pure score

theorem tidy_futility (depth beta : Int) (tag : Evaluator.Tag) :
    Tidy limit root idepth n (futility depth beta tag) := by
  rw [futility]
  refine orderly_ite ((tidy_getEvalScore tag none).bind fun evalScore => ?_) (orderly_pure _)
  exact orderly_ite (orderly_earlyReturn _) (orderly_pure _)

theorem tidy_razoring (depth alpha : Int) (tag : Evaluator.Tag) (evalScore : Option Int) :
    Tidy limit root idepth n (razoring S depth alpha tag evalScore) := by
  rw [razoring]
  refine orderly_ite ((tidy_getEvalScore tag evalScore).bind fun evalScore => ?_) (orderly_pure _)
  refine orderly_ite ((tidy_quiescense S _ _ tag).call.bind fun score => ?_) (orderly_pure _)
  exact orderly_ite (orderly_earlyReturn _) (orderly_pure _)

/-- A cutoff leaves its move in the frame; there is none at the root. -/
theorem wp_probe (h : Ready root idepth s) (node : NodeKind) (depth alpha beta : Int) :
    wp (contract limit) (probe node depth idepth alpha beta)
      (fun hashMove _ s' => s' = s ∧ (hashMove = Move.null ∨ PseudoMove s.board hashMove))
      (fun _ _ s' => node ≠ .root ∧ Restored root idepth s s') () s := by
  rw [probe, wp_bind, wp_gets, wp_bind, wp_ask]
  refine ⟨trivial, fun data _ hfits => ?_⟩
  rw [wp_ite]
  split
  · rename_i hvalid
    rw [wp_bind]
    have hallow : wp (contract limit) (allowCutoff node depth s.board data)
        (fun allow _ s' => s' = s ∧ (allow = true → node ≠ .root))
        (fun _ _ s' => node ≠ .root ∧ Restored root idepth s s') () s := by
      rw [allowCutoff, wp_ite]
      split
      · rename_i hcond
        rw [wp_ite]
        split
        · exact ⟨trivial, fun _ _ _ => ⟨rfl, fun _ => hcond.1⟩⟩
        · exact ⟨rfl, fun _ => hcond.1⟩
      · exact ⟨rfl, fun he => by cases he⟩
    refine wp_mono hallow (fun allow _ s' h' => ?_) fun _ _ _ h' => h'
    obtain ⟨rfl, hnode⟩ := h'
    rw [wp_ite]
    split
    · rename_i hcut
      rw [wp_bind, wp_modify, wp_earlyReturn]
      rw [Bool.and_eq_true] at hcut
      exact ⟨hnode hcut.1, h.setBestMove data.move⟩
    · exact ⟨rfl, hfits hvalid⟩
  · exact ⟨rfl, Or.inl rfl⟩

/-- The searches of the children leave everything in order. -/
def TidySearch (limit : Int) (root : Color) (idepth : Nat) (search : Recurse) : Prop :=
  ∀ node depth alpha beta tag flags, node ≠ .root → depth ≤ limit →
    Tidy limit root idepth idepth (search node depth idepth alpha beta tag flags)

variable {search : Recurse} (hsearch : TidySearch limit root (idepth + 1) search)

include hsearch

/-- The null move is only tried where it is legal, and it leaves some depth. -/
theorem wp_nullMoveReduction (h : Ready root idepth s) (hcheck : isCheck s.board = false)
    {depth : Int} (hmin : NullMove.minDepth ≤ depth) (hmax : depth ≤ limit) (beta : Int)
    (tag : Evaluator.Tag) (flags : Flags) :
    wp (contract limit) (nullMoveReduction search depth idepth beta tag flags)
      (fun out _ s' => Restored root (idepth + 1) s s' ∧ 0 < out.1 ∧ out.1 ≤ depth)
      (fun _ _ => Restored root (idepth + 1) s) () s := by
  have hnull : Playable s.board Move.null := ⟨by cases s.board.side <;> decide, Or.inl rfl⟩
  have hlegal : wasMoveLegal (moveMake s.board Move.null).1 = true := by
    rw [wasMoveLegal_null (valid_iff.mp h.valid).1, hcheck]
    rfl
  rw [NullMove.minDepth] at hmin
  rw [nullMoveReduction, wp_bind]
  refine wp_mono (wp_withMove (Q := fun _ => True) h hnull fun tag => ?_)
    (fun score _ s' h' => ?_) fun _ _ _ h' => h'
  · have hchild := hsearch .simple (depth - NullMove.depthDec) (toScore (-beta)) (toScore (-beta + 1))
      tag ((flags &&& Flags.inherit) ||| Flags.nullMove) nofun (by rw [NullMove.depthDec]; omega)
    have hmade := h.made hnull hlegal
    exact wp_mono (wp_searched hmade (hchild () _ hmade) 0 _) (fun _ _ _ h'' => ⟨h'', trivial⟩)
      fun _ _ _ h'' => h''
  · rw [wp_ite]
    split
    · refine ⟨h'.1, ?_⟩
      dsimp only
      rw [NullMove.reductionDec]
      omega
    · refine ⟨h'.1, ?_⟩
      dsimp only
      omega

theorem wp_prune (h : Ready root idepth s) (node : NodeKind) {depth : Int} (hmin : 0 < depth)
    (hmax : depth ≤ limit) (alpha beta : Int) (tag : Evaluator.Tag) (flags : Flags) :
    wp (contract limit) (prune S search node depth idepth alpha beta tag flags (isCheck s.board))
      (fun out _ s' => Restored root (idepth + 1) s s' ∧ 0 < out.1 ∧ out.1 ≤ depth)
      (fun _ _ => Restored root (idepth + 1) s) () s := by
  rw [prune, wp_ite]
  split
  · rename_i hcond
    have hcheck : isCheck s.board = false := by
      simp only [Bool.and_eq_true, Bool.not_eq_true'] at hcond
      exact hcond.1.2
    rw [wp_bind]
    refine wp_mono (tidy_futility depth beta tag () s h) (fun evalScore _ s₁ h₁ => ?_) fun _ _ _ h' => h'
    rw [wp_bind]
    refine wp_mono (tidy_razoring S depth alpha tag evalScore () s₁ (h.after h₁)) (fun _ _ s₂ h₂ => ?_)
      fun _ _ _ h' => h₁.trans h'
    have h' := h₁.trans h₂
    rw [wp_ite]
    split
    · rename_i hnull
      exact wp_mono (wp_nullMoveReduction hsearch (h.after h') (h'.board ▸ hcheck) hnull.1 hmax beta
        tag flags) (fun _ _ _ h'' => ⟨h'.trans h''.1, h''.2⟩) fun _ _ _ h'' => h'.trans h''
    · exact ⟨h', hmin, le_rfl⟩
  · exact ⟨h.refl _, hmin, le_rfl⟩

theorem tidy_lateMoveReduction (lmrEnabled : Bool) {depth : Int} (hmax : depth ≤ limit) (alpha : Int)
    (tag : Evaluator.Tag) (newFlags : Flags) : Tidy limit root (idepth + 1) (idepth + 1)
      (lateMoveReduction lmrEnabled search depth idepth alpha tag newFlags) := by
  refine orderly_ite (Orderly.bind (Orderly.call (hsearch .simple _ _ _ tag _ nofun ?_)) fun score => ?_)
    (orderly_pure false)
  · rw [LateMove.reduceDepth]
    omega
  · exact (tidy_returnIfStopped 0).bind fun _ => orderly_pure _

theorem tidy_pvSearch (node : NodeKind) {depth : Int} (hmax : depth ≤ limit) (alpha beta : Int)
    (tag : Evaluator.Tag) (newFlags : Flags) (isFirstMove : Bool) :
    Tidy limit root (idepth + 1) (idepth + 1)
      (pvSearch search node depth idepth alpha beta tag newFlags isFirstMove) := by
  have hfull : Tidy limit root (idepth + 1) (idepth + 1)
      (fullWindowSearch search node depth idepth alpha beta tag newFlags) := by
    refine Orderly.bind (Orderly.call (hsearch _ _ _ _ tag _ ?_ (by omega))) fun score =>
      (tidy_returnIfStopped 0).bind fun _ => orderly_pure _
    split <;> nofun
  have hzero : Tidy limit root (idepth + 1) (idepth + 1)
      (zeroWindowSearch search depth idepth alpha tag newFlags) :=
    Orderly.bind (Orderly.call (hsearch _ _ _ _ tag _ nofun (by omega))) fun score =>
      (tidy_returnIfStopped 0).bind fun _ => orderly_pure _
  exact orderly_ite (hzero.bind fun score => orderly_ite hfull (orderly_pure score)) hfull

theorem wp_searchMove (h : Ready root idepth s) (node : NodeKind) {depth : Int}
    (hmax : depth ≤ limit) (beta : Int) (flags : Flags) {move : Move} (hm : PseudoMove s.board move)
    (stage : MovePickerStage) (l : Locals) (tag : Evaluator.Tag) :
    wp (contract limit) (searchMove search node depth idepth beta flags move stage l tag)
      (fun result _ s' => Restored root (idepth + 1) (made s move) s' ∧
        (result ≠ .illegal → SafeMove s.board move))
      (fun _ _ => Restored root (idepth + 1) (made s move)) () (made s move) := by
  rw [searchMove, wp_bind, wp_gets, wp_ite]
  split
  · rename_i hlegal
    have hmade := h.made hm.playable hlegal
    rw [wp_bind]
    refine wp_mono (tidy_lateMoveReduction hsearch _ hmax l.alpha tag _ () _ hmade)
      (fun isReduced _ s' h' => ?_) fun _ _ _ h' => h'
    rw [wp_ite]
    split
    · exact ⟨h', fun _ => ⟨hm, hlegal⟩⟩
    · rw [wp_bind]
      exact wp_mono (tidy_pvSearch hsearch node hmax l.alpha beta tag _ _ () _ (hmade.after h'))
        (fun score _ s'' h'' => ⟨h'.trans h'', fun _ => ⟨hm, hlegal⟩⟩) fun _ _ _ h'' => h'.trans h''
  · exact ⟨restored_made h move, fun hne => absurd rfl hne⟩

omit hsearch in
theorem wp_ttStore (hbest : BestLegal idepth s) {depth : Int} (hmin : 0 < depth)
    (hmax : depth ≤ limit) (alpha beta score : Int) {R : Int → Unit → Searcher → Prop} :
    wp (contract limit) (ttStore alpha beta depth idepth score) (fun _ _ s' => s' = s) R () s := by
  rw [ttStore, wp_bind, wp_gets, wp_ite]
  split
  · rename_i hne
    rw [wp_bind, wp_gets, wp_ask]
    exact ⟨⟨hbest.resolve_left hne, _, _, depth, _, rfl, hmin, hmax⟩, fun _ _ _ => rfl⟩
  · exact rfl

omit hsearch in
theorem wp_takeScore (h : Ready root idepth s) (hbest : BestLegal idepth s) (node : NodeKind)
    {depth : Int} (hmin : 0 < depth) (hmax : depth ≤ limit) (alpha beta : Int) {move : Move}
    (hm : SafeMove s.board move) (stage : MovePickerStage) (l : Locals) (score : Int)
    (numHistoryMoves : Nat) :
    wp (contract limit) (takeScore node depth idepth alpha beta move stage l score numHistoryMoves)
      (fun _ _ s' => Restored root idepth s s' ∧ BestLegal idepth s')
      (fun _ _ => Restored root idepth s) () s := by
  rw [takeScore, wp_bind, wp_ask]
  refine ⟨trivial, fun _ _ _ => ?_⟩
  rw [wp_bind, wp_modify]
  obtain ⟨s₁, hs₁, h₁, hbest₁⟩ : ∃ s₁, (if score > l.alpha then s.setBestMove idepth move else s) = s₁ ∧
      Restored root idepth s s₁ ∧ BestLegal idepth s₁ := by
    split
    · refine ⟨_, rfl, h.setBestMove move, Or.inr ?_⟩
      rw [bestMove_setBestMove]
      exact hm
    · exact ⟨_, rfl, h.refl _, hbest⟩
  rw [hs₁]
  generalize (if score > l.alpha then score else l.alpha) = alpha'
  rw [wp_ite]
  split
  · rw [wp_bind, wp_modify, wp_bind]
    obtain ⟨s₂, hs₂, h₂, hbest₂⟩ : ∃ s₂, (if node ≠ .root ∧
        stage.toNat ≥ MovePickerStage.killer.toNat then s₁.addKiller idepth move depth else s₁) = s₂ ∧
        Restored root idepth s s₂ ∧ BestLegal idepth s₂ := by
      split
      · refine ⟨_, rfl, h₁.trans ((h.after h₁).addKiller (h₁.board ▸ hm.1.1) depth), ?_⟩
        rw [BestLegal, bestMove_addKiller]
        exact hbest₁
      · exact ⟨_, rfl, h₁, hbest₁⟩
    rw [hs₂]
    exact wp_mono (wp_ttStore hbest₂ hmin hmax alpha beta beta) (fun _ _ _ h' => h' ▸ h₂)
      fun _ _ _ h' => h'
  · exact ⟨h₁, hbest₁⟩

theorem wp_nodeTurn (h : Ready root idepth s) (hbest : BestLegal idepth s) (node : NodeKind)
    {depth : Int} (hmin : 0 < depth) (hmax : depth ≤ limit) (alpha beta : Int) (tag : Evaluator.Tag)
    (flags : Flags) {move : Move} (hm : move = Move.null ∨ PseudoMove s.board move)
    (picker : NodePicker) (l : Locals) :
    wp (contract limit) (nodeTurn search node depth idepth alpha beta tag flags move picker l)
      (fun _ _ s' => Restored root idepth s s' ∧ BestLegal idepth s')
      (fun _ _ => Restored root idepth s) () s := by
  rw [nodeTurn, wp_ite]
  split
  · exact ⟨h.refl _, hbest⟩
  rename_i hnull
  have hpseudo := hm.resolve_left hnull
  rw [wp_bind]
  refine wp_mono (wp_withMove (Q := fun result => result ≠ .illegal → SafeMove s.board move) h
    hpseudo.playable fun tag => ?_) (fun result _ s' h' => ?_)
    fun _ _ _ h' => h'.mono (Nat.le_succ idepth)
  · exact wp_searchMove hsearch h node hmax beta flags hpseudo picker.stage l tag
  · obtain ⟨hrestored, hlegal⟩ := h'
    have hleft : Restored root idepth s s' ∧ BestLegal idepth s' :=
      ⟨hrestored.mono (Nat.le_succ idepth), hbest.after hrestored⟩
    cases result with
    | illegal => exact hleft
    | reduced numHistoryMoves => exact hleft
    | searched score numHistoryMoves =>
      refine wp_mono (wp_takeScore (h.after hrestored) hleft.2 node hmin hmax alpha beta
        (hrestored.board ▸ hlegal fun he => by cases he) picker.stage l score numHistoryMoves)
        (fun _ _ s'' h'' => ⟨hleft.1.trans h''.1, h''.2⟩) fun _ _ _ h'' => hleft.1.trans h''

theorem wp_searchMoves (h : Ready root idepth s) (hbest : BestLegal idepth s) (node : NodeKind)
    {depth : Int} (hmin : 0 < depth) (hmax : depth ≤ limit) (alpha beta : Int) (tag : Evaluator.Tag)
    (flags : Flags) {hashMove : Move} (hh : hashMove = Move.null ∨ PseudoMove s.board hashMove)
    (isInCheck : Bool) :
    wp (contract limit)
      (searchMoves S D jobId search node depth idepth alpha beta tag flags hashMove isInCheck)
      (fun _ _ => Restored root idepth s) (fun _ _ => Restored root idepth s) () s := by
  obtain ⟨picker, hpicker, hoffers, hturns⟩ := createPicker_spec S D jobId node
    h.valid hh (h.side ▸ h.killers idepth)
  rw [searchMoves, wp_bind, wp_tryModify]
  refine ⟨fun hnone => ?_, fun picker' s₁ hsome => ?_⟩
  · rw [hpicker] at hnone
    cases hnone
  obtain ⟨rfl, rfl⟩ := Prod.mk.inj (Option.some.inj (hpicker.symm.trans hsome))
  rw [wp_bind]
  refine wp_mono (wp_forLoop (fun picker _ _ s' => Restored root idepth s s' ∧ BestLegal idepth s' ∧
    NodeOffers s.board hashMove picker) (nodeTurnsLeft s.board) ?_ pickerTurns (Or.inl hturns)
    ⟨h.refl _, hbest, hoffers⟩) (fun l _ s' h' => ?_) fun _ _ _ h' => h'
  · intro picker l _ s' move picker' hinv hnext
    obtain ⟨hrestored, hbest', hoffers'⟩ := hinv
    have h' := h.after hrestored
    rw [← hrestored.board] at hoffers' hh
    obtain ⟨hm, hoffers'', hless⟩ := nextOfPicker_spec S (valid_iff.mp h'.valid).1 hh
      (h'.side ▸ h'.killers idepth) hoffers' hnext
    rw [hrestored.board] at hoffers'' hless
    refine ⟨Or.inl hless, ?_⟩
    exact wp_mono (wp_nodeTurn hsearch h' hbest' node hmin hmax alpha beta tag flags hm picker' l)
      (fun _ _ _ h'' => ⟨hrestored.trans h''.1, h''.2, hoffers''⟩) fun _ _ _ h'' => hrestored.trans h''
  · obtain ⟨-, ⟨hrestored, hbest', -⟩, -⟩ := h'
    rw [wp_ite]
    split
    · rw [wp_bind]
      exact wp_mono (wp_ttStore hbest' hmin hmax alpha beta l.alpha) (fun _ _ _ h'' => h'' ▸ hrestored)
        fun _ _ _ h'' => h''
    · exact hrestored

omit hsearch in
/-- A node at the end of the stack has no children. -/
theorem tidy_doSearch (hsearch : idepth + 1 ≠ maxStackDepth → TidySearch limit root (idepth + 1) search)
    (node : NodeKind) {depth : Int} (hmax : depth ≤ limit) (alpha beta : Int) (tag : Evaluator.Tag)
    (flags : Flags) : Tidy limit root idepth idepth
      (doSearch S D jobId search node depth idepth alpha beta tag flags) := by
  intro _ s h
  have h₁ := h.setBestMove Move.null
  have hready := h.after h₁
  have hbest : BestLegal idepth (s.setBestMove idepth Move.null) :=
    Or.inl (bestMove_setBestMove s idepth Move.null)
  rw [doSearch, wp_bind, wp_modify, wp_bind, wp_gets, wp_ite]
  split
  · exact h₁
  rw [wp_ite]
  split
  · exact wp_mono (tidy_leafSearch S alpha beta tag () _ hready) (fun _ _ _ h' => h₁.trans h')
      fun _ _ _ h' => h₁.trans h'
  rename_i hdepth
  rw [not_or, not_le] at hdepth
  rw [wp_bind]
  refine wp_mono (wp_probe hready node depth alpha beta) (fun hashMove _ s₂ h₂ => ?_)
    fun _ _ _ h' => h₁.trans h'.2
  obtain ⟨rfl, hh⟩ := h₂
  rw [wp_bind]
  refine wp_mono (wp_prune S (hsearch hdepth.2) hready node hdepth.1 hmax alpha beta tag flags)
    (fun reduced _ s₃ h₃ => ?_) fun _ _ _ h' => h₁.trans (h'.mono (Nat.le_succ idepth))
  obtain ⟨h₃, hmin, hle⟩ := h₃
  have h₁₃ := h₁.trans (h₃.mono (Nat.le_succ idepth))
  exact wp_mono (wp_searchMoves S D jobId (hsearch hdepth.2) (h.after h₁₃) (hbest.after h₃) node hmin
    (hle.trans hmax) alpha beta tag reduced.2 (h₃.board.symm ▸ hh) _) (fun _ _ _ h' => h₁₃.trans h')
    fun _ _ _ h' => h₁₃.trans h'

omit hsearch in
/-- The hash of the board is taken out of the table again. -/
theorem tidy_searchNode (hsearch : idepth + 1 ≠ maxStackDepth → TidySearch limit root (idepth + 1) search)
    (node : NodeKind) {depth : Int} (hmax : depth ≤ limit) (alpha beta : Int) (tag : Evaluator.Tag)
    (flags : Flags) : Tidy limit root idepth idepth
      (searchNode S D jobId search node depth idepth alpha beta tag flags) := by
  intro _ s h
  obtain ⟨e, he, hsound⟩ := h.room
  obtain ⟨t, e', hinsert, hsound', he', hkeys⟩ := RepetitionTable.insert_spec hsound he s.board.hash
  have hins : insertHash s = some (!s.repetitions.has s.board.hash, { s with repetitions := t }) := by
    rw [insertHash, hinsert]
    rfl
  rw [searchNode, wp_bind, wp_tryModify]
  refine ⟨fun hnone => ?_, fun isNew s₁ hsome => ?_⟩
  · rw [hins] at hnone
    cases hnone
  obtain ⟨rfl, rfl⟩ := Prod.mk.inj (Option.some.inj (hins.symm.trans hsome))
  rw [wp_ite]
  split
  · rename_i hnew
    have hfree : s.board.hash ≠ 0 → ¬s.repetitions.Holds s.board.hash := fun hne hholds => by
      rw [(hsound.has_iff he hne).mpr hholds] at hnew
      exact absurd hnew (by decide)
    have h₁ : Ready root idepth { s with repetitions := t } :=
      ⟨h.valid, h.side, ⟨e', he', hsound'⟩, h.killers⟩
    rw [wp_bind, wp_call]
    have hleave : ∀ s', Restored root idepth { s with repetitions := t } s' →
        Restored root idepth s { s' with repetitions := s'.repetitions.erase s'.board.hash } := by
      intro s' h'
      obtain ⟨e'', he'', hsound''⟩ := h'.room
      obtain ⟨hsound₃, hkeys₃⟩ := hsound''.erase he'' s'.board.hash
      refine ⟨h'.board, fun x hx => ?_, h'.frames, ⟨e'', he'', hsound₃⟩, h'.killers⟩
      rw [hkeys₃ x hx, h'.keys x hx, h'.board, hkeys x hx]
      constructor
      · intro hx'
        exact hx'.2.resolve_left hx'.1
      · intro hx'
        refine ⟨fun hxk => ?_, Or.inr hx'⟩
        subst hxk
        exact hfree hx hx'
    exact wp_mono (tidy_doSearch S D jobId hsearch node hmax alpha beta tag flags () _ h₁)
      (fun _ _ s' h' => hleave s' h') fun _ _ s' h' => hleave s' h'
  · rename_i hold
    refine ⟨rfl, fun x hx => ?_, fun _ _ => rfl, ⟨e', he', hsound'⟩, h.killers⟩
    rw [hkeys x hx]
    refine or_iff_right_of_imp fun hxk => ?_
    subst hxk
    exact (hsound.has_iff he hx).mp (by simpa using hold)

omit hsearch in
theorem tidy_search (left : Nat) (hleft : idepth + left + 1 = maxStackDepth) (node : NodeKind)
    {depth : Int} (hmax : depth ≤ limit) (alpha beta : Int) (tag : Evaluator.Tag) (flags : Flags) :
    Tidy limit root idepth idepth
      (Job.search S D jobId left node depth idepth alpha beta tag flags) := by
  induction left generalizing node depth idepth alpha beta tag flags with
  | zero => exact tidy_searchNode S D jobId (fun hne => absurd hleft hne) node hmax alpha beta tag flags
  | succ left ih =>
    refine tidy_searchNode S D jobId (fun _ => ?_) node hmax alpha beta tag flags
    intro node depth alpha beta tag flags _ hmax
    exact ih (by omega) node hmax alpha beta tag flags

end Node

end Parts

end SoFCheck.Search.Discipline
