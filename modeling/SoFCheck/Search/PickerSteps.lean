import SoFCheck.Core.MoveCount
import SoFCheck.Core.Sequence
import SoFCheck.Search.Enumeration

namespace SoFCheck.Search.PickerSteps

open SoFCheck.Core.Types SoFCheck.Core.BoardState SoFCheck.Core.Moves SoFCheck.Core.Validate
open SoFCheck.Core.Movegen SoFCheck.Core.LegalMoves SoFCheck.Core.GenClasses SoFCheck.Core.MoveCount
open SoFCheck.Core.Sequence SoFCheck.Search.Tables SoFCheck.Search.Pickers SoFCheck.Search.Enumeration

variable [Globals] {S : Sorter} {b : Board} {hash : Move} {killers : KillerLine}
variable {history : HistoryTable} {p : MovePicker} {m : Move}

/-- A pseudo-legal move, which is not the null move. -/
def PseudoMove (b : Board) (m : Move) : Prop :=
  m.isWellFormed b.side = true ∧ isMoveValid b m = true

theorem PseudoMove.playable (h : PseudoMove b m) : Playable b m := ⟨h.1, Or.inr h.2⟩

theorem PseudoMove.kind_ne (h : PseudoMove b m) : m.kind ≠ .null := by
  intro hk
  have hvalid := h.2
  rw [isMoveValid, isMoveValidImpl] at hvalid
  simp [hk] at hvalid

theorem pseudoMove_of_mem (hb : Regular b) {genSimple genCaptures genSimplePromote : Bool}
    (h : m ∈ (mkMoveGen b).genImpl (mkMoveGen b).side genSimple genCaptures genSimplePromote) :
    PseudoMove b m :=
  ((pseudo_iff_isMoveValid hb).mp (pseudo_of_mem_genImpl hb h)).2

/-- The most moves that a stage has. -/
def stageRoom (b : Board) : MovePickerStage → Nat
  | .start | .finished => 0
  | .hashMove => 1
  | .capture => (mkMoveGen b).genCaptures.length
  | .simplePromote => (mkMoveGen b).genSimplePromotes.length
  | .killer => 2
  | .history => (mkMoveGen b).genSimpleMovesNoPromote.length

/-- How often the picker can still return a move. -/
def turnsLeft (b : Board) (p : MovePicker) : Nat :=
  (if p.stage = .finished then 0 else p.moves.length) +
    ((laterStages p.stage).map (stageRoom b)).sum

/-- A picker of the board `b`, whatever killers and history it is shown. -/
structure Offers (b : Board) (hash : Move) (p : MovePicker) : Prop where
  gen : p.gen = mkMoveGen b
  hashMove : p.hashMove = hash
  moves : ∀ m ∈ p.moves,
    if p.stage = .finished then m = Move.invalid else m = Move.null ∨ PseudoMove b m

theorem offers_create : Offers b hash (MovePicker.create b hash) :=
  ⟨rfl, rfl, fun m h => by cases h⟩

theorem turnsLeft_create (hash : Move) (hb : Valid b) : turnsLeft b (MovePicker.create b hash) < 1024 := by
  have hle := length_generated_le hb
  simp only [turnsLeft, MovePicker.create, laterStages, stageRoom, List.map_cons, List.map_nil,
    List.sum_cons, List.sum_nil, List.length_nil, reduceCtorEq, if_false]
  omega

/-- What a stage offers when it is entered. -/
theorem fill_spec (S : Sorter) (history : HistoryTable) (hb : Regular b) (hh : hash = Move.null ∨ PseudoMove b hash)
    (hk : Built b.side killers) (h : Offers b hash p) (hempty : p.moves = []) :
    Offers b hash (MovePicker.fill S killers history p) ∧
      ((MovePicker.fill S killers history p).stage ≠ .finished →
        (MovePicker.fill S killers history p).moves.length ≤ stageRoom b p.stage) := by
  obtain ⟨hgen, hhash, -⟩ := h
  obtain ⟨stage, hashMove, gen, moves, saved⟩ := p
  simp only at hgen hhash hempty
  subst hgen hhash hempty
  cases stage with
  | start => exact ⟨⟨rfl, rfl, fun m hm => by cases hm⟩, fun _ => le_rfl⟩
  | finished =>
    refine ⟨⟨rfl, rfl, fun m hm => ?_⟩, fun hne => absurd rfl hne⟩
    exact List.mem_singleton.mp hm
  | hashMove =>
    simp only [MovePicker.fill]
    refine ⟨⟨rfl, rfl, fun m hm => ?_⟩, fun _ => ?_⟩
    · simp only [reduceCtorEq, if_false]
      split at hm
      · rw [List.mem_singleton.mp hm]
        exact hh
      · cases hm
    · simp only [stageRoom]
      split <;> simp
  | capture =>
    have hperm : (sortMvvLva S (mkMoveGen b).b (mkMoveGen b).genCaptures).Perm
        (mkMoveGen b).genCaptures := by
      rw [gen_board]
      exact sortMvvLva_captures hb
    refine ⟨⟨rfl, rfl, fun m hm => Or.inr ?_⟩, fun _ => hperm.length_eq.le⟩
    exact pseudoMove_of_mem hb (hperm.mem_iff.mp hm)
  | simplePromote =>
    have hperm : (sortSimplePromotes S (mkMoveGen b).genSimplePromotes).Perm
        (mkMoveGen b).genSimplePromotes := S.perm _ _
    refine ⟨⟨rfl, rfl, fun m hm => Or.inr ?_⟩, fun _ => hperm.length_eq.le⟩
    exact pseudoMove_of_mem hb ((mem_genSimplePromotes hb).mp (hperm.mem_iff.mp hm)).1
  | killer =>
    refine ⟨⟨rfl, rfl, fun m hm => Or.inr ?_⟩, fun _ => List.length_filter_le _ _⟩
    obtain ⟨hmem, hvalid⟩ := List.mem_filter.mp hm
    rw [gen_board, isValidKiller, Bool.and_eq_true] at hvalid
    obtain ⟨hfirst, hsecond, -⟩ := hk.spec
    obtain rfl | rfl := List.mem_pair.mp hmem
    · exact ⟨hfirst, hvalid.2⟩
    · exact ⟨hsecond, hvalid.2⟩
  | history =>
    have hperm := S.perm (fun move => (history.get move).toNat) (mkMoveGen b).genSimpleMovesNoPromote
    simp only [MovePicker.fill]
    refine ⟨⟨rfl, rfl, fun m hm => ?_⟩, fun _ => ?_⟩
    · obtain ⟨m', hm', rfl⟩ := List.mem_map.mp hm
      simp only [reduceCtorEq, if_false]
      split
      · exact Or.inl rfl
      · exact Or.inr (pseudoMove_of_mem hb (hperm.mem_iff.mp hm'))
    · rw [List.length_map, hperm.length_eq]
      exact le_rfl

theorem fill_next_spec (S : Sorter) (history : HistoryTable) (hb : Regular b) (hh : hash = Move.null ∨ PseudoMove b hash)
    (hk : Built b.side killers) (h : Offers b hash p) (hempty : p.moves = []) :
    Offers b hash (MovePicker.fill S killers history
        { p with stage := p.stage.next, moves := [] }) ∧
      turnsLeft b (MovePicker.fill S killers history
        { p with stage := p.stage.next, moves := [] }) ≤ turnsLeft b p := by
  obtain ⟨hoffers, hroom⟩ := fill_spec S history hb hh hk
    (p := { p with stage := p.stage.next, moves := [] }) ⟨h.gen, h.hashMove, fun m hm => by cases hm⟩ rfl
  refine ⟨hoffers, ?_⟩
  rw [turnsLeft, turnsLeft, hempty, List.length_nil, ite_self, zero_add]
  have hstage : (MovePicker.fill S killers history
      { p with stage := p.stage.next, moves := [] }).stage = p.stage.next := fill_stage
  rw [hstage] at hroom ⊢
  cases laterStages_next p.stage with
  | inl hl =>
    rw [← hl, List.map_cons, List.sum_cons]
    split
    · omega
    · rename_i hne
      exact Nat.add_le_add_right (hroom hne) _
  | inr hl =>
    rw [hl.1, hl.2]
    exact le_rfl

theorem nextStage_offers (S : Sorter) (history : HistoryTable) (hb : Regular b) (hh : hash = Move.null ∨ PseudoMove b hash)
    (hk : Built b.side killers) (turns : Nat) (h : Offers b hash p) (hempty : p.moves = []) :
    Offers b hash (MovePicker.nextStage S killers history turns p) ∧
      turnsLeft b (MovePicker.nextStage S killers history turns p) ≤ turnsLeft b p := by
  induction turns generalizing p with
  | zero => exact ⟨h, le_rfl⟩
  | succ turns ih =>
    obtain ⟨hoffers, hle⟩ := fill_next_spec S history hb hh hk h hempty
    rw [MovePicker.nextStage]
    split
    · rename_i hmoves
      obtain ⟨h1, h2⟩ := ih hoffers hmoves
      exact ⟨h1, h2.trans hle⟩
    · exact ⟨hoffers, hle⟩

/-- A call of `next` ends the loop, or takes one move. -/
theorem next_spec (hb : Regular b) (hh : hash = Move.null ∨ PseudoMove b hash)
    (hk : Built b.side killers) (h : Offers b hash p) :
    (MovePicker.next S killers history p).1 = Move.invalid ∨
      ((MovePicker.next S killers history p).1 = Move.null ∨
        PseudoMove b (MovePicker.next S killers history p).1) ∧
      Offers b hash (MovePicker.next S killers history p).2 ∧
      turnsLeft b (MovePicker.next S killers history p).2 < turnsLeft b p := by
  obtain ⟨q, hq, hoffers, hle⟩ : ∃ q, (if p.moves = [] then
      MovePicker.nextStage S killers history 6 p else p) = q ∧ Offers b hash q ∧
        turnsLeft b q ≤ turnsLeft b p := by
    split
    · rename_i hempty
      obtain ⟨h1, h2⟩ := nextStage_offers S history hb hh hk 6 h hempty
      exact ⟨_, rfl, h1, h2⟩
    · exact ⟨p, rfl, h, le_rfl⟩
  rw [MovePicker.next, hq]
  cases hm : q.moves with
  | nil => exact Or.inl rfl
  | cons m moves =>
    dsimp only
    have hmem := hoffers.moves m (by rw [hm]; exact List.mem_cons_self)
    split at hmem
    · rename_i hstage
      refine Or.inl ?_
      rw [hmem, if_neg]
      intro hcond
      obtain he | he := hh
      · rw [hoffers.hashMove, he] at hcond
        exact absurd hcond.2 (by decide)
      · exact isWellFormed_ne_invalid he.1 (hoffers.hashMove.symm.trans hcond.2.symm)
    · rename_i hstage
      refine Or.inr ⟨?_, ⟨hoffers.gen, hoffers.hashMove, fun m' hm' => ?_⟩, ?_⟩
      · split
        · exact Or.inl rfl
        · exact hmem
      · exact hoffers.moves m' (by rw [hm]; exact List.mem_cons_of_mem m hm')
      · refine lt_of_lt_of_le ?_ hle
        rw [turnsLeft, turnsLeft, if_neg hstage, if_neg hstage, hm, List.length_cons]
        exact Nat.add_lt_add_right (Nat.lt_succ_self _) _

section Quiescence

variable {q : QuiescenseMovePicker}

/-- A move of the quiescence search takes a piece or a pawn off the board. -/
def Forcing (b : Board) (m : Move) : Prop :=
  PseudoMove b m ∧ (isMoveCapture b m = true ∨ isMoveKindPromote m.kind = true)

structure OffersForcing (b : Board) (q : QuiescenseMovePicker) : Prop where
  gen : q.gen = mkMoveGen b
  moves : ∀ m ∈ q.moves, Forcing b m

def forcingLeft (b : Board) (q : QuiescenseMovePicker) : Nat :=
  q.moves.length + if q.captures then (mkMoveGen b).genSimplePromotes.length else 0

theorem offersForcing_create (hb : Regular b) : OffersForcing b (QuiescenseMovePicker.create S b) := by
  refine ⟨rfl, fun m hm => ?_⟩
  have hmem := (mem_genCaptures hb).mp ((sortMvvLva_captures hb).mem_iff.mp hm)
  exact ⟨pseudoMove_of_mem hb hmem.1, Or.inl hmem.2⟩

theorem forcingLeft_create (hb : Valid b) : forcingLeft b (QuiescenseMovePicker.create S b) < 1024 := by
  have hle := length_generated_le hb
  have hperm := (sortMvvLva_captures (S := S) (valid_iff.mp hb).1).length_eq
  simp only [forcingLeft, QuiescenseMovePicker.create, hperm, if_true]
  omega

theorem quiescence_next_spec (hb : Regular b) (h : OffersForcing b q) :
    (QuiescenseMovePicker.next S q).1 = Move.invalid ∨
      Forcing b (QuiescenseMovePicker.next S q).1 ∧
      OffersForcing b (QuiescenseMovePicker.next S q).2 ∧
      forcingLeft b (QuiescenseMovePicker.next S q).2 < forcingLeft b q := by
  obtain ⟨q', hq', hoffers, hle⟩ : ∃ q', (if q.moves = [] ∧ q.captures then
      QuiescenseMovePicker.addSimplePromotes S { q with captures := false } else q) = q' ∧
        OffersForcing b q' ∧ forcingLeft b q' ≤ forcingLeft b q := by
    split
    · rename_i hcond
      have hperm : (sortSimplePromotes S (mkMoveGen b).genSimplePromotes).Perm
          (mkMoveGen b).genSimplePromotes := S.perm _ _
      refine ⟨_, rfl, ⟨h.gen, fun m hm => ?_⟩, ?_⟩
      · rw [QuiescenseMovePicker.addSimplePromotes] at hm
        simp only [h.gen] at hm
        obtain ⟨hall, -, hp⟩ := (mem_genSimplePromotes hb).mp (hperm.mem_iff.mp hm)
        exact ⟨pseudoMove_of_mem hb hall, Or.inr hp⟩
      · simp only [forcingLeft, QuiescenseMovePicker.addSimplePromotes, h.gen, hperm.length_eq,
          hcond.1, hcond.2, List.length_nil, Bool.false_eq_true, if_false, if_true]
        omega
    · exact ⟨q, rfl, h, le_rfl⟩
  rw [QuiescenseMovePicker.next, hq']
  cases hm : q'.moves with
  | nil => exact Or.inl rfl
  | cons m moves =>
    refine Or.inr ⟨?_, ⟨hoffers.gen, fun m' hm' => ?_⟩, lt_of_lt_of_le ?_ hle⟩
    · exact hoffers.moves m (by rw [hm]; exact List.mem_cons_self)
    · exact hoffers.moves m' (by rw [hm]; exact List.mem_cons_of_mem m hm')
    · simp only [forcingLeft, hm, List.length_cons]
      omega

end Quiescence

end SoFCheck.Search.PickerSteps
