import SoFCheck.Core.GenClasses
import SoFCheck.Search.Pickers

namespace SoFCheck.Search.Enumeration

open SoFCheck.Core.Types SoFCheck.Core.BoardState SoFCheck.Core.Moves SoFCheck.Core.Validate
open SoFCheck.Core.Position SoFCheck.Core.MakeRefine SoFCheck.Core.Movegen
open SoFCheck.Core.Sequence SoFCheck.Core.LegalMoves SoFCheck.Core.GenClasses
open SoFCheck.Search.Tables SoFCheck.Search.Pickers

section Iterators

variable {ι : Type}

/-- What the first `n` calls of an iterator return. -/
def calls (next : ι → Move × ι) : Nat → ι → List Move
  | 0, _ => []
  | n + 1, i => (next i).1 :: calls next n (next i).2

/-- The iterator returns the moves of the list and only `invalid` from then on. -/
def Yields (next : ι → Move × ι) (i : ι) (moves : List Move) : Prop :=
  Move.invalid ∉ moves ∧
    ∀ n, calls next n i = moves.take n ++ List.replicate (n - moves.length) Move.invalid

theorem yields_of_pending {next : ι → Move × ι} (Inv : ι → Prop) (pending : ι → List Move)
    (hnil : ∀ i, Inv i → pending i = [] →
      (next i).1 = Move.invalid ∧ Inv (next i).2 ∧ pending (next i).2 = [])
    (hcons : ∀ i m moves, Inv i → pending i = m :: moves →
      (next i).1 = m ∧ Inv (next i).2 ∧ pending (next i).2 = moves)
    {i : ι} (hi : Inv i) (hne : Move.invalid ∉ pending i) : Yields next i (pending i) := by
  refine ⟨hne, fun n => ?_⟩
  clear hne
  induction n generalizing i with
  | zero => simp [calls]
  | succ n ih =>
    rw [calls]
    cases hp : pending i with
    | nil =>
      obtain ⟨hm, hi', hp'⟩ := hnil i hi hp
      rw [ih hi', hm, hp', List.take_nil, List.take_nil, List.length_nil]
      exact List.replicate_succ.symm
    | cons m moves =>
      obtain ⟨hm, hi', hp'⟩ := hcons i m moves hi hp
      rw [ih hi', hm, hp', List.take_succ_cons, List.length_cons, Nat.add_sub_add_right]
      rfl

end Iterators

section Order

def laterStages : MovePickerStage → List MovePickerStage
  | .start => [.hashMove, .capture, .simplePromote, .killer, .history]
  | .hashMove => [.capture, .simplePromote, .killer, .history]
  | .capture => [.simplePromote, .killer, .history]
  | .simplePromote => [.killer, .history]
  | .killer => [.history]
  | .history | .finished => []

theorem laterStages_next (stage : MovePickerStage) :
    stage.next :: laterStages stage.next = laterStages stage ∨
      stage.next = .finished ∧ laterStages stage = [] := by
  cases stage <;> decide

theorem stage_next_toNat (stage : MovePickerStage) :
    stage.next.toNat = min 6 (stage.toNat + 1) := by
  cases stage <;> rfl

theorem toNat_le_six (stage : MovePickerStage) : stage.toNat ≤ 6 := by
  cases stage <;> decide

theorem toNat_eq_six {stage : MovePickerStage} : stage.toNat = 6 ↔ stage = .finished := by
  cases stage <;> decide

theorem size_pop {p : MovePicker} {m : Move} {moves : List Move} (h : p.moves = m :: moves) :
    MovePicker.size { p with moves := moves } < p.size := by
  refine Prod.Lex.toLex_lt_toLex.mpr (Or.inr ⟨rfl, ?_⟩)
  rw [h]
  exact Nat.lt_succ_self _

end Order

section Stages

variable [Globals] (S : Sorter) (b : Board) (hash : Move) (killers : KillerLine)
variable (history : HistoryTable)

/-- What `next` makes of a move of a stage other than the first one. -/
def withoutHash (m : Move) : Move := if m = hash then Move.null else m

/-- What the picker returns in a stage. -/
def stageMoves : MovePickerStage → List Move
  | .start | .finished => []
  | .hashMove => if hash ≠ Move.null then [hash] else []
  | .capture => (sortMvvLva S b (mkMoveGen b).genCaptures).map (withoutHash hash)
  | .simplePromote => (sortSimplePromotes S (mkMoveGen b).genSimplePromotes).map (withoutHash hash)
  | .killer =>
    ([killers.first, killers.second].filter (isValidKiller b)).map (withoutHash hash)
  | .history =>
    ((S.sort (fun move => (history.get move).toNat) (mkMoveGen b).genSimpleMovesNoPromote).map
      fun move => if move = killers.first ∨ move = killers.second then Move.null else move).map
        (withoutHash hash)

/-- What the picker has yet to return in its current stage. -/
def current (p : MovePicker) : List Move :=
  match p.stage with
  | .finished => []
  | .hashMove => p.moves
  | _ => p.moves.map (withoutHash hash)

def pending (p : MovePicker) : List Move :=
  current hash p ++ (laterStages p.stage).flatMap (stageMoves S b hash killers history)

/-- A picker of the board `b`, which has saved the killers once it has used them. -/
structure Picks (p : MovePicker) : Prop where
  gen : p.gen = mkMoveGen b
  hashMove : p.hashMove = hash
  saved : p.stage = .killer ∨ p.stage = .history →
    p.savedKillers = (killers.first, killers.second)
  finished : p.stage = .finished → ∀ m ∈ p.moves, m = Move.invalid

variable {S b hash killers history} {p : MovePicker}

theorem gen_board : (mkMoveGen b).b = b := by
  rw [mkMoveGen]
  dsimp only
  split_ifs <;> rfl

variable (S history) in
theorem current_fill (hgen : p.gen = mkMoveGen b) (hhash : p.hashMove = hash)
    (hsaved : p.stage = .history → p.savedKillers = (killers.first, killers.second))
    (hempty : p.moves = []) :
    current hash (MovePicker.fill S killers history p) = stageMoves S b hash killers history p.stage := by
  obtain ⟨stage, hashMove, gen, moves, saved⟩ := p
  simp only at hgen hhash hsaved hempty
  subst hgen hhash hempty
  cases stage with
  | start | finished | hashMove => rfl
  | capture | killer => simp [MovePicker.fill, current, stageMoves, gen_board]
  | simplePromote => rfl
  | history =>
    rw [hsaved rfl]
    rfl

theorem fill_stage : (MovePicker.fill S killers history p).stage = p.stage := by
  unfold MovePicker.fill
  split <;> simp_all

variable (S history) in
theorem fill_next (h : Picks b hash killers p) (hempty : p.moves = []) :
    Picks b hash killers (MovePicker.fill S killers history
      { p with stage := p.stage.next, moves := [] }) ∧
    pending S b hash killers history (MovePicker.fill S killers history
      { p with stage := p.stage.next, moves := [] }) = pending S b hash killers history p := by
  have hcurrent : current hash p = [] := by
    unfold current
    split <;> simp [hempty]
  constructor
  · obtain ⟨hgen, hhash, hsaved, hfinished⟩ := h
    obtain ⟨stage, hashMove, gen, moves, saved⟩ := p
    simp only at hgen hhash hsaved hfinished hempty
    cases stage <;> constructor <;> simp_all [MovePicker.fill, MovePickerStage.next]
  · have hfill := current_fill S history (p := { p with stage := p.stage.next, moves := [] })
      h.gen h.hashMove
      (fun hs => h.saved (by cases hp : p.stage <;> simp_all [MovePickerStage.next])) rfl
    rw [pending, pending, hfill, fill_stage, hcurrent]
    cases laterStages_next p.stage with
    | inl hl => rw [← hl, List.flatMap_cons, List.nil_append]
    | inr hl =>
      rw [hl.1, hl.2]
      rfl

variable (S history) in
/-- The loop ends at a stage with moves. -/
theorem nextStage_spec (turns : Nat) (h : Picks b hash killers p) (hempty : p.moves = [])
    (hturns : 6 ≤ turns + p.stage.toNat) (hpos : 0 < turns) :
    Picks b hash killers (MovePicker.nextStage S killers history turns p) ∧
    pending S b hash killers history (MovePicker.nextStage S killers history turns p) =
      pending S b hash killers history p ∧
    (MovePicker.nextStage S killers history turns p).moves ≠ [] ∧
    p.stage.next.toNat ≤ (MovePicker.nextStage S killers history turns p).stage.toNat := by
  induction turns generalizing p with
  | zero => omega
  | succ turns ih =>
    obtain ⟨hpicks, hpending⟩ := fill_next S history h hempty
    rw [MovePicker.nextStage]
    have hstage : (MovePicker.fill S killers history
        { p with stage := p.stage.next, moves := [] }).stage = p.stage.next := fill_stage
    have hnext := stage_next_toNat p.stage
    split
    · rename_i hmoves
      have hne : p.stage.next ≠ .finished := by
        intro he
        rw [he] at hmoves
        simp [MovePicker.fill] at hmoves
      have hlt : p.stage.next.toNat ≠ 6 := mt toNat_eq_six.mp hne
      obtain ⟨h1, h2, h3, h4⟩ := ih hpicks hmoves (by rw [hstage]; omega) (by omega)
      refine ⟨h1, h2.trans hpending, h3, ?_⟩
      rw [hstage, stage_next_toNat p.stage.next] at h4
      omega
    · rename_i hmoves
      exact ⟨hpicks, hpending, hmoves, by rw [hstage]⟩

variable (S history) in
theorem pop_spec (h : Picks b hash killers p) {m : Move} {moves : List Move}
    (hm : p.moves = m :: moves) :
    Picks b hash killers { p with moves := moves } ∧
      if p.stage = .finished then
        m = Move.invalid ∧ pending S b hash killers history p = [] ∧
          pending S b hash killers history { p with moves := moves } = []
      else pending S b hash killers history p =
        (if p.stage ≠ .hashMove ∧ m = p.hashMove then Move.null else m) ::
          pending S b hash killers history { p with moves := moves } := by
  obtain ⟨stage, hashMove, gen, pmoves, saved⟩ := p
  obtain ⟨hgen, hhash, hsaved, hfinished⟩ := h
  simp only at hgen hhash hsaved hfinished hm
  subst hm hhash
  refine ⟨⟨hgen, rfl, hsaved, fun hs m hm => hfinished hs m (List.mem_cons_of_mem _ hm)⟩, ?_⟩
  cases stage <;> simp_all [pending, current, withoutHash, laterStages]

variable (S history) in
theorem ready_spec (h : Picks b hash killers p) :
    ∃ q, (if p.moves = [] then MovePicker.nextStage S killers history 6 p else p) = q ∧
      Picks b hash killers q ∧
      pending S b hash killers history q = pending S b hash killers history p ∧ q.moves ≠ [] ∧
      (q.stage ≠ .finished → q.size ≤ p.size ∨ q.stage.toNat > p.stage.toNat) := by
  split
  · rename_i hempty
    obtain ⟨hq, hpending, hne, hstage⟩ := nextStage_spec S history 6 h hempty
      (by omega) (by omega)
    refine ⟨_, rfl, hq, hpending, hne, fun hs => Or.inr ?_⟩
    have hlt := mt toNat_eq_six.mp hs
    have hle := toNat_le_six (MovePicker.nextStage S killers history 6 p).stage
    rw [stage_next_toNat] at hstage
    omega
  · rename_i hne
    exact ⟨p, rfl, h, rfl, hne, fun _ => Or.inl le_rfl⟩

variable (S history) in
/-- The two ways through a call of `next`. -/
theorem next_cases (h : Picks b hash killers p) (hhash : hash ≠ Move.invalid) :
    (∃ m moves, pending S b hash killers history p = m :: moves ∧
        (MovePicker.next S killers history p).1 = m ∧
        Picks b hash killers (MovePicker.next S killers history p).2 ∧
        pending S b hash killers history (MovePicker.next S killers history p).2 = moves ∧
        (MovePicker.next S killers history p).2.size < p.size) ∨
      pending S b hash killers history p = [] ∧
        (MovePicker.next S killers history p).1 = Move.invalid ∧
        Picks b hash killers (MovePicker.next S killers history p).2 ∧
        pending S b hash killers history (MovePicker.next S killers history p).2 = [] := by
  obtain ⟨q, hq, hpicks, hpending, hne, hsize⟩ := ready_spec S history h
  rw [MovePicker.next, hq, ← hpending]
  cases hm : q.moves with
  | nil => exact absurd hm hne
  | cons m moves =>
    obtain ⟨hpicks', hpop⟩ := pop_spec S history hpicks hm
    split at hpop
    · rename_i hstage
      obtain ⟨rfl, hnil, hnil'⟩ := hpop
      refine Or.inr ⟨hnil, if_neg fun hcond => ?_, hpicks', hnil'⟩
      exact hhash (hpicks.hashMove.symm.trans hcond.2.symm)
    · rename_i hstage
      refine Or.inl ⟨_, _, hpop, rfl, hpicks', rfl, ?_⟩
      cases hsize hstage with
      | inl hle => exact lt_of_lt_of_le (size_pop hm) hle
      | inr hgt =>
        refine Prod.Lex.toLex_lt_toLex.mpr (Or.inl ?_)
        have hle := toNat_le_six q.stage
        change 6 - q.stage.toNat < 6 - p.stage.toNat
        omega

theorem yields_next (h : Picks b hash killers p) (hhash : hash ≠ Move.invalid)
    (hne : Move.invalid ∉ pending S b hash killers history p) :
    Yields (MovePicker.next S killers history) p (pending S b hash killers history p) := by
  refine yields_of_pending (Picks b hash killers) _ ?_ ?_ h hne
  · intro p hp hnil
    rcases next_cases S history hp hhash with ⟨m, moves, hcons, -⟩ | ⟨-, hm, h1, h2⟩
    · rw [hnil] at hcons
      cases hcons
    · exact ⟨hm, h1, h2⟩
  · intro p m moves hp hcons
    rcases next_cases S history hp hhash with
      ⟨m', moves', hcons', hm, h1, h2, -⟩ | ⟨hnil, -⟩
    · rw [hcons] at hcons'
      obtain ⟨rfl, rfl⟩ := List.cons.inj hcons'
      exact ⟨hm, h1, h2⟩
    · rw [hcons] at hnil
      cases hnil

theorem drain_eq (h : Picks b hash killers p) (hhash : hash ≠ Move.invalid)
    (hne : Move.invalid ∉ pending S b hash killers history p) :
    MovePicker.drain S killers history p =
      some ((pending S b hash killers history p).filter fun m => decide (m ≠ Move.null)) := by
  generalize hl : pending S b hash killers history p = l
  rw [hl] at hne
  induction l generalizing p with
  | nil =>
    rcases next_cases S history h hhash with ⟨m, moves, hcons, -⟩ | ⟨-, hm, -⟩
    · rw [hl] at hcons
      cases hcons
    · rw [MovePicker.drain, if_pos hm]
      rfl
  | cons m moves ih =>
    obtain ⟨hm, hne⟩ := List.ne_and_not_mem_of_not_mem_cons hne
    rcases next_cases S history h hhash with
      ⟨m', moves', hcons, hm', hp, hmoves, hsize⟩ | ⟨hnil, -⟩
    · rw [hl] at hcons
      obtain ⟨rfl, rfl⟩ := List.cons.inj hcons
      rw [MovePicker.drain, if_neg (by rw [hm']; exact Ne.symm hm), if_pos hsize, ih hp hne hmoves, hm']
      by_cases hnull : m = Move.null <;> simp [hnull]
    · rw [hl] at hnil
      cases hnil

end Stages

section Contents

variable [Globals] {S : Sorter} {b : Board} {hash : Move} {killers : KillerLine}
variable {history : HistoryTable} {m : Move}

/-- A killer line that was built out of well-formed moves. -/
inductive Built (c : Color) : KillerLine → Prop where
  | empty : Built c KillerLine.empty
  | add {killers : KillerLine} {m : Move} (h : Built c killers) (hm : m.isWellFormed c = true) :
      Built c (killers.add m)

omit [Globals] in
theorem Built.spec {c : Color} (h : Built c killers) :
    killers.first.isWellFormed c = true ∧ killers.second.isWellFormed c = true ∧
      (killers.first = killers.second → killers.first = Move.null) := by
  have hnull : Move.null.isWellFormed c = true := by cases c <;> decide
  induction h with
  | empty => exact ⟨hnull, hnull, fun _ => rfl⟩
  | add h hm ih =>
    rw [KillerLine.add]
    split
    · exact ih
    · rename_i hne
      exact ⟨hm, ih.1, fun he => absurd he hne⟩

theorem isMoveValid_null (b : Board) : isMoveValid b Move.null = false := rfl

section Masks

variable {f : Move → Move} (hf : ∀ m, f m = m ∨ f m = Move.null)

include hf

omit [Globals] in
theorem mem_masked {l : List Move} (hm : m ≠ Move.null) : m ∈ l.map f ↔ m ∈ l ∧ f m = m := by
  rw [List.mem_map]
  constructor
  · intro h
    obtain ⟨m', hm', rfl⟩ := h
    cases hf m' with
    | inl he => exact ⟨he.symm ▸ hm', by rw [he, he]⟩
    | inr he => exact absurd he hm
  · intro h
    exact ⟨m, h⟩

omit [Globals] in
theorem nodup_masked {l : List Move} (hl : l.Nodup) :
    ((l.map f).filter fun m => decide (m ≠ Move.null)).Nodup := by
  refine List.Nodup.sublist ?_ hl
  clear hl
  induction l with
  | nil => exact List.Sublist.slnil
  | cons m l ih =>
    rw [List.map_cons, List.filter_cons]
    split
    · rename_i hm
      rw [(hf m).resolve_right (by simpa using hm)]
      exact ih.cons_cons m
    · exact ih.cons m

end Masks

omit [Globals] in
theorem withoutHash_cases (hash m : Move) :
    withoutHash hash m = m ∨ withoutHash hash m = Move.null := by
  unfold withoutHash
  split
  · exact Or.inr rfl
  · exact Or.inl rfl

omit [Globals] in
theorem withoutHash_eq_self (hm : m ≠ Move.null) : withoutHash hash m = m ↔ m ≠ hash := by
  unfold withoutHash
  split
  · rename_i h
    exact iff_of_false (Ne.symm hm) (not_not.mpr h)
  · rename_i h
    exact iff_of_true rfl h

omit [Globals] in
theorem sortMvvLva_perm {l : List Move} (h : ∀ m ∈ l, m.tag = 0) : (sortMvvLva S b l).Perm l := by
  rw [sortMvvLva]
  refine ((S.perm _ _).map _).trans (List.Perm.of_eq ?_)
  rw [List.map_map]
  refine (List.map_congr_left fun m hm => ?_).trans (List.map_id l)
  have ht := h m hm
  obtain ⟨kind, src, dst, tag⟩ := m
  simp only at ht
  subst ht
  rfl

theorem sortMvvLva_captures (hb : Regular b) :
    (sortMvvLva S b (mkMoveGen b).genCaptures).Perm (mkMoveGen b).genCaptures := by
  refine sortMvvLva_perm fun m hm => ?_
  obtain ⟨k, s, t, rfl, -⟩ := pseudo_of_mem_genImpl hb hm
  rfl

/-- Whence a stage takes a move that it returns. -/
def Supplies (b : Board) (hash : Move) (killers : KillerLine) (m : Move) : MovePickerStage → Prop
  | .start | .finished => False
  | .hashMove => m = hash
  | .capture => m ∈ (mkMoveGen b).genAllMoves ∧ isMoveCapture b m = true ∧ m ≠ hash
  | .simplePromote => m ∈ (mkMoveGen b).genAllMoves ∧ isMoveCapture b m = false ∧
      isMoveKindPromote m.kind = true ∧ m ≠ hash
  | .killer => (m = killers.first ∨ m = killers.second) ∧ isValidKiller b m = true ∧ m ≠ hash
  | .history => m ∈ (mkMoveGen b).genAllMoves ∧ isMoveCapture b m = false ∧
      isMoveKindPromote m.kind = false ∧ m ≠ killers.first ∧ m ≠ killers.second ∧ m ≠ hash

theorem mem_stageMoves (hb : Regular b) (hm : m ≠ Move.null) (stage : MovePickerStage) :
    m ∈ stageMoves S b hash killers history stage ↔ Supplies b hash killers m stage := by
  cases stage with
  | start | finished => simp [stageMoves, Supplies]
  | hashMove =>
    rw [stageMoves, Supplies]
    split
    · exact List.mem_singleton
    · rename_i hnull
      rw [not_not.mp hnull]
      exact iff_of_false List.not_mem_nil hm
  | capture =>
    rw [stageMoves, mem_masked (withoutHash_cases hash) hm, (sortMvvLva_captures hb).mem_iff,
      mem_genCaptures hb, withoutHash_eq_self hm, Supplies, and_assoc]
  | simplePromote =>
    rw [stageMoves, mem_masked (withoutHash_cases hash) hm, sortSimplePromotes, (S.perm _ _).mem_iff,
      mem_genSimplePromotes hb, withoutHash_eq_self hm, Supplies, and_assoc, and_assoc]
  | killer =>
    rw [stageMoves, mem_masked (withoutHash_cases hash) hm, List.mem_filter,
      withoutHash_eq_self hm, Supplies, and_assoc, List.mem_pair]
  | history =>
    rw [stageMoves, mem_masked (withoutHash_cases hash) hm, mem_masked ?_ hm, (S.perm _ _).mem_iff,
      mem_genSimpleMovesNoPromote hb, withoutHash_eq_self hm, Supplies]
    · have hkillers : (if m = killers.first ∨ m = killers.second then Move.null else m) = m ↔
          m ≠ killers.first ∧ m ≠ killers.second := by
        split
        · rename_i h
          exact iff_of_false (Ne.symm hm) (by tauto)
        · rename_i h
          exact iff_of_true rfl (by tauto)
      rw [hkillers]
      simp only [and_assoc]
    · intro m
      split
      · exact Or.inr rfl
      · exact Or.inl rfl

theorem nodup_stageMoves (hb : Regular b) (hk : Built b.side killers) (stage : MovePickerStage) :
    ((stageMoves S b hash killers history stage).filter fun m => decide (m ≠ Move.null)).Nodup := by
  cases stage with
  | start | finished => exact List.nodup_nil
  | hashMove =>
    rw [stageMoves]
    split
    · exact (List.nodup_singleton hash).filter _
    · exact List.nodup_nil
  | capture =>
    exact nodup_masked (withoutHash_cases hash)
      ((sortMvvLva_captures hb).nodup_iff.mpr (nodup_genImpl hb _ _ _))
  | simplePromote =>
    exact nodup_masked (withoutHash_cases hash)
      ((S.perm _ _).nodup_iff.mpr (nodup_genSimplePromotes hb))
  | killer =>
    refine nodup_masked (withoutHash_cases hash) ?_
    by_cases he : killers.first = killers.second
    · have hinvalid : isValidKiller b killers.first = false := by
        rw [hk.spec.2.2 he, isValidKiller, isMoveValid_null, Bool.and_false]
      simp [← he, hinvalid]
    · exact (List.nodup_cons.mpr ⟨by simpa using he, List.nodup_singleton _⟩).filter _
  | history =>
    rw [stageMoves, List.map_map]
    refine nodup_masked (fun m => ?_) ((S.perm _ _).nodup_iff.mpr (nodup_genImpl hb _ _ _))
    rw [Function.comp_apply]
    split
    · exact Or.inr ((withoutHash_cases hash Move.null).elim id id)
    · exact withoutHash_cases hash m

theorem Supplies.unique {stage stage' : MovePickerStage} (h : Supplies b hash killers m stage)
    (h' : Supplies b hash killers m stage') : stage = stage' := by
  have hvalid : ∀ {x}, isValidKiller b x = true →
      isMoveCapture b x = false ∧ isMoveKindPromote x.kind = false := by
    intro x hx
    rw [isValidKiller, Bool.and_eq_true, Bool.and_eq_true] at hx
    exact ⟨by simpa using hx.1.1, by simpa using hx.1.2⟩
  cases stage <;> cases stage' <;> simp only [Supplies] at h h' <;> grind

theorem pending_create : pending S b hash killers history (MovePicker.create b hash) =
    (laterStages .start).flatMap (stageMoves S b hash killers history) := rfl

theorem mem_pending_create (hb : Regular b) (hm : m ≠ Move.null) :
    m ∈ pending S b hash killers history (MovePicker.create b hash) ↔
      ∃ stage, Supplies b hash killers m stage := by
  rw [pending_create, List.mem_flatMap]
  constructor
  · intro h
    obtain ⟨stage, -, h⟩ := h
    exact ⟨stage, (mem_stageMoves hb hm stage).mp h⟩
  · intro h
    obtain ⟨stage, h⟩ := h
    refine ⟨stage, ?_, (mem_stageMoves hb hm stage).mpr h⟩
    cases stage <;> first | exact h.elim | decide

theorem nodup_pending_create (hb : Regular b) (hk : Built b.side killers) :
    ((pending S b hash killers history (MovePicker.create b hash)).filter
      fun m => decide (m ≠ Move.null)).Nodup := by
  rw [pending_create, List.filter_flatMap, List.nodup_flatMap]
  refine ⟨fun stage _ => nodup_stageMoves hb hk stage, ?_⟩
  have hdisjoint : ∀ {stage stage' : MovePickerStage}, stage ≠ stage' →
      List.Disjoint ((stageMoves S b hash killers history stage).filter
        fun m => decide (m ≠ Move.null)) ((stageMoves S b hash killers history stage').filter
        fun m => decide (m ≠ Move.null)) := by
    intro stage stage' hne m h h'
    rw [List.mem_filter, decide_eq_true_eq] at h h'
    exact hne (((mem_stageMoves hb h.2 stage).mp h.1).unique ((mem_stageMoves hb h'.2 stage').mp h'.1))
  have hstages : (laterStages .start).Pairwise (· ≠ ·) := by decide
  exact hstages.imp fun h => hdisjoint h

theorem Supplies.playable {stage : MovePickerStage} (hb : Regular b) (hm : m ≠ Move.null)
    (hh : hash = Move.null ∨ hash.isWellFormed b.side = true ∧ isMoveValid b hash = true)
    (hk : Built b.side killers) (h : Supplies b hash killers m stage) :
    m.isWellFormed b.side = true ∧ isMoveValid b m = true := by
  have hall : m ∈ (mkMoveGen b).genAllMoves →
      m.isWellFormed b.side = true ∧ isMoveValid b m = true := fun h =>
    ((pseudo_iff_isMoveValid hb).mp (pseudo_of_mem_genImpl hb h)).2
  cases stage with
  | start | finished => exact h.elim
  | hashMove =>
    obtain rfl : m = hash := h
    exact hh.resolve_left hm
  | capture | simplePromote | history => exact hall h.1
  | killer =>
    obtain ⟨hkiller, hvalid, -⟩ := h
    rw [isValidKiller, Bool.and_eq_true] at hvalid
    refine ⟨?_, hvalid.2⟩
    rcases hkiller with rfl | rfl
    · exact hk.spec.1
    · exact hk.spec.2.1

theorem exists_supplies (h : m ∈ (mkMoveGen b).genAllMoves) (hb : Regular b) :
    ∃ stage, Supplies b hash killers m stage := by
  by_cases hh : m = hash
  · exact ⟨.hashMove, hh⟩
  · cases hc : isMoveCapture b m with
    | true => exact ⟨.capture, h, hc, hh⟩
    | false =>
      cases hp : isMoveKindPromote m.kind with
      | true => exact ⟨.simplePromote, h, hc, hp, hh⟩
      | false =>
        by_cases hk : m = killers.first ∨ m = killers.second
        · refine ⟨.killer, hk, ?_, hh⟩
          have hv := ((pseudo_iff_isMoveValid hb).mp (pseudo_of_mem_genImpl hb h)).2.2
          rw [isValidKiller, hc, hp, hv]
          rfl
        · rw [not_or] at hk
          exact ⟨.history, h, hc, hp, hk.1, hk.2, hh⟩

omit [Globals] in
theorem isWellFormed_ne_invalid {c : Color} (h : m.isWellFormed c = true) : m ≠ Move.invalid := by
  rintro rfl
  cases c <;> exact absurd h (by decide)

theorem picks_create : Picks b hash killers (MovePicker.create b hash) where
  gen := rfl
  hashMove := rfl
  saved h := by simp [MovePicker.create] at h
  finished h := by simp [MovePicker.create] at h

omit [Globals] in
theorem arrange_perm (D : Shuffler) (jobId : Nat) (moves : List Move) :
    (RootNodeMovePicker.arrange D jobId moves).Perm moves := by
  unfold RootNodeMovePicker.arrange
  split_ifs
  · exact List.Perm.refl moves
  · have h := (List.reverse_perm (moves.take (jobId + 1))).append_right (moves.drop (jobId + 1))
    rwa [List.take_append_drop] at h
  · exact D.perm moves

omit [Globals] in
theorem yields_root (moves : List Move) (h : Move.invalid ∉ moves) :
    Yields RootNodeMovePicker.next ⟨moves⟩ moves := by
  refine yields_of_pending (fun _ => True) RootNodeMovePicker.moves
    (fun p _ hp => ?_) (fun p m moves _ hp => ?_) trivial h
  · rw [RootNodeMovePicker.next, hp]
    exact ⟨rfl, trivial, hp⟩
  · rw [RootNodeMovePicker.next, hp]
    exact ⟨rfl, trivial, rfl⟩

theorem playable_pending (hb : Regular b)
    (hh : hash = Move.null ∨ hash.isWellFormed b.side = true ∧ isMoveValid b hash = true)
    (hk : Built b.side killers)
    (hm : m ∈ pending S b hash killers history (MovePicker.create b hash)) (hne : m ≠ Move.null) :
    m.isWellFormed b.side = true ∧ isMoveValid b m = true := by
  obtain ⟨stage, h⟩ := (mem_pending_create hb hne).mp hm
  exact h.playable hb hne hh hk

theorem hash_ne_invalid
    (hh : hash = Move.null ∨ hash.isWellFormed b.side = true ∧ isMoveValid b hash = true) :
    hash ≠ Move.invalid := by
  cases hh with
  | inl h => exact fun h' => absurd (h.symm.trans h') (by decide)
  | inr h => exact isWellFormed_ne_invalid h.1

theorem invalid_not_mem_pending (hb : Regular b)
    (hh : hash = Move.null ∨ hash.isWellFormed b.side = true ∧ isMoveValid b hash = true)
    (hk : Built b.side killers) :
    Move.invalid ∉ pending S b hash killers history (MovePicker.create b hash) := fun hm =>
  isWellFormed_ne_invalid (playable_pending hb hh hk hm (by decide)).1 rfl

theorem create_root (hb : Regular b)
    (hh : hash = Move.null ∨ hash.isWellFormed b.side = true ∧ isMoveValid b hash = true)
    (hk : Built b.side killers) (D : Shuffler) (jobId : Nat) :
    RootNodeMovePicker.create S D killers history (MovePicker.create b hash) jobId =
      some ⟨RootNodeMovePicker.arrange D jobId ((pending S b hash killers history
        (MovePicker.create b hash)).filter fun m => decide (m ≠ Move.null))⟩ := by
  rw [RootNodeMovePicker.create, drain_eq picks_create (hash_ne_invalid hh)
    (invalid_not_mem_pending hb hh hk), Option.map_some]

/-- Each pseudo-legal move that the generator knows is returned once, whatever
the hash move, the killers and the history suggest. -/
theorem picks_each_once (hb : Valid b) (S : Sorter)
    (hh : hash = Move.null ∨ hash.isWellFormed b.side = true ∧ isMoveValid b hash = true)
    (hk : Built b.side killers) (history : HistoryTable) :
    ∃ moves, Yields (MovePicker.next S killers history) (MovePicker.create b hash) moves ∧
      (moves.filter fun m => decide (m ≠ Move.null)).Nodup ∧
      (∀ m ∈ moves, m ≠ Move.null → isMoveValid b m = true) ∧
      (∀ m ∈ (mkMoveGen b).genAllMoves, m ∈ moves) ∧
      ∀ (D : Shuffler) (jobId : Nat), ∃ root moves',
        RootNodeMovePicker.create S D killers history (MovePicker.create b hash) jobId = some root ∧
        Yields RootNodeMovePicker.next root moves' ∧
        moves'.Perm (moves.filter fun m => decide (m ≠ Move.null)) := by
  obtain ⟨hr, -⟩ := valid_iff.mp hb
  have hinvalid : Move.invalid ∉ pending S b hash killers history (MovePicker.create b hash) :=
    invalid_not_mem_pending hr hh hk
  refine ⟨_, yields_next picks_create (hash_ne_invalid hh) hinvalid, nodup_pending_create hr hk,
    fun m hm hne => (playable_pending hr hh hk hm hne).2, fun m hm => ?_, fun D jobId => ?_⟩
  · have hne : m ≠ Move.null := by
      rintro rfl
      have := ((pseudo_iff_isMoveValid hr).mp (pseudo_of_mem_genImpl hr hm)).2.2
      rw [isMoveValid_null] at this
      exact absurd this Bool.false_ne_true
    exact (mem_pending_create hr hne).mpr (exists_supplies hm hr)
  · have hperm := arrange_perm D jobId ((pending S b hash killers history
      (MovePicker.create b hash)).filter fun m => decide (m ≠ Move.null))
    refine ⟨_, _, create_root hr hh hk D jobId, yields_root _ fun hm => hinvalid ?_, hperm⟩
    exact (List.mem_filter.mp (hperm.mem_iff.mp hm)).1

omit [Globals] in
theorem picks_each_once_passed : letI := spreadGlobals
    let hash := mkMove .enpassant 28 19
    let killers := (KillerLine.empty.add (mkMove .castlingQueenside 60 58)).add (mkMove .simple 28 20)
    let history := (HistoryTable.empty.add (mkMove .simple 60 52) 9).add (mkMove .simple 28 20) 16
    ∃ moves, Yields (MovePicker.next Sorter.inserting killers history)
        (MovePicker.create passedBoard hash) moves ∧
      (moves.filter fun m => decide (m ≠ Move.null)).Nodup ∧
      (∀ m ∈ moves, m ≠ Move.null → isMoveValid passedBoard m = true) ∧
      (∀ m ∈ (mkMoveGen passedBoard).genAllMoves, m ∈ moves) ∧
      ∀ (D : Shuffler) (jobId : Nat), ∃ root moves',
        RootNodeMovePicker.create Sorter.inserting D killers history
          (MovePicker.create passedBoard hash) jobId = some root ∧
        Yields RootNodeMovePicker.next root moves' ∧
        moves'.Perm (moves.filter fun m => decide (m ≠ Move.null)) := by
  let _ := spreadGlobals
  obtain ⟨hside, hvalid⟩ := spec_passedBoard
  have hhash : (mkMove .enpassant 28 19).isWellFormed passedBoard.side = true := by
    rw [hside]
    decide
  have hkillers : Built passedBoard.side
      ((KillerLine.empty.add (mkMove .castlingQueenside 60 58)).add (mkMove .simple 28 20)) := by
    rw [hside]
    exact (Built.empty.add (by decide)).add (by decide)
  exact picks_each_once valid_passedBoard Sorter.inserting
    (Or.inr ⟨hhash, hvalid⟩) hkillers _

end Contents

end SoFCheck.Search.Enumeration
