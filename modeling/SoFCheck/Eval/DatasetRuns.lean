import SoFCheck.Core.InitialPosition
import SoFCheck.Eval.FeatureExtractor

namespace SoFCheck.Eval.MakeDataset

open SoFCheck.Util.CString SoFCheck.Util.Ioutil SoFCheck.Util.Transition SoFCheck.Util.Queue
open SoFCheck.Core.BoardState SoFCheck.Gameset.Types
open SoFCheck.Util.Queue.BlockingQueue (Alert Kind Truthful held kind content)

variable {n : Nat} {s s' : State n} {coefs : Board → List Int32}

section Deadlock

/-- The writers are where their calls expect them, and all games have a winner. -/
structure Writable (s : State n) : Prop where
  known : ∀ batch ∈ s.boardQueue.content, ∀ b ∈ batch, b.winner ≠ .unknown
  waiting : ∀ b ∈ s.batch ++ s.boards, b.winner ≠ .unknown
  bufs : ∀ i, (s.bufs i).bufPos = 0
  out : s.out.bufPos ≤ bufferSize

theorem mem_content {α : Type} {q : BlockingQueue (Thread n) α} {t : Thread n} {value : α}
    (h : value ∈ held (q.calls t)) : value ∈ q.content := by
  apply Multiset.mem_add.mpr
  apply Or.inr
  exact Multiset.mem_sum.mpr ⟨t, Finset.mem_univ t, h⟩

/-- Nobody can do anything, but wake for no reason. -/
def Stuck (coefs : Board → List Int32) (s : State n) : Prop :=
  ∀ a : Action n, a.spurious = false → (step coefs s a).isSome = false

namespace Stuck

theorem boardQueue (h : Stuck coefs s) (t : Thread n) :
    BlockingQueue.Resting (s.boardQueue.calls t) := by
  by_contra hrest
  have hexists : ∃ a, BlockingQueue.spurious a = false ∧
      (s.boardQueue.step queueSize a).isSome = true := BlockingQueue.exists_step hrest
  obtain ⟨a, ha, hstep⟩ := hexists
  have hnone := h (.boardQueue a) ha
  rw [step, Option.isSome_map, hstep] at hnone
  cases hnone

theorem stringQueue (h : Stuck coefs s) (t : Thread n) :
    BlockingQueue.Resting (s.stringQueue.calls t) := by
  by_contra hrest
  have hexists : ∃ a, BlockingQueue.spurious a = false ∧
      (s.stringQueue.step queueSize a).isSome = true := BlockingQueue.exists_step hrest
  obtain ⟨a, ha, hstep⟩ := hexists
  have hnone := h (.stringQueue a) ha
  rw [step, Option.isSome_map, hstep] at hnone
  cases hnone

theorem main (h : Stuck coefs s) : mainStep s = none := by
  have hnone := h .main rfl
  rwa [Option.isSome_eq_false_iff, Option.isNone_iff_eq_none] at hnone

theorem printer_waits (h : Stuck coefs s) (hw : Writable s)
    (hk : kind (s.stringQueue.calls .printer) = some .pop) :
    (s.stringQueue.calls .printer).waits .empty = true := by
  apply (BlockingQueue.resting_pop (h.stringQueue .printer) hk).resolve_right
  intro hdone
  obtain ⟨answer, hanswer⟩ := hdone
  have hnone := h .printer rfl
  rw [step, printerStep, hanswer] at hnone
  split at hnone
  · obtain ⟨out, hout, -⟩ := writeStr_spec hw.out ‹_›
    rw [hout] at hnone
    cases hnone
  · cases hnone
  · rename_i hne
    exact hne answer rfl

theorem worker_waits (h : Stuck coefs s) (hw : Writable s) {i : Fin n}
    (hk : kind (s.boardQueue.calls (.worker i)) = some .pop) :
    (s.boardQueue.calls (.worker i)).waits .empty = true := by
  apply (BlockingQueue.resting_pop (h.boardQueue (.worker i)) hk).resolve_right
  intro hdone
  obtain ⟨answer, hanswer⟩ := hdone
  have hnone := h (.worker i fun _ => 0) rfl
  rw [step, workerStep, hanswer] at hnone
  split at hnone
  · rename_i inBatch hpopped
    have hknown : ∀ b ∈ inBatch, b.winner ≠ .unknown := by
      apply hw.known
      apply @mem_content _ _ _ (.worker i)
      rw [hanswer, hpopped]
      exact List.mem_singleton_self inBatch
    obtain ⟨buf, hbuf, -⟩ := writeBatch_spec coefs (fun _ => 0) (hw.bufs i) hknown
    rw [hbuf] at hnone
    cases hnone
  · cases hnone
  · rename_i hne
    exact hne answer rfl

theorem worker_waits_full (h : Stuck coefs s) {i : Fin n}
    (hb : kind (s.boardQueue.calls (.worker i)) = none)
    (hk : kind (s.stringQueue.calls (.worker i)) = some .push) :
    (s.stringQueue.calls (.worker i)).waits .full = true := by
  apply (BlockingQueue.resting_push (h.stringQueue (.worker i)) hk).resolve_right
  intro hdone
  obtain ⟨answer, hanswer⟩ := hdone
  have hnone := h (.worker i fun _ => 0) rfl
  have hidle : s.boardQueue.calls (.worker i) = .idle := by
    cases hcall : s.boardQueue.calls (.worker i) <;> rw [hcall] at hb <;> first | rfl | cases hb
  rw [step, workerStep, hidle, hanswer] at hnone
  cases hnone

theorem strings_not_full (h : Stuck coefs s) (hshape : Shape s) (hw : Writable s) (t : Thread n) :
    (s.stringQueue.calls t).waits .full = false := by
  apply Bool.eq_false_iff.mpr
  intro ht
  obtain ⟨hopen, hfull⟩ := hshape.stringFits.alert.asleep h.stringQueue ht
  rcases hshape.printer.2 with hp | ⟨-, hclosed, -⟩
  · obtain ⟨-, hempty⟩ := hshape.stringFits.alert.asleep h.stringQueue (h.printer_waits hw hp)
    apply hfull
    change s.stringQueue.items.length ≠ queueSize
    rw [not_not.mp hempty]
    decide
  · cases hopen.symm.trans hclosed

theorem boards_not_full (h : Stuck coefs s) (hshape : Shape s) (hw : Writable s) (hn : 0 < n)
    (t : Thread n) : (s.boardQueue.calls t).waits .full = false := by
  apply Bool.eq_false_iff.mpr
  intro ht
  obtain ⟨hopen, hfull⟩ := hshape.boardFits.alert.asleep h.boardQueue ht
  rcases hshape.worker ⟨0, hn⟩ with ⟨hp, -⟩ | ⟨hb, hp⟩ | ⟨-, hclosed, -⟩
  · obtain ⟨-, hempty⟩ := hshape.boardFits.alert.asleep h.boardQueue (h.worker_waits hw hp)
    apply hfull
    change s.boardQueue.items.length ≠ queueSize
    rw [not_not.mp hempty]
    decide
  · have hwaits := h.worker_waits_full hb hp
    rw [h.strings_not_full hshape hw] at hwaits
    cases hwaits
  · cases hopen.symm.trans hclosed

end Stuck

/-- A state in which nobody can do anything is the end. -/
theorem finished_of_stuck (h : Stuck coefs s) (hshape : Shape s) (hw : Writable s) (hn : 0 < n)
    (t : Thread n) : s.finished t := by
  have hmain := h.main
  have hboard := hshape.boardKind
  have hstring := hshape.stringKind
  unfold mainStep at hmain
  cases hm : s.main with
  | putHeader =>
    exfalso
    rw [hm] at hmain hstring
    rcases BlockingQueue.resting_push (h.stringQueue .main) hstring with hwaits | ⟨answer, hdone⟩
    · rw [h.strings_not_full hshape hw] at hwaits
      cases hwaits
    · rw [hdone] at hmain
      cases hmain
  | consume =>
    exfalso
    rw [hm] at hmain
    dsimp only at hmain
    split at hmain <;> cases hmain
  | drainBatch last =>
    exfalso
    rw [hm] at hmain hboard
    rcases BlockingQueue.resting_push (h.boardQueue .main) hboard with hwaits | ⟨answer, hdone⟩
    · rw [h.boards_not_full hshape hw hn] at hwaits
      cases hwaits
    · rw [hdone] at hmain
      cases hmain
  | closeBoards =>
    exfalso
    rw [hm] at hmain hboard
    obtain ⟨answer, hdone⟩ := BlockingQueue.resting_close (h.boardQueue .main) hboard
    rw [hdone] at hmain
    cases hmain
  | joinWorkers =>
    exfalso
    have hclosed := hshape.boardsClosed
    rw [hm] at hmain hclosed
    dsimp only at hmain
    split at hmain
    · cases hmain
    · rename_i hleft
      apply hleft
      intro i
      rcases hshape.worker i with ⟨hp, -⟩ | ⟨hb, hp⟩ | ⟨hf, -⟩
      · obtain ⟨hopen, -⟩ := hshape.boardFits.alert.asleep h.boardQueue (h.worker_waits hw hp)
        cases hopen.symm.trans (hclosed trivial)
      · have hwaits := h.worker_waits_full hb hp
        rw [h.strings_not_full hshape hw] at hwaits
        cases hwaits
      · exact hf
  | closeStrings =>
    exfalso
    rw [hm] at hmain hstring
    obtain ⟨answer, hdone⟩ := BlockingQueue.resting_close (h.stringQueue .main) hstring
    rw [hdone] at hmain
    cases hmain
  | joinPrinter =>
    exfalso
    have hclosed := hshape.stringsClosed
    rw [hm] at hmain hclosed
    dsimp only at hmain
    split at hmain
    · cases hmain
    · rename_i hleft
      have hp := hshape.printer.2.resolve_right fun hp => hleft hp.1
      obtain ⟨hopen, -⟩ := hshape.stringFits.alert.asleep h.stringQueue (h.printer_waits hw hp)
      cases hopen.symm.trans (hclosed trivial)
  | finished =>
    cases t with
    | main => exact hm
    | worker i =>
      have hjoined := hshape.joined
      rw [hm] at hjoined
      exact hjoined trivial i
    | printer => exact hshape.last hm

end Deadlock

section Batches

/-- How the main thread cuts the boards, beginning with a batch that is already there. -/
def cut : List RichBoard → List RichBoard → List (List RichBoard)
  | batch, [] => if batch = [] then [] else [batch]
  | batch, board :: boards =>
    if (batch ++ [board]).length = batchSize then (batch ++ [board]) :: cut [] boards
    else cut (batch ++ [board]) boards

theorem flatten_cut (batch boards : List RichBoard) : (cut batch boards).flatten = batch ++ boards := by
  induction boards generalizing batch with
  | nil =>
    unfold cut
    split
    · rename_i h
      rw [h]
      rfl
    · simp
  | cons board boards ih =>
    unfold cut
    split
    · rw [List.flatten_cons, ih, List.nil_append, List.append_assoc, List.singleton_append]
    · rw [ih, List.append_assoc, List.singleton_append]

theorem length_cut {batch : List RichBoard} (h : batch.length < batchSize) (boards : List RichBoard) :
    ∀ c ∈ cut batch boards, c.length ≤ batchSize := by
  induction boards generalizing batch with
  | nil =>
    intro c hc
    unfold cut at hc
    split at hc
    · cases hc
    · rw [List.mem_singleton.mp hc]
      exact h.le
  | cons board boards ih =>
    intro c hc
    unfold cut at hc
    split at hc
    · rename_i hlen
      rcases List.mem_cons.mp hc with hc | hc
      · rw [hc, hlen]
      · exact ih (by decide) c hc
    · rename_i hlen
      apply ih _ c hc
      rw [List.length_append, List.length_singleton] at hlen ⊢
      omega

end Batches

section Accounts

open BlockingQueue (content_setCall content_setCall_eq content_step)

/-- The lines of a batch. -/
def text (coefs : Board → List Int32) (batch : List RichBoard) : List Byte :=
  batch.flatMap (line coefs)

/-- What the printer has been given, in order. -/
def stream (s : State n) (printed : List (List Byte)) : List (List Byte) :=
  printed ++ (held (s.stringQueue.calls .printer) ++ s.stringQueue.items)

/-- Every board is on its way or printed, and the header is ahead of them all. -/
structure Accounts (coefs : Board → List Int32) (names : List (List Byte)) (all : List RichBoard)
    (s : State n) (printed : List (List Byte)) : Prop where
  total : (printed : Multiset (List Byte)) + s.stringQueue.content +
      s.boardQueue.content.map (text coefs) + ((cut s.batch s.boards).map (text coefs) : List _) =
    {header names} + ((cut [] all).map (text coefs) : List _)
  out : s.out.written ++ s.out.pending = printed.flatten
  first : (stream s printed).head? = some (header names) ∨
    stream s printed = [] ∧ held (s.stringQueue.calls .main) = [header names]
  quiet : s.main = .putHeader → s.boardQueue.content = 0 ∧
    ∀ i, kind (s.stringQueue.calls (.worker i)) = none

theorem held_eq_nil {α : Type} {call : Call α} (h : kind call = none) : held call = [] := by
  cases call <;> first | rfl | cases h

theorem held_done {α : Type} {call : Call α} {answer : Answer α} (h : call = .done answer)
    (hk : kind call ≠ some .pop) : held call = [] := by
  subst h
  cases answer with
  | popped value => exact absurd rfl hk
  | _ => rfl

theorem held_left {α : Type} {call : Call α} {answer : Answer α} (h : call = .done answer)
    (ha : ∀ value, answer ≠ .popped (some value)) : held call = [] := by
  subst h
  cases answer with
  | popped value =>
    cases value with
    | none => rfl
    | some value => exact absurd rfl (ha value)
  | _ => rfl

theorem Shape.push_board (h : Shape s) {t : Thread n}
    (ht : kind (s.boardQueue.calls t) = some .push) : s.boardQueue.closed = false := by
  cases t with
  | main =>
    apply h.boardsOpen
    have hk := h.boardKind
    rw [ht] at hk
    cases hm : s.main <;> rw [hm] at hk <;> trivial
  | worker i =>
    rcases h.worker i with ⟨hk, -⟩ | ⟨hk, -⟩ | ⟨⟨hk, -⟩, -⟩ <;> rw [ht] at hk <;> cases hk
  | printer =>
    have hk := h.printer.1
    rw [ht] at hk
    cases hk

theorem Shape.push_string (h : Shape s) {t : Thread n}
    (ht : kind (s.stringQueue.calls t) = some .push) : s.stringQueue.closed = false := by
  apply h.stringsOpen
  cases t with
  | main =>
    have hk := h.stringKind
    rw [ht] at hk
    cases hm : s.main <;> rw [hm] at hk <;> trivial
  | worker i =>
    have hj : ¬s.main.Joined := by
      intro hj
      cases ht.symm.trans (h.joined hj i).2
    cases hm : s.main <;> rw [hm] at hj <;> first | trivial | exact absurd trivial hj
  | printer =>
    exfalso
    rcases h.printer.2 with hk | ⟨hk, -⟩
    · cases ht.symm.trans hk
    · cases ht.symm.trans hk

theorem Shape.main_string (h : Shape s) {value : List Byte}
    (hheld : held (s.stringQueue.calls .main) = [value]) :
    s.main = .putHeader ∧ kind (s.stringQueue.calls .main) = some .push := by
  have hk := h.stringKind
  cases hm : s.main with
  | putHeader =>
    rw [hm] at hk
    exact ⟨rfl, hk⟩
  | closeStrings =>
    rw [hm] at hk
    cases hcall : s.stringQueue.calls .main with
    | close =>
      rw [hcall] at hheld
      cases hheld
    | notify e all answer | done answer =>
      rw [hcall] at hk hheld
      cases answer with
      | closed => cases hheld
      | _ => cases hk
    | _ =>
      rw [hcall] at hk
      cases hk
  | _ =>
    rw [hm] at hk
    rw [held_eq_nil hk] at hheld
    cases hheld

theorem Shape.string_popper (h : Shape s) {t : Thread n}
    (ht : kind (s.stringQueue.calls t) = some .pop) : t = .printer := by
  cases t with
  | main =>
    have hk := h.stringKind
    rw [ht] at hk
    cases hm : s.main <;> rw [hm] at hk <;> cases hk
  | worker i =>
    rcases h.worker i with ⟨-, hk⟩ | ⟨-, hk⟩ | ⟨⟨-, hk⟩, -⟩ <;> cases ht.symm.trans hk
  | printer => rfl

theorem Shape.printer_kind (h : Shape s) : kind (s.stringQueue.calls .printer) ≠ some .push := by
  intro ht
  rcases h.printer.2 with hk | ⟨hk, -⟩ <;> cases ht.symm.trans hk

variable {names : List (List Byte)} {all : List RichBoard} {printed : List (List Byte)}

theorem accounts_boardQueue (h : Accounts coefs names all s printed) (hshape : Shape s)
    {a : Util.Queue.Action (Thread n)} {q : BlockingQueue (Thread n) (List RichBoard)}
    (hs : s.boardQueue.step queueSize a = some q) :
    Accounts coefs names all { s with boardQueue := q } printed := by
  have hcontent : q.content = s.boardQueue.content := by
    apply content_step _ (BlockingQueue.step_cases hs)
    intro t value ht
    exact hshape.push_board (by rw [ht]; rfl)
  refine ⟨?_, h.out, h.first, ?_⟩
  · rw [hcontent]
    exact h.total
  · rw [hcontent]
    exact h.quiet

theorem accounts_stringQueue (h : Accounts coefs names all s printed) (hshape : Shape s)
    {a : Util.Queue.Action (Thread n)} {q : BlockingQueue (Thread n) (List Byte)}
    (hs : s.stringQueue.step queueSize a = some q) :
    Accounts coefs names all { s with stringQueue := q } printed := by
  have hstep := BlockingQueue.step_cases hs
  have hcontent : q.content = s.stringQueue.content := by
    apply content_step _ hstep
    intro t value ht
    exact hshape.push_string (by rw [ht]; rfl)
  refine ⟨?_, h.out, ?_, ?_⟩
  · rw [hcontent]
    exact h.total
  · rcases BlockingQueue.flow_step hstep hshape.printer_kind fun t => hshape.string_popper with
      ⟨hflow, hheld⟩ | ⟨value, hcall, hflow⟩
    · have hstream : stream { s with stringQueue := q } printed = stream s printed :=
        congrArg (printed ++ ·) hflow
      rw [hstream]
      apply h.first.imp_right
      intro hheader
      obtain ⟨-, hpush⟩ := hshape.main_string hheader.2
      exact ⟨hheader.1, (hheld (hshape.push_string hpush) _ hpush).trans hheader.2⟩
    · apply Or.inl
      have hstream : stream { s with stringQueue := q } printed = stream s printed ++ [value] := by
        rw [stream, stream, List.append_assoc]
        exact congrArg (printed ++ ·) hflow
      rw [hstream]
      rcases h.first with hfirst | ⟨hnil, hheader⟩
      · rw [List.head?_append, hfirst]
        rfl
      · obtain ⟨hm, -⟩ := hshape.main_string hheader
        -- only the main thread can push as long as there is no header
        cases ht : BlockingQueue.thread a with
        | main =>
          rw [ht] at hcall
          rw [hcall] at hheader
          rw [hnil]
          exact congrArg List.head? hheader
        | worker i =>
          have hnone := (h.quiet hm).2 i
          rw [ht] at hcall
          rw [hcall] at hnone
          cases hnone
        | printer =>
          rw [ht] at hcall
          exact absurd (by rw [hcall]; rfl) hshape.printer_kind
  · intro hm
    obtain ⟨hnone, hworkers⟩ := h.quiet hm
    exact ⟨hnone, fun i => (BlockingQueue.kind_step hstep _).trans (hworkers i)⟩

theorem stream_main {s' : State n} (hcalls : SameBut .main s.stringQueue s'.stringQueue) :
    stream s' printed = stream s printed := by
  rw [stream, stream, hcalls.calls _ printer_ne_main, hcalls.items]

theorem Accounts.enter (h : Accounts coefs names all s printed)
    {qb : BlockingQueue (Thread n) (List RichBoard)} {qs : BlockingQueue (Thread n) (List Byte)}
    (hs : SameBut .main s.stringQueue qs) (hstrings : qs.content = s.stringQueue.content)
    {phase : MainPhase} {batch boards : List RichBoard}
    (hboards : qb.content.map (text coefs) + ((cut batch boards).map (text coefs) : List _) =
      s.boardQueue.content.map (text coefs) + ((cut s.batch s.boards).map (text coefs) : List _))
    (hheld : held (s.stringQueue.calls .main) = [] ∨ qs = s.stringQueue) (hphase : phase ≠ .putHeader) :
    Accounts coefs names all { s with boardQueue := qb, stringQueue := qs, main := phase,
                                      batch := batch, boards := boards } printed := by
  have hstream : stream { s with boardQueue := qb, stringQueue := qs, main := phase,
                                 batch := batch, boards := boards } printed = stream s printed :=
    stream_main hs
  refine ⟨?_, h.out, ?_, fun hm => absurd hm hphase⟩
  · rw [hstrings, add_assoc, hboards, ← add_assoc]
    exact h.total
  · rw [hstream]
    rcases hheld with hheld | rfl
    · apply Or.inl
      apply h.first.resolve_right
      intro hheader
      rw [hheld] at hheader
      cases hheader.2
    · exact h.first

theorem accounts_main (h : Accounts coefs names all s printed) (hshape : Shape s)
    (hs : MainStep s s') : Accounts coefs names all s' printed := by
  have hboard := hshape.boardKind
  have hstring := hshape.stringKind
  cases hs with
  | header hm hcall =>
    rw [hm] at hstring
    have hheld : held (s.stringQueue.calls .main) = [] :=
      held_done hcall (by rw [hstring]; decide)
    have hcontent : (s.stringQueue.setCall .main .idle).content = s.stringQueue.content :=
      content_setCall_eq hheld.symm
    exact h.enter (.setCall _ _ _) hcontent rfl (Or.inl hheld) (by decide)
  | consume hm hboards hlen =>
    refine h.enter (.refl _ _) rfl ?_ (Or.inr rfl) ?_
    · rw [hboards, cut, if_neg hlen]
    · rw [hm]
      decide
  | drain hm hboards hlen =>
    rename_i board boards
    rw [hm] at hboard
    have hset := content_setCall s.boardQueue .main (.push (s.batch ++ [board]))
    rw [held_eq_nil hboard] at hset
    have hcontent : (s.boardQueue.setCall .main (.push (s.batch ++ [board]))).content =
      s.boardQueue.content + [s.batch ++ [board]] := (add_zero _).symm.trans hset
    refine h.enter (.refl _ _) rfl ?_ (Or.inr rfl) (fun h => by cases h)
    change (s.boardQueue.setCall .main (.push (s.batch ++ [board]))).content.map (text coefs) + _ = _
    rw [hcontent, hboards, cut.eq_2, if_pos hlen, Multiset.map_add, add_assoc]
    rfl
  | drainLast hm hboards hbatch =>
    rw [hm] at hboard
    have hset := content_setCall s.boardQueue .main (.push s.batch)
    rw [held_eq_nil hboard] at hset
    have hcontent : (s.boardQueue.setCall .main (.push s.batch)).content =
      s.boardQueue.content + [s.batch] := (add_zero _).symm.trans hset
    refine h.enter (.refl _ _) rfl ?_ (Or.inr rfl) (fun h => by cases h)
    change (s.boardQueue.setCall .main (.push s.batch)).content.map (text coefs) +
      ((cut [] s.boards).map (text coefs) : List _) = _
    rw [hcontent, hboards, cut.eq_1 s.batch, if_neg hbatch, Multiset.map_add, add_assoc]
    rfl
  | closeAtOnce hm hboards hbatch =>
    rw [hm] at hboard
    have hcontent : (s.boardQueue.setCall .main .close).content = s.boardQueue.content :=
      content_setCall_eq (held_eq_nil hboard).symm
    refine h.enter (.refl _ _) rfl ?_ (Or.inr rfl) (by decide)
    exact congrArg (·.map (text coefs) + _) hcontent
  | drained hm hcall =>
    rw [hm] at hboard
    have hcontent : (s.boardQueue.setCall .main .idle).content = s.boardQueue.content :=
      content_setCall_eq (held_done hcall (by rw [hboard]; decide)).symm
    refine h.enter (.refl _ _) rfl ?_ (Or.inr rfl) (by decide)
    exact congrArg (·.map (text coefs) + _) hcontent
  | drainedLast hm hcall =>
    rw [hm] at hboard
    have hcontent : (s.boardQueue.setCall .main .close).content = s.boardQueue.content :=
      content_setCall_eq (held_done hcall (by rw [hboard]; decide)).symm
    refine h.enter (.refl _ _) rfl ?_ (Or.inr rfl) (by decide)
    exact congrArg (·.map (text coefs) + _) hcontent
  | boardsClosed hm hcall =>
    rw [hm] at hboard
    have hcontent : (s.boardQueue.setCall .main .idle).content = s.boardQueue.content :=
      content_setCall_eq (held_done hcall (by rw [hboard]; decide)).symm
    refine h.enter (.refl _ _) rfl ?_ (Or.inr rfl) (by decide)
    exact congrArg (·.map (text coefs) + _) hcontent
  | joined hm hfinished =>
    rw [hm] at hstring
    have hheld := held_eq_nil hstring
    have hcontent : (s.stringQueue.setCall .main .close).content = s.stringQueue.content :=
      content_setCall_eq hheld.symm
    exact h.enter (.setCall _ _ _) hcontent rfl (Or.inl hheld) (by decide)
  | stringsClosed hm hcall =>
    rw [hm] at hstring
    have hheld : held (s.stringQueue.calls .main) = [] :=
      held_done hcall (by rw [hstring]; decide)
    have hcontent : (s.stringQueue.setCall .main .idle).content = s.stringQueue.content :=
      content_setCall_eq hheld.symm
    exact h.enter (.setCall _ _ _) hcontent rfl (Or.inl hheld) (by decide)
  | finished hm hfinished => exact h.enter (.refl _ _) rfl rfl (Or.inr rfl) (by decide)

theorem Accounts.serve (h : Accounts coefs names all s printed) {i : Fin n}
    {qb : BlockingQueue (Thread n) (List RichBoard)} {qs : BlockingQueue (Thread n) (List Byte)}
    {bufs : Fin n → BufWriter} (hs : SameBut (.worker i) s.stringQueue qs)
    (htotal : qs.content + qb.content.map (text coefs) =
      s.stringQueue.content + s.boardQueue.content.map (text coefs))
    (hquiet : s.main = .putHeader → qb.content = 0 ∧ kind (qs.calls (.worker i)) = none) :
    Accounts coefs names all { s with boardQueue := qb, stringQueue := qs, bufs := bufs } printed := by
  have hstream : stream { s with boardQueue := qb, stringQueue := qs, bufs := bufs } printed =
      stream s printed := by
    rw [stream, stream, hs.calls _ (worker_ne_printer i).symm, hs.items]
  refine ⟨?_, h.out, ?_, ?_⟩
  · have hsum : (printed : Multiset (List Byte)) + qs.content + qb.content.map (text coefs) =
        printed + s.stringQueue.content + s.boardQueue.content.map (text coefs) := by
      rw [add_assoc, htotal, ← add_assoc]
    exact (congrArg (· + _) hsum).trans h.total
  · rw [hstream]
    apply h.first.imp_right
    intro hheader
    exact ⟨hheader.1, (congrArg held (hs.calls _ (worker_ne_main i).symm)).trans hheader.2⟩
  · intro hm
    refine ⟨(hquiet hm).1, fun j => ?_⟩
    by_cases hj : Thread.worker j = .worker i
    · rw [hj]
      exact (hquiet hm).2
    · exact (congrArg kind (hs.calls _ hj)).trans ((h.quiet hm).2 j)

theorem accounts_worker (h : Accounts coefs names all s printed) (hshape : Shape s)
    (hwritable : Writable s) {i : Fin n} (hs : WorkerStep coefs s i s') :
    Accounts coefs names all s' printed := by
  cases hs with
  | process hcall hbuf =>
    rename_i inBatch junk buf
    have hkind := hshape.worker_kind (i := i) (by rw [hcall]; exact Option.some_ne_none _)
    have hmem : inBatch ∈ s.boardQueue.content := by
      apply @mem_content _ _ _ (.worker i)
      rw [hcall]
      exact List.mem_singleton_self inBatch
    obtain ⟨buf', hbuf', -, hwritten⟩ := writeBatch_spec coefs junk (hwritable.bufs i)
      (hwritable.known inBatch hmem)
    cases hbuf.symm.trans hbuf'
    have hboard := content_setCall s.boardQueue (.worker i) .idle
    rw [hcall] at hboard
    have hstring := content_setCall s.stringQueue (.worker i) (.push buf.written)
    rw [held_eq_nil hkind.2] at hstring
    refine h.serve (.setCall _ _ _) ?_ ?_
    · change (s.stringQueue.setCall (.worker i) (.push buf.written)).content +
        (s.boardQueue.setCall (.worker i) .idle).content.map (text coefs) = _
      have hcontent : (s.stringQueue.setCall (.worker i) (.push buf.written)).content =
        s.stringQueue.content + [buf.written] := (add_zero _).symm.trans hstring
      have hrest : s.boardQueue.content =
          (s.boardQueue.setCall (.worker i) .idle).content + [inBatch] :=
        ((add_zero _).symm.trans hboard.symm)
      rw [hcontent, hrest, Multiset.map_add, hwritten]
      change _ + _ + _ = _ + (_ + ([text coefs inBatch] : Multiset (List Byte)))
      rw [text]
      ac_rfl
    · intro hm
      rw [(h.quiet hm).1] at hmem
      exact absurd hmem (Multiset.notMem_zero _)
  | leave hcall hanswer =>
    have hkind := hshape.worker_kind (i := i) (by rw [hcall]; exact Option.some_ne_none _)
    have hcontent : (s.boardQueue.setCall (.worker i) .idle).content = s.boardQueue.content :=
      content_setCall_eq (held_left hcall hanswer).symm
    refine h.serve (.refl _ _) ?_ fun hm => ⟨hcontent.trans (h.quiet hm).1, hkind.2⟩
    exact congrArg (s.stringQueue.content + ·.map (text coefs)) hcontent
  | pushed hcall =>
    have hkind := hshape.worker_string_kind (i := i) (by rw [hcall]; exact Option.some_ne_none _)
    have hboard : (s.boardQueue.setCall (.worker i) .pop).content = s.boardQueue.content :=
      content_setCall_eq (held_eq_nil hkind.1).symm
    have hstring : (s.stringQueue.setCall (.worker i) .idle).content = s.stringQueue.content :=
      content_setCall_eq (held_done hcall (by rw [hkind.2]; decide)).symm
    refine h.serve (.setCall _ _ _) ?_ fun hm => ⟨hboard.trans (h.quiet hm).1, ?_⟩
    · exact congrArg₂ (· + ·.map (text coefs)) hstring hboard
    · exact congrArg kind (setCall_self _ _ _)

theorem accounts_printer (h : Accounts coefs names all s printed) (hwritable : Writable s)
    (hs : PrinterStep s s') : ∃ printed', Accounts coefs names all s' printed' := by
  have hmain : ∀ call, (s.stringQueue.setCall .printer call).calls .main =
      s.stringQueue.calls .main := by
    intro call
    exact Function.update_of_ne printer_ne_main.symm call _
  have hquiet : ∀ call, s.main = .putHeader → s.boardQueue.content = 0 ∧
      ∀ i, kind ((s.stringQueue.setCall .printer call).calls (.worker i)) = none := by
    intro call hm
    refine ⟨(h.quiet hm).1, fun i => ?_⟩
    exact (congrArg kind (Function.update_of_ne (worker_ne_printer i) call _)).trans
      ((h.quiet hm).2 i)
  cases hs with
  | print hcall hout =>
    rename_i str out
    have hset := content_setCall s.stringQueue .printer .pop
    rw [hcall] at hset
    have hcontent : s.stringQueue.content = (s.stringQueue.setCall .printer .pop).content + [str] :=
      (add_zero _).symm.trans hset.symm
    have hstream : stream { s.setStringCall .printer .pop with out := out } (printed ++ [str]) =
        stream s printed := by
      rw [stream, stream, hcall, List.append_assoc]
      congr 1
    refine ⟨printed ++ [str], ?_, ?_, ?_, hquiet _⟩
    · have htotal := h.total
      rw [hcontent, add_comm _ ([str] : Multiset (List Byte)), ← add_assoc, Multiset.coe_add] at htotal
      exact htotal
    · obtain ⟨out', hout', hd⟩ := writeStr_spec hwritable.out str
      cases hout.symm.trans hout'
      rw [List.flatten_append, ← h.out, List.flatten_singleton]
      exact hd.content
    · rw [hstream]
      exact h.first.imp_right fun hheader => ⟨hheader.1, (congrArg held (hmain _)).trans hheader.2⟩
  | leave hcall hanswer =>
    have hheld := held_left hcall hanswer
    have hcontent : (s.stringQueue.setCall .printer .idle).content = s.stringQueue.content :=
      content_setCall_eq hheld.symm
    have hstream : stream (s.setStringCall .printer .idle) printed = stream s printed := by
      rw [stream, stream, hheld]
      change printed ++ (held ((s.stringQueue.setCall .printer .idle).calls .printer) ++ _) = _
      rw [setCall_self]
      rfl
    refine ⟨printed, ?_, h.out, ?_, hquiet _⟩
    · change _ + (s.stringQueue.setCall .printer .idle).content + _ + _ = _
      rw [hcontent]
      exact h.total
    · rw [hstream]
      exact h.first.imp_right fun hheader => ⟨hheader.1, (congrArg held (hmain _)).trans hheader.2⟩

theorem mem_setCall {α : Type} {q : BlockingQueue (Thread n) α} {t : Thread n} {call : Call α}
    {value : α} (h : value ∈ (q.setCall t call).content) : value ∈ q.content ∨ value ∈ held call := by
  have hmem : value ∈ q.content + held call := by
    rw [← content_setCall]
    exact Multiset.mem_add.mpr (Or.inl h)
  exact Multiset.mem_add.mp hmem

theorem writable_main (h : Writable s) (hs : MainStep s s') : Writable s' := by
  have hknown : ∀ (call : Call (List RichBoard)),
      (∀ batch ∈ held call, ∀ b ∈ batch, b.winner ≠ .unknown) →
      ∀ batch ∈ (s.boardQueue.setCall .main call).content, ∀ b ∈ batch, b.winner ≠ .unknown := by
    intro call hcall batch hbatch
    exact (mem_setCall hbatch).elim (h.known batch) (hcall batch)
  have hnone : ∀ batch ∈ ([] : List (List RichBoard)), ∀ b ∈ batch, b.winner ≠ .unknown := by
    intro batch hbatch
    cases hbatch
  have hwaiting := h.waiting
  cases hs with
  | header | joined | stringsClosed | finished => exact ⟨h.known, hwaiting, h.bufs, h.out⟩
  | closeAtOnce | drained | drainedLast | boardsClosed =>
    exact ⟨hknown _ hnone, hwaiting, h.bufs, h.out⟩
  | consume hm hboards hlen =>
    rw [hboards] at hwaiting
    refine ⟨h.known, ?_, h.bufs, h.out⟩
    rw [List.append_assoc]
    exact hwaiting
  | drain hm hboards hlen =>
    rename_i board boards
    rw [hboards] at hwaiting
    refine ⟨hknown _ ?_, fun b hb => hwaiting b ?_, h.bufs, h.out⟩
    · intro batch hbatch b hb
      rw [List.mem_singleton.mp hbatch] at hb
      apply hwaiting
      rw [List.append_cons]
      exact List.mem_append_left _ hb
    · exact List.mem_append_right _ (List.mem_cons_of_mem _ hb)
  | drainLast hm hboards hbatch =>
    refine ⟨hknown _ ?_, fun b hb => hwaiting b (List.mem_append_right _ hb), h.bufs, h.out⟩
    intro batch hbatch b hb
    rw [List.mem_singleton.mp hbatch] at hb
    exact hwaiting b (List.mem_append_left _ hb)

theorem writable_step (h : Writable s) (hshape : Shape s) {a : Action n}
    (hs : step coefs s a = some s') : Writable s' := by
  cases a with
  | boardQueue a =>
    obtain ⟨q, hq, rfl⟩ := Option.map_eq_some_iff.mp hs
    refine ⟨?_, h.waiting, h.bufs, h.out⟩
    have hcontent : q.content = s.boardQueue.content := by
      apply content_step _ (BlockingQueue.step_cases hq)
      intro t value ht
      exact hshape.push_board (by rw [ht]; rfl)
    rw [hcontent]
    exact h.known
  | stringQueue a =>
    obtain ⟨q, hq, rfl⟩ := Option.map_eq_some_iff.mp hs
    exact ⟨h.known, h.waiting, h.bufs, h.out⟩
  | main => exact writable_main h (mainStep_cases hs)
  | worker i junk =>
    have hknown : ∀ (call : Call (List RichBoard)), held call = [] →
        ∀ batch ∈ (s.boardQueue.setCall (.worker i) call).content, ∀ b ∈ batch,
          b.winner ≠ .unknown := by
      intro call hcall batch hbatch
      rcases mem_setCall hbatch with hmem | hmem
      · exact h.known batch hmem
      · rw [hcall] at hmem
        cases hmem
    cases workerStep_cases hs with
    | process hcall hbuf =>
      rename_i inBatch junk buf
      have hmem : inBatch ∈ s.boardQueue.content := by
        apply @mem_content _ _ _ (.worker i)
        rw [hcall]
        exact List.mem_singleton_self inBatch
      obtain ⟨buf', hbuf', hpos, -⟩ := writeBatch_spec coefs junk (h.bufs i) (h.known inBatch hmem)
      cases hbuf.symm.trans hbuf'
      refine ⟨hknown _ rfl, h.waiting, fun j => ?_, h.out⟩
      change (Function.update s.bufs i buf j).bufPos = 0
      by_cases hj : j = i
      · rw [hj, Function.update_self]
        exact hpos
      · rw [Function.update_of_ne hj]
        exact h.bufs j
    | leave | pushed => exact ⟨hknown _ rfl, h.waiting, h.bufs, h.out⟩
  | printer =>
    cases printerStep_cases hs with
    | print hcall hout =>
      obtain ⟨out', hout', hd⟩ := writeStr_spec h.out _
      cases hout.symm.trans hout'
      exact ⟨h.known, h.waiting, h.bufs, hd.fits⟩
    | leave => exact ⟨h.known, h.waiting, h.bufs, h.out⟩

theorem accounts_initial (coefs : Board → List Int32) (names : List (List Byte))
    (all : List RichBoard) : Accounts coefs names all (initial names all : State n) [] := by
  have hboards : (initial names all : State n).boardQueue.content = 0 := by
    apply (zero_add _).trans
    apply Finset.sum_eq_zero
    intro t _
    cases t <;> rfl
  have hstrings : (initial names all : State n).stringQueue.content = {header names} := by
    apply (zero_add _).trans
    rw [Finset.sum_eq_single Thread.main, ← putHeader_eq]
    · rfl
    · intro t _ ht
      cases t with
      | main => exact absurd rfl ht
      | worker i | printer => rfl
    · intro h
      exact absurd (Finset.mem_univ _) h
  refine ⟨?_, rfl, Or.inr ⟨rfl, ?_⟩, fun _ => ⟨hboards, fun _ => rfl⟩⟩
  · rw [hboards, hstrings, Multiset.map_zero, add_zero]
    exact congrArg (· + _) (zero_add _)
  · rw [← putHeader_eq]
    rfl

theorem accounts_step (h : Accounts coefs names all s printed) (hshape : Shape s)
    (hwritable : Writable s) {a : Action n} (hs : step coefs s a = some s') :
    ∃ printed', Accounts coefs names all s' printed' := by
  cases a with
  | boardQueue a =>
    obtain ⟨q, hq, rfl⟩ := Option.map_eq_some_iff.mp hs
    exact ⟨printed, accounts_boardQueue h hshape hq⟩
  | stringQueue a =>
    obtain ⟨q, hq, rfl⟩ := Option.map_eq_some_iff.mp hs
    exact ⟨printed, accounts_stringQueue h hshape hq⟩
  | main => exact ⟨printed, accounts_main h hshape (mainStep_cases hs)⟩
  | worker i junk => exact ⟨printed, accounts_worker h hshape hwritable (workerStep_cases hs)⟩
  | printer => exact accounts_printer h hwritable (printerStep_cases hs)

theorem runs_of_reachable (hall : ∀ b ∈ all, b.winner ≠ .unknown)
    (h : (system coefs n names all).Reachable s) :
    Shape s ∧ Writable s ∧ ∃ printed, Accounts coefs names all s printed := by
  apply h.invariant
  · refine ⟨shape_initial names all, ⟨?_, hall, fun _ => rfl, Nat.zero_le _⟩, [],
      accounts_initial coefs names all⟩
    intro batch hbatch
    change batch ∈ (initial names all : State n).boardQueue.content at hbatch
    rw [((accounts_initial coefs names all).quiet rfl).1] at hbatch
    exact absurd hbatch (Multiset.notMem_zero _)
  · intro s a s' hs _ hstep
    obtain ⟨hshape, hwritable, printed, haccounts⟩ := hs
    exact ⟨hshape.step hstep, writable_step hwritable hshape hstep,
      accounts_step haccounts hshape hwritable hstep⟩

/-- At the end, the header and all the lines are printed. -/
theorem Accounts.finished (h : Accounts coefs names all s printed) (hshape : Shape s) (hn : 0 < n)
    (hf : ∀ t, s.finished t) :
    ∃ order : List (List RichBoard), order.Perm (cut [] all) ∧
      printed = header names :: order.map (text coefs) := by
  have hm : s.main = .finished := hf .main
  have hstring := hshape.stringKind
  have hboard := hshape.boardKind
  rw [hm] at hstring hboard
  obtain ⟨hnone, hbatch⟩ := hshape.exhausted (by rw [hm]; trivial)
  have hboards : s.boardQueue.content = 0 := by
    obtain ⟨-, -, hitems⟩ := ((hshape.worker ⟨0, hn⟩).resolve_left fun hw =>
      Option.some_ne_none _ (hw.1.symm.trans (hf (.worker ⟨0, hn⟩)).1)).resolve_left fun hw =>
        Option.some_ne_none _ (hw.2.symm.trans (hf (.worker ⟨0, hn⟩)).2)
    rw [content, hitems]
    apply (zero_add _).trans
    apply Finset.sum_eq_zero
    intro t _
    cases t with
    | main => rw [held_eq_nil hboard]; rfl
    | worker i => rw [held_eq_nil (hf (.worker i)).1]; rfl
    | printer => rw [held_eq_nil hshape.printer.1]; rfl
  have hprinter : kind (s.stringQueue.calls .printer) = none := hf .printer
  obtain ⟨-, -, hitems⟩ := hshape.printer.2.resolve_left fun hp =>
    Option.some_ne_none _ (hp.symm.trans hprinter)
  have hstrings : s.stringQueue.content = 0 := by
    rw [content, hitems]
    apply (zero_add _).trans
    apply Finset.sum_eq_zero
    intro t _
    cases t with
    | main => rw [held_eq_nil hstring]; rfl
    | worker i => rw [held_eq_nil (hf (.worker i)).2]; rfl
    | printer => rw [held_eq_nil hprinter]; rfl
  have hstream : stream s printed = printed := by
    rw [stream, hitems, held_eq_nil hprinter, List.append_nil, List.append_nil]
  have hfirst := h.first.resolve_right fun hheader => by
    rw [held_eq_nil hstring] at hheader
    cases hheader.2
  rw [hstream] at hfirst
  obtain ⟨rest, rfl⟩ := List.head?_eq_some_iff.mp hfirst
  have htotal := h.total
  rw [hboards, hstrings, hnone, hbatch] at htotal
  have hrest : rest.Perm ((cut [] all).map (text coefs)) := by
    rw [← Multiset.cons_coe, ← Multiset.singleton_add] at htotal
    apply Multiset.coe_eq_coe.mp
    simpa [cut] using htotal
  have hcomp := congrFun (congrFun (List.eq_map_comp_perm (text coefs)) rest) (cut [] all)
  obtain ⟨order, horder, hperm⟩ := hcomp.mpr hrest
  exact ⟨order, hperm, by rw [horder]⟩

end Accounts

/-- A game that White won ends on this board. -/
def lastBoard : RichBoard := ⟨.white, 1, 40, 0, Core.InitialPosition.initialFields⟩

/-- One worker and one board: each thread in turn does all that it can. -/
def oneBoard (i : Fin 1) (junk : Nat → Byte) : List (Action 1) :=
  [.stringQueue (.lock .main), .stringQueue (.notify .main none), .stringQueue (.notify .main none),
    .main, .main, .main, .boardQueue (.lock .main), .boardQueue (.notify .main none),
    .boardQueue (.notify .main none), .main, .boardQueue (.lock .main),
    .boardQueue (.notify .main none), .boardQueue (.notify .main none), .main,
    .boardQueue (.lock (.worker i)), .boardQueue (.notify (.worker i) none),
    .boardQueue (.notify (.worker i) none), .worker i junk, .stringQueue (.lock (.worker i)),
    .stringQueue (.notify (.worker i) none), .stringQueue (.notify (.worker i) none),
    .worker i junk, .boardQueue (.lock (.worker i)), .worker i junk, .main,
    .stringQueue (.lock .main), .stringQueue (.notify .main none),
    .stringQueue (.notify .main none), .main, .stringQueue (.lock .printer),
    .stringQueue (.notify .printer none), .stringQueue (.notify .printer none), .printer,
    .stringQueue (.lock .printer), .stringQueue (.notify .printer none),
    .stringQueue (.notify .printer none), .printer, .stringQueue (.lock .printer), .printer, .main]

end SoFCheck.Eval.MakeDataset
