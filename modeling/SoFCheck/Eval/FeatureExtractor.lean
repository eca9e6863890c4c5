import SoFCheck.Eval.DatasetLines
import SoFCheck.Util.Queue

namespace SoFCheck.Eval.MakeDataset

open SoFCheck.Util.CString SoFCheck.Util.Ioutil SoFCheck.Util.Transition SoFCheck.Util.Queue
open SoFCheck.Core.BoardState SoFCheck.Gameset.Types
open SoFCheck.Util.Queue.BlockingQueue (Alert Kind Truthful held kind)

def batchSize : Nat := 64

def queueSize : Nat := 512

inductive Thread (n : Nat) where
  | main
  | worker (i : Fin n)
  | printer
  deriving DecidableEq, Fintype

/-- Where the main thread stands between the constructor and the end of `finish`. -/
inductive MainPhase where
  | putHeader
  | consume
  /-- In `drainBatch`, called by `consume` or, the last time, by `finish`. -/
  | drainBatch (last : Bool)
  | closeBoards
  | joinWorkers
  | closeStrings
  | joinPrinter
  | finished
  deriving DecidableEq

/-- The `FeatureExtractor` with its two queues, `n` workers and the printer, and the boards that
`consume` has not been called with yet. -/
structure State (n : Nat) where
  boardQueue : BlockingQueue (Thread n) (List RichBoard)
  stringQueue : BlockingQueue (Thread n) (List Byte)
  main : MainPhase
  batch : List RichBoard
  boards : List RichBoard
  bufs : Fin n → BufWriter
  out : BufWriter

inductive Action (n : Nat) where
  | boardQueue (a : Util.Queue.Action (Thread n))
  | stringQueue (a : Util.Queue.Action (Thread n))
  | main
  | worker (i : Fin n) (junk : Nat → Byte)
  | printer

section Model

variable {n : Nat} (coefs : Board → List Int32)

/-- All threads are started, and the main one puts the header. -/
def initial (names : List (List Byte)) (boards : List RichBoard) : State n where
  boardQueue :=
    { items := []
      closed := false
      calls := fun t => match t with
        | .worker _ => .pop
        | _ => .idle }
  stringQueue :=
    { items := []
      closed := false
      calls := fun t => match t with
        | .main => .push (putHeader names)
        | .printer => .pop
        | _ => .idle }
  main := .putHeader
  batch := []
  boards := boards
  bufs := fun _ => BufWriter.new
  out := BufWriter.new

def State.setBoardCall (s : State n) (t : Thread n) (call : Call (List RichBoard)) : State n :=
  { s with boardQueue := s.boardQueue.setCall t call }

def State.setStringCall (s : State n) (t : Thread n) (call : Call (List Byte)) : State n :=
  { s with stringQueue := s.stringQueue.setCall t call }

/-- The thread has left its function. -/
def State.finished (s : State n) : Thread n → Prop
  | .main => s.main = .finished
  | .worker i =>
    kind (s.boardQueue.calls (.worker i)) = none ∧ kind (s.stringQueue.calls (.worker i)) = none
  | .printer => kind (s.stringQueue.calls .printer) = none

instance instDecidableFinished (s : State n) : (t : Thread n) → Decidable (s.finished t)
  | .main => inferInstanceAs (Decidable (_ = _))
  | .worker _ => inferInstanceAs (Decidable (_ ∧ _))
  | .printer => inferInstanceAs (Decidable (_ = _))

def State.drainBatch (s : State n) (last : Bool) : State n :=
  { s.setBoardCall .main (.push s.batch) with batch := [], main := .drainBatch last }

def mainStep (s : State n) : Option (State n) :=
  match s.main with
  | .putHeader =>
    match s.stringQueue.calls .main with
    | .done _ => some { s.setStringCall .main .idle with main := .consume }
    | _ => none
  | .consume =>
    match s.boards with
    | board :: boards =>
      let s := { s with batch := s.batch ++ [board], boards := boards }
      some (if s.batch.length = batchSize then s.drainBatch false else s)
    | [] =>
      some (if s.batch = [] then { s.setBoardCall .main .close with main := .closeBoards }
        else s.drainBatch true)
  | .drainBatch last =>
    match s.boardQueue.calls .main with
    | .done _ =>
      some (if last then { s.setBoardCall .main .close with main := .closeBoards }
        else { s.setBoardCall .main .idle with main := .consume })
    | _ => none
  | .closeBoards =>
    match s.boardQueue.calls .main with
    | .done _ => some { s.setBoardCall .main .idle with main := .joinWorkers }
    | _ => none
  | .joinWorkers =>
    if ∀ i, s.finished (.worker i) then
      some { s.setStringCall .main .close with main := .closeStrings }
    else none
  | .closeStrings =>
    match s.stringQueue.calls .main with
    | .done _ => some { s.setStringCall .main .idle with main := .joinPrinter }
    | _ => none
  | .joinPrinter => if s.finished .printer then some { s with main := .finished } else none
  | .finished => none

/-- `Worker::run`: the batch that was popped is written into a string, which is pushed. -/
def workerStep (s : State n) (i : Fin n) (junk : Nat → Byte) : Option (State n) :=
  match s.boardQueue.calls (.worker i) with
  | .done (.popped (some inBatch)) =>
    (writeBatch coefs junk (s.bufs i) inBatch).map fun buf =>
      { (s.setBoardCall (.worker i) .idle).setStringCall (.worker i) (.push buf.written) with
        bufs := Function.update s.bufs i buf }
  | .done _ => some (s.setBoardCall (.worker i) .idle)
  | _ =>
    match s.stringQueue.calls (.worker i) with
    | .done _ => some ((s.setStringCall (.worker i) .idle).setBoardCall (.worker i) .pop)
    | _ => none

/-- `Printer::run`. -/
def printerStep (s : State n) : Option (State n) :=
  match s.stringQueue.calls .printer with
  | .done (.popped (some str)) =>
    (s.out.writeStr str).map fun out => { s.setStringCall .printer .pop with out := out }
  | .done _ => some (s.setStringCall .printer .idle)
  | _ => none

def step (s : State n) : Action n → Option (State n)
  | .boardQueue a =>
    (s.boardQueue.step queueSize a).map fun q => { s with boardQueue := q }
  | .stringQueue a =>
    (s.stringQueue.step queueSize a).map fun q => { s with stringQueue := q }
  | .main => mainStep s
  | .worker i junk => workerStep coefs s i junk
  | .printer => printerStep s

def system (n : Nat) (names : List (List Byte)) (boards : List RichBoard) :
    System (State n) (Action n) := ⟨initial names boards, step coefs⟩

/-- A thread has woken for no reason. -/
def Action.spurious : Action n → Bool
  | .boardQueue a | .stringQueue a => BlockingQueue.spurious a
  | _ => false

end Model

section Steps

variable {n : Nat} {s s' : State n} {coefs : Board → List Int32} {i : Fin n} {junk : Nat → Byte}

/-- What a step of the main thread can do. -/
inductive MainStep (s : State n) : State n → Prop
  | header {answer : Answer (List Byte)} (hm : s.main = .putHeader)
      (h : s.stringQueue.calls .main = .done answer) :
      MainStep s { s.setStringCall .main .idle with main := .consume }
  | consume {board : RichBoard} {boards : List RichBoard} (hm : s.main = .consume)
      (hboards : s.boards = board :: boards) (hlen : (s.batch ++ [board]).length ≠ batchSize) :
      MainStep s { s with batch := s.batch ++ [board], boards := boards }
  | drain {board : RichBoard} {boards : List RichBoard} (hm : s.main = .consume)
      (hboards : s.boards = board :: boards) (hlen : (s.batch ++ [board]).length = batchSize) :
      MainStep s (State.drainBatch { s with batch := s.batch ++ [board], boards := boards } false)
  | drainLast (hm : s.main = .consume) (hboards : s.boards = []) (hbatch : s.batch ≠ []) :
      MainStep s (s.drainBatch true)
  | closeAtOnce (hm : s.main = .consume) (hboards : s.boards = []) (hbatch : s.batch = []) :
      MainStep s { s.setBoardCall .main .close with main := .closeBoards }
  | drained {answer : Answer (List RichBoard)} (hm : s.main = .drainBatch false)
      (h : s.boardQueue.calls .main = .done answer) :
      MainStep s { s.setBoardCall .main .idle with main := .consume }
  | drainedLast {answer : Answer (List RichBoard)} (hm : s.main = .drainBatch true)
      (h : s.boardQueue.calls .main = .done answer) :
      MainStep s { s.setBoardCall .main .close with main := .closeBoards }
  | boardsClosed {answer : Answer (List RichBoard)} (hm : s.main = .closeBoards)
      (h : s.boardQueue.calls .main = .done answer) :
      MainStep s { s.setBoardCall .main .idle with main := .joinWorkers }
  | joined (hm : s.main = .joinWorkers) (h : ∀ i, s.finished (.worker i)) :
      MainStep s { s.setStringCall .main .close with main := .closeStrings }
  | stringsClosed {answer : Answer (List Byte)} (hm : s.main = .closeStrings)
      (h : s.stringQueue.calls .main = .done answer) :
      MainStep s { s.setStringCall .main .idle with main := .joinPrinter }
  | finished (hm : s.main = .joinPrinter) (h : s.finished .printer) :
      MainStep s { s with main := .finished }

theorem mainStep_cases (hs : mainStep s = some s') : MainStep s s' := by
  unfold mainStep at hs
  split at hs
  · rename_i hm
    split at hs
    · rename_i h
      cases hs
      exact .header hm h
    · cases hs
  · rename_i hm
    split at hs
    · rename_i board boards hboards
      cases hs
      split
      · rename_i hlen
        exact .drain hm hboards hlen
      · rename_i hlen
        exact .consume hm hboards hlen
    · rename_i hboards
      cases hs
      split
      · rename_i hbatch
        exact .closeAtOnce hm hboards hbatch
      · rename_i hbatch
        exact .drainLast hm hboards hbatch
  · rename_i last hm
    split at hs
    · rename_i h
      cases hs
      cases last with
      | true => exact .drainedLast hm h
      | false => exact .drained hm h
    · cases hs
  · rename_i hm
    split at hs
    · rename_i h
      cases hs
      exact .boardsClosed hm h
    · cases hs
  · rename_i hm
    split at hs
    · rename_i h
      cases hs
      exact .joined hm h
    · cases hs
  · rename_i hm
    split at hs
    · rename_i h
      cases hs
      exact .stringsClosed hm h
    · cases hs
  · rename_i hm
    split at hs
    · rename_i h
      cases hs
      exact .finished hm h
    · cases hs
  · cases hs

inductive WorkerStep (coefs : Board → List Int32) (s : State n) (i : Fin n) : State n → Prop
  | process {inBatch : List RichBoard} {junk : Nat → Byte} {buf : BufWriter}
      (h : s.boardQueue.calls (.worker i) = .done (.popped (some inBatch)))
      (hbuf : writeBatch coefs junk (s.bufs i) inBatch = some buf) :
      WorkerStep coefs s i
        { (s.setBoardCall (.worker i) .idle).setStringCall (.worker i) (.push buf.written) with
          bufs := Function.update s.bufs i buf }
  | leave {answer : Answer (List RichBoard)} (h : s.boardQueue.calls (.worker i) = .done answer)
      (hanswer : ∀ inBatch, answer ≠ .popped (some inBatch)) :
      WorkerStep coefs s i (s.setBoardCall (.worker i) .idle)
  | pushed {answer : Answer (List Byte)} (h : s.stringQueue.calls (.worker i) = .done answer) :
      WorkerStep coefs s i ((s.setStringCall (.worker i) .idle).setBoardCall (.worker i) .pop)

theorem workerStep_cases (hs : workerStep coefs s i junk = some s') : WorkerStep coefs s i s' := by
  unfold workerStep at hs
  split at hs
  · rename_i h
    obtain ⟨buf, hbuf, rfl⟩ := Option.map_eq_some_iff.mp hs
    exact .process h hbuf
  · rename_i hanswer h
    cases hs
    exact .leave h hanswer
  · split at hs
    · rename_i h
      cases hs
      exact .pushed h
    · cases hs

inductive PrinterStep (s : State n) : State n → Prop
  | print {str : List Byte} {out : BufWriter}
      (h : s.stringQueue.calls .printer = .done (.popped (some str)))
      (hout : s.out.writeStr str = some out) :
      PrinterStep s { s.setStringCall .printer .pop with out := out }
  | leave {answer : Answer (List Byte)} (h : s.stringQueue.calls .printer = .done answer)
      (hanswer : ∀ str, answer ≠ .popped (some str)) :
      PrinterStep s (s.setStringCall .printer .idle)

theorem printerStep_cases (hs : printerStep s = some s') : PrinterStep s s' := by
  unfold printerStep at hs
  split at hs
  · rename_i h
    obtain ⟨out, hout, rfl⟩ := Option.map_eq_some_iff.mp hs
    exact .print h hout
  · rename_i hanswer h
    cases hs
    exact .leave h hanswer
  · cases hs

end Steps

section Shape

variable {n : Nat} {s s' : State n}

namespace MainPhase

/-- What the main thread has called on the queue of boards. -/
def boardKind : MainPhase → Option Kind
  | drainBatch _ => some .push
  | closeBoards => some .close
  | _ => none

def stringKind : MainPhase → Option Kind
  | putHeader => some .push
  | closeStrings => some .close
  | _ => none

/-- `finish` has handed over the last boards. -/
def Exhausted : MainPhase → Prop
  | putHeader | consume | drainBatch false => False
  | _ => True

/-- How far the main thread is in closing the queues: before it, within, or past it. -/
def BoardsOpen : MainPhase → Prop
  | putHeader | consume | drainBatch _ => True
  | _ => False

def BoardsClosed : MainPhase → Prop
  | joinWorkers | closeStrings | joinPrinter | finished => True
  | _ => False

def StringsOpen : MainPhase → Prop
  | putHeader | consume | drainBatch _ | closeBoards | joinWorkers => True
  | _ => False

def StringsClosed : MainPhase → Prop
  | joinPrinter | finished => True
  | _ => False

def Joined : MainPhase → Prop
  | closeStrings | joinPrinter | finished => True
  | _ => False

end MainPhase

/-- What a queue is for the threads that call it. -/
structure Fits {α : Type} (q : BlockingQueue (Thread n) α) : Prop where
  alert : Alert queueSize q
  truthful : ∀ t, Truthful q.closed q.items (q.calls t)

/-- Which calls the threads are in, and what is closed. -/
structure Shape (s : State n) : Prop where
  boardFits : Fits s.boardQueue
  stringFits : Fits s.stringQueue
  boardKind : kind (s.boardQueue.calls .main) = s.main.boardKind
  stringKind : kind (s.stringQueue.calls .main) = s.main.stringKind
  boardsOpen : s.main.BoardsOpen → s.boardQueue.closed = false
  boardsClosed : s.main.BoardsClosed → s.boardQueue.closed = true
  stringsOpen : s.main.StringsOpen → s.stringQueue.closed = false
  stringsClosed : s.main.StringsClosed → s.stringQueue.closed = true
  exhausted : s.main.Exhausted → s.boards = [] ∧ s.batch = []
  joined : s.main.Joined → ∀ i, s.finished (.worker i)
  last : s.main = .finished → s.finished .printer
  worker : ∀ i, kind (s.boardQueue.calls (.worker i)) = some .pop ∧
      kind (s.stringQueue.calls (.worker i)) = none ∨
    kind (s.boardQueue.calls (.worker i)) = none ∧
      kind (s.stringQueue.calls (.worker i)) = some .push ∨
    s.finished (.worker i) ∧ s.boardQueue.closed = true ∧ s.boardQueue.items = []
  printer : kind (s.boardQueue.calls .printer) = none ∧
    (kind (s.stringQueue.calls .printer) = some .pop ∨
      s.finished .printer ∧ s.stringQueue.closed = true ∧ s.stringQueue.items = [])

open BlockingQueue (kind_step open_step closed_step drained_step)

section Queues

variable {α : Type} {q q' : BlockingQueue (Thread n) α} {a : Util.Queue.Action (Thread n)}
  {t : Thread n} {call : Call α}

theorem Fits.step (h : Fits q) (hs : q.step queueSize a = some q') : Fits q' where
  alert := BlockingQueue.alert_step h.alert (BlockingQueue.step_cases hs)
  truthful := BlockingQueue.truthful_step h.truthful (BlockingQueue.step_cases hs)

/-- A call in which nothing has happened yet, or no call. -/
def Fresh : Call α → Prop
  | .idle | .push _ | .pop | .close => True
  | _ => False

theorem Fits.setCall (h : Fits q) (hold : ∀ e, ¬BlockingQueue.Rouses e (q.calls t))
    (hnew : Fresh call) : Fits (q.setCall t call) where
  alert := by
    apply h.alert.setCall hold
    intro e
    cases call <;> first | rfl | cases hnew
  truthful := by
    apply BlockingQueue.truthful_setCall _ h.truthful
    cases call <;> first | exact trivial | cases hnew

theorem fits_of_fresh (h : ∀ t, Fresh (q.calls t)) : Fits q where
  alert := by
    have hnone : ∀ e, ¬∃ t, (q.calls t).waits e = true := by
      intro e hw
      obtain ⟨t, ht⟩ := hw
      have hfresh := h t
      cases hcall : q.calls t <;> rw [hcall] at ht hfresh <;> first | cases ht | cases hfresh
    exact ⟨fun _ e _ hw => absurd hw (hnone e), fun _ e hw => absurd hw (hnone e)⟩
  truthful t := by
    have hfresh := h t
    cases hcall : q.calls t <;> rw [hcall] at hfresh <;> first | exact trivial | cases hfresh

theorem not_rouses_done {answer : Answer α} (h : q.calls t = .done answer) (e : Event) :
    ¬BlockingQueue.Rouses e (q.calls t) := by
  rw [h]
  exact id

theorem not_rouses_idle (h : kind (q.calls t) = none) (e : Event) :
    ¬BlockingQueue.Rouses e (q.calls t) := by
  cases hcall : q.calls t <;> rw [hcall] at h <;> first | exact id | cases h

theorem closed_of_done {answer : Answer α} (h : Fits q) (ht : q.calls t = .done answer)
    (hk : kind (q.calls t) = some .close) : q.closed = true := by
  have htrue := h.truthful t
  rw [ht] at htrue hk
  cases answer with
  | closed => exact htrue
  | pushed ok => cases hk
  | popped value => cases hk

theorem drained_of_done {answer : Answer α} (h : Fits q) (ht : q.calls t = .done answer)
    (hk : kind (q.calls t) = some .pop) (hanswer : ∀ value, answer ≠ .popped (some value)) :
    q.closed = true ∧ q.items = [] := by
  have htrue := h.truthful t
  rw [ht] at htrue hk
  cases answer with
  | closed => cases hk
  | pushed ok => cases hk
  | popped value =>
    cases value with
    | none => exact htrue
    | some value => exact absurd rfl (hanswer value)

end Queues

theorem Shape.closer (h : Shape s) {t : Thread n}
    (ht : kind (s.boardQueue.calls t) = some .close) : s.main = .closeBoards := by
  cases t with
  | main =>
    have hk := h.boardKind
    rw [ht] at hk
    cases hm : s.main <;> rw [hm] at hk <;> first | rfl | cases hk
  | worker i =>
    rcases h.worker i with ⟨hk, -⟩ | ⟨hk, -⟩ | ⟨⟨hk, -⟩, -⟩ <;> rw [ht] at hk <;> cases hk
  | printer =>
    have hk := h.printer.1
    rw [ht] at hk
    cases hk

theorem Shape.stringCloser (h : Shape s) {t : Thread n}
    (ht : kind (s.stringQueue.calls t) = some .close) : s.main = .closeStrings := by
  cases t with
  | main =>
    have hk := h.stringKind
    rw [ht] at hk
    cases hm : s.main <;> rw [hm] at hk <;> first | rfl | cases hk
  | worker i =>
    rcases h.worker i with ⟨-, hk⟩ | ⟨-, hk⟩ | ⟨⟨-, hk⟩, -⟩ <;> rw [ht] at hk <;> cases hk
  | printer =>
    rcases h.printer.2 with hk | ⟨hk, -⟩
    · rw [ht] at hk
      cases hk
    · cases ht.symm.trans hk

theorem Shape.boardQueue (h : Shape s) {a : Util.Queue.Action (Thread n)}
    {q : BlockingQueue (Thread n) (List RichBoard)}
    (hs : s.boardQueue.step queueSize a = some q) : Shape { s with boardQueue := q } := by
  have hstep := BlockingQueue.step_cases hs
  have hkind : ∀ t, kind (q.calls t) = kind (s.boardQueue.calls t) := kind_step hstep
  have hfinished : ∀ {t}, s.finished t → State.finished { s with boardQueue := q } t := by
    intro t ht
    cases t with
    | worker i => exact ⟨(hkind _).trans ht.1, ht.2⟩
    | main | printer => exact ht
  refine ⟨h.boardFits.step hs, h.stringFits, (hkind _).trans h.boardKind, h.stringKind, ?_, ?_,
    h.stringsOpen, h.stringsClosed, h.exhausted, ?_, fun hm => hfinished (h.last hm), ?_,
    (hkind _).trans h.printer.1, h.printer.2⟩
  · intro hm
    apply open_step hstep (h.boardsOpen hm)
    intro hclose
    have hphase := h.closer hclose
    change s.main.BoardsOpen at hm
    rw [hphase] at hm
    exact hm
  · intro hm
    exact closed_step hstep (h.boardsClosed hm)
  · intro hm i
    exact hfinished (h.joined hm i)
  · intro i
    rw [hkind]
    rcases h.worker i with hw | hw | ⟨hw, hd⟩
    · exact Or.inl hw
    · exact Or.inr (Or.inl hw)
    · exact Or.inr (Or.inr ⟨hfinished hw, drained_step hstep hd⟩)

theorem Shape.stringQueue (h : Shape s) {a : Util.Queue.Action (Thread n)}
    {q : BlockingQueue (Thread n) (List Byte)}
    (hs : s.stringQueue.step queueSize a = some q) : Shape { s with stringQueue := q } := by
  have hstep := BlockingQueue.step_cases hs
  have hkind : ∀ t, kind (q.calls t) = kind (s.stringQueue.calls t) := kind_step hstep
  have hfinished : ∀ {t}, s.finished t → State.finished { s with stringQueue := q } t := by
    intro t ht
    cases t with
    | worker i => exact ⟨ht.1, (hkind _).trans ht.2⟩
    | main => exact ht
    | printer => exact (hkind _).trans ht
  refine ⟨h.boardFits, h.stringFits.step hs, h.boardKind, (hkind _).trans h.stringKind,
    h.boardsOpen, h.boardsClosed, ?_, ?_, h.exhausted, ?_, fun hm => hfinished (h.last hm), ?_,
    h.printer.1, ?_⟩
  · intro hm
    apply open_step hstep (h.stringsOpen hm)
    intro hclose
    have hphase := h.stringCloser hclose
    change s.main.StringsOpen at hm
    rw [hphase] at hm
    exact hm
  · intro hm
    exact closed_step hstep (h.stringsClosed hm)
  · intro hm i
    exact hfinished (h.joined hm i)
  · intro i
    rw [hkind]
    rcases h.worker i with hw | hw | ⟨hw, hd⟩
    · exact Or.inl hw
    · exact Or.inr (Or.inl hw)
    · exact Or.inr (Or.inr ⟨hfinished hw, hd⟩)
  · rw [hkind]
    rcases h.printer.2 with hp | ⟨hp, hd⟩
    · exact Or.inl hp
    · exact Or.inr ⟨hfinished hp, drained_step hstep hd⟩

theorem worker_ne_main (i : Fin n) : Thread.worker i ≠ .main := by
  intro h
  cases h

theorem printer_ne_main : (Thread.printer : Thread n) ≠ .main := by
  intro h
  cases h

theorem worker_ne_printer (i : Fin n) : Thread.worker i ≠ .printer := by
  intro h
  cases h

/-- The queue is as before, but for the call of one thread. -/
structure SameBut {α : Type} (t : Thread n) (q q' : BlockingQueue (Thread n) α) : Prop where
  items : q'.items = q.items
  closed : q'.closed = q.closed
  calls : ∀ u, u ≠ t → q'.calls u = q.calls u

theorem SameBut.refl {α : Type} (t : Thread n) (q : BlockingQueue (Thread n) α) : SameBut t q q :=
  ⟨rfl, rfl, fun _ _ => rfl⟩

theorem SameBut.setCall {α : Type} (t : Thread n) (q : BlockingQueue (Thread n) α) (call : Call α) :
    SameBut t q (q.setCall t call) :=
  ⟨rfl, rfl, fun _ hu => Function.update_of_ne hu _ _⟩

theorem setCall_self {α : Type} (t : Thread n) (q : BlockingQueue (Thread n) α) (call : Call α) :
    (q.setCall t call).calls t = call := Function.update_self _ _ _

/-- The main thread goes on to another phase. -/
theorem Shape.enter (h : Shape s) {qb : BlockingQueue (Thread n) (List RichBoard)}
    {qs : BlockingQueue (Thread n) (List Byte)} (hb : SameBut .main s.boardQueue qb)
    (hs : SameBut .main s.stringQueue qs) (hbfits : Fits qb) (hsfits : Fits qs)
    {phase : MainPhase} {batch boards : List RichBoard}
    (hbk : kind (qb.calls .main) = phase.boardKind)
    (hsk : kind (qs.calls .main) = phase.stringKind)
    (hbo : phase.BoardsOpen → s.boardQueue.closed = false)
    (hbc : phase.BoardsClosed → s.boardQueue.closed = true)
    (hso : phase.StringsOpen → s.stringQueue.closed = false)
    (hsc : phase.StringsClosed → s.stringQueue.closed = true)
    (hex : phase.Exhausted → boards = [] ∧ batch = [])
    (hjoined : phase.Joined → ∀ i, s.finished (.worker i))
    (hlast : phase = .finished → s.finished .printer) :
    Shape { s with boardQueue := qb, stringQueue := qs, main := phase, batch := batch,
                   boards := boards } := by
  have hfinished : ∀ {i}, s.finished (.worker i) →
      State.finished { s with boardQueue := qb, stringQueue := qs, main := phase, batch := batch,
                              boards := boards } (.worker i) := by
    intro i hi
    refine ⟨?_, ?_⟩
    · exact (congrArg kind (hb.calls _ (worker_ne_main i))).trans hi.1
    · exact (congrArg kind (hs.calls _ (worker_ne_main i))).trans hi.2
  have hprinter : s.finished .printer → kind (qs.calls .printer) = none := by
    intro hp
    exact (congrArg kind (hs.calls _ printer_ne_main)).trans hp
  refine ⟨hbfits, hsfits, hbk, hsk, ?_, ?_, ?_, ?_, hex, ?_, ?_, ?_, ?_, ?_⟩
  · exact fun hm => hb.closed.trans (hbo hm)
  · exact fun hm => hb.closed.trans (hbc hm)
  · exact fun hm => hs.closed.trans (hso hm)
  · exact fun hm => hs.closed.trans (hsc hm)
  · exact fun hm i => hfinished (hjoined hm i)
  · exact fun hm => hprinter (hlast hm)
  · intro i
    change kind (qb.calls _) = _ ∧ kind (qs.calls _) = _ ∨ kind (qb.calls _) = _ ∧
      kind (qs.calls _) = _ ∨ _ ∧ qb.closed = _ ∧ qb.items = _
    rw [hb.calls _ (worker_ne_main i), hs.calls _ (worker_ne_main i), hb.closed, hb.items]
    rcases h.worker i with hw | hw | ⟨hw, hd⟩
    · exact Or.inl hw
    · exact Or.inr (Or.inl hw)
    · exact Or.inr (Or.inr ⟨hfinished hw, hd⟩)
  · change kind (qb.calls _) = _
    rw [hb.calls _ printer_ne_main]
    exact h.printer.1
  · change kind (qs.calls _) = _ ∨ kind (qs.calls _) = _ ∧ qs.closed = _ ∧ qs.items = _
    rw [hs.calls _ printer_ne_main, hs.closed, hs.items]
    exact h.printer.2

theorem Shape.main (h : Shape s) (hs : MainStep s s') : Shape s' := by
  have hboard := h.boardKind
  have hstring := h.stringKind
  have hbo := h.boardsOpen
  have hbc := h.boardsClosed
  have hso := h.stringsOpen
  have hsc := h.stringsClosed
  have hex := h.exhausted
  have hjoined := h.joined
  cases hs with
  | header hm hcall =>
    rw [hm] at hboard hbo hso
    have hfits : Fits (s.stringQueue.setCall .main .idle) :=
      h.stringFits.setCall (not_rouses_done hcall) trivial
    refine h.enter (.refl _ _) (.setCall _ _ _) h.boardFits hfits hboard ?_ (fun _ => hbo trivial)
      False.elim (fun _ => hso trivial) False.elim False.elim False.elim ?_
    · rw [setCall_self]
      rfl
    · intro h
      cases h
  | consume hm hboards hlen =>
    refine h.enter (.refl _ _) (.refl _ _) h.boardFits h.stringFits hboard hstring hbo hbc hso hsc
      ?_ hjoined h.last
    rw [hm]
    exact False.elim
  | drain hm hboards hlen =>
    rw [hm] at hboard hstring hbo hso
    rename_i board boards
    have hfits : Fits (s.boardQueue.setCall .main (.push (s.batch ++ [board]))) :=
      h.boardFits.setCall (not_rouses_idle hboard) trivial
    refine h.enter (.setCall _ _ _) (.refl _ _) hfits h.stringFits ?_ hstring (fun _ => hbo trivial)
      False.elim (fun _ => hso trivial) False.elim False.elim False.elim ?_
    · rw [setCall_self]
      rfl
    · intro h
      cases h
  | drainLast hm hboards hbatch =>
    rw [hm] at hboard hstring hbo hso
    have hfits : Fits (s.boardQueue.setCall .main (.push s.batch)) :=
      h.boardFits.setCall (not_rouses_idle hboard) trivial
    refine h.enter (.setCall _ _ _) (.refl _ _) hfits h.stringFits ?_ hstring (fun _ => hbo trivial)
      False.elim (fun _ => hso trivial) False.elim (fun _ => ⟨hboards, rfl⟩) False.elim ?_
    · rw [setCall_self]
      rfl
    · intro h
      cases h
  | closeAtOnce hm hboards hbatch =>
    rw [hm] at hboard hstring hso
    have hfits : Fits (s.boardQueue.setCall .main .close) :=
      h.boardFits.setCall (not_rouses_idle hboard) trivial
    refine h.enter (.setCall _ _ _) (.refl _ _) hfits h.stringFits ?_ hstring False.elim
      False.elim (fun _ => hso trivial) False.elim (fun _ => ⟨hboards, hbatch⟩) False.elim ?_
    · rw [setCall_self]
      rfl
    · intro h
      cases h
  | drained hm hcall =>
    rw [hm] at hstring hbo hso
    have hfits : Fits (s.boardQueue.setCall .main .idle) :=
      h.boardFits.setCall (not_rouses_done hcall) trivial
    refine h.enter (.setCall _ _ _) (.refl _ _) hfits h.stringFits ?_ hstring (fun _ => hbo trivial)
      False.elim (fun _ => hso trivial) False.elim False.elim False.elim ?_
    · rw [setCall_self]
      rfl
    · intro h
      cases h
  | drainedLast hm hcall =>
    rw [hm] at hstring hso hex
    have hfits : Fits (s.boardQueue.setCall .main .close) :=
      h.boardFits.setCall (not_rouses_done hcall) trivial
    refine h.enter (.setCall _ _ _) (.refl _ _) hfits h.stringFits ?_ hstring False.elim
      False.elim (fun _ => hso trivial) False.elim (fun _ => hex trivial) False.elim ?_
    · rw [setCall_self]
      rfl
    · intro h
      cases h
  | boardsClosed hm hcall =>
    rw [hm] at hboard hstring hso hex
    have hfits : Fits (s.boardQueue.setCall .main .idle) :=
      h.boardFits.setCall (not_rouses_done hcall) trivial
    have hclosed := closed_of_done h.boardFits hcall hboard
    refine h.enter (.setCall _ _ _) (.refl _ _) hfits h.stringFits ?_ hstring False.elim
      (fun _ => hclosed) (fun _ => hso trivial) False.elim (fun _ => hex trivial) False.elim ?_
    · rw [setCall_self]
      rfl
    · intro h
      cases h
  | joined hm hfinished =>
    rw [hm] at hboard hstring hbc hex
    have hfits : Fits (s.stringQueue.setCall .main .close) :=
      h.stringFits.setCall (not_rouses_idle hstring) trivial
    refine h.enter (.refl _ _) (.setCall _ _ _) h.boardFits hfits hboard ?_ False.elim
      (fun _ => hbc trivial) False.elim False.elim (fun _ => hex trivial) (fun _ => hfinished) ?_
    · rw [setCall_self]
      rfl
    · intro h
      cases h
  | stringsClosed hm hcall =>
    rw [hm] at hboard hstring hbc hex hjoined
    have hfits : Fits (s.stringQueue.setCall .main .idle) :=
      h.stringFits.setCall (not_rouses_done hcall) trivial
    have hclosed := closed_of_done h.stringFits hcall hstring
    refine h.enter (.refl _ _) (.setCall _ _ _) h.boardFits hfits hboard ?_ False.elim
      (fun _ => hbc trivial) False.elim (fun _ => hclosed) (fun _ => hex trivial)
      (fun _ => hjoined trivial) ?_
    · rw [setCall_self]
      rfl
    · intro h
      cases h
  | finished hm hfinished =>
    rw [hm] at hboard hstring hbc hsc hex hjoined
    exact h.enter (.refl _ _) (.refl _ _) h.boardFits h.stringFits hboard hstring False.elim
      (fun _ => hbc trivial) False.elim (fun _ => hsc trivial) (fun _ => hex trivial)
      (fun _ => hjoined trivial) fun _ => hfinished

/-- A worker that has not left goes on. -/
theorem Shape.serve (h : Shape s) {i : Fin n} {qb : BlockingQueue (Thread n) (List RichBoard)}
    {qs : BlockingQueue (Thread n) (List Byte)} {bufs : Fin n → BufWriter}
    (hb : SameBut (.worker i) s.boardQueue qb) (hs : SameBut (.worker i) s.stringQueue qs)
    (hbfits : Fits qb) (hsfits : Fits qs) {cb : Call (List RichBoard)} {cs : Call (List Byte)}
    (hcb : qb.calls (.worker i) = cb) (hcs : qs.calls (.worker i) = cs)
    (hi : ¬s.finished (.worker i))
    (hw : kind cb = some .pop ∧ kind cs = none ∨ kind cb = none ∧ kind cs = some .push ∨
      (kind cb = none ∧ kind cs = none) ∧ s.boardQueue.closed = true ∧ s.boardQueue.items = []) :
    Shape { s with boardQueue := qb, stringQueue := qs, bufs := bufs } := by
  have hmain : qb.calls .main = s.boardQueue.calls .main ∧
      qs.calls .main = s.stringQueue.calls .main :=
    ⟨hb.calls _ (worker_ne_main i).symm, hs.calls _ (worker_ne_main i).symm⟩
  have hprinter : qb.calls .printer = s.boardQueue.calls .printer ∧
      qs.calls .printer = s.stringQueue.calls .printer :=
    ⟨hb.calls _ (worker_ne_printer i).symm, hs.calls _ (worker_ne_printer i).symm⟩
  refine ⟨hbfits, hsfits, ?_, ?_, ?_, ?_, ?_, ?_, h.exhausted, ?_, ?_, ?_, ?_, ?_⟩
  · exact (congrArg kind hmain.1).trans h.boardKind
  · exact (congrArg kind hmain.2).trans h.stringKind
  · exact fun hm => hb.closed.trans (h.boardsOpen hm)
  · exact fun hm => hb.closed.trans (h.boardsClosed hm)
  · exact fun hm => hs.closed.trans (h.stringsOpen hm)
  · exact fun hm => hs.closed.trans (h.stringsClosed hm)
  · intro hm
    exact absurd (h.joined hm i) hi
  · intro hm
    exact (congrArg kind hprinter.2).trans (h.last hm)
  · intro j
    change kind (qb.calls _) = _ ∧ kind (qs.calls _) = _ ∨ kind (qb.calls _) = _ ∧
      kind (qs.calls _) = _ ∨ (kind (qb.calls _) = _ ∧ kind (qs.calls _) = _) ∧ qb.closed = _ ∧
        qb.items = _
    rw [hb.closed, hb.items]
    by_cases hj : Thread.worker j = .worker i
    · rw [hj, hcb, hcs]
      exact hw
    · rw [hb.calls _ hj, hs.calls _ hj]
      exact h.worker j
  · exact (congrArg kind hprinter.1).trans h.printer.1
  · change kind (qs.calls _) = _ ∨ kind (qs.calls _) = _ ∧ qs.closed = _ ∧ qs.items = _
    rw [hprinter.2, hs.closed, hs.items]
    exact h.printer.2

theorem Shape.worker_kind (h : Shape s) {i : Fin n}
    (hi : kind (s.boardQueue.calls (.worker i)) ≠ none) :
    kind (s.boardQueue.calls (.worker i)) = some .pop ∧
      kind (s.stringQueue.calls (.worker i)) = none := by
  rcases h.worker i with hw | ⟨hw, -⟩ | ⟨⟨hw, -⟩, -⟩
  · exact hw
  · exact absurd hw hi
  · exact absurd hw hi

theorem Shape.worker_string_kind (h : Shape s) {i : Fin n}
    (hi : kind (s.stringQueue.calls (.worker i)) ≠ none) :
    kind (s.boardQueue.calls (.worker i)) = none ∧
      kind (s.stringQueue.calls (.worker i)) = some .push := by
  rcases h.worker i with ⟨-, hw⟩ | hw | ⟨⟨-, hw⟩, -⟩
  · exact absurd hw hi
  · exact hw
  · exact absurd hw hi

variable {coefs : Board → List Int32} {i : Fin n}

theorem Shape.workerStep (h : Shape s) (hs : WorkerStep coefs s i s') : Shape s' := by
  cases hs with
  | process hcall hbuf =>
    have hkind := h.worker_kind (i := i) (by rw [hcall]; exact Option.some_ne_none _)
    refine h.serve (.setCall _ _ .idle) (.setCall _ _ _)
      (h.boardFits.setCall (not_rouses_done hcall) trivial)
      (h.stringFits.setCall (not_rouses_idle hkind.2) trivial) (setCall_self _ _ _)
      (setCall_self _ _ _) ?_ (Or.inr (Or.inl ⟨rfl, rfl⟩))
    intro hf
    cases hkind.1.symm.trans hf.1
  | leave hcall hanswer =>
    have hkind := h.worker_kind (i := i) (by rw [hcall]; exact Option.some_ne_none _)
    have hdrained := drained_of_done h.boardFits hcall hkind.1 hanswer
    refine h.serve (.setCall _ _ .idle) (.refl _ _)
      (h.boardFits.setCall (not_rouses_done hcall) trivial) h.stringFits (setCall_self _ _ _)
      rfl ?_ (Or.inr (Or.inr ⟨⟨rfl, hkind.2⟩, hdrained⟩))
    intro hf
    cases hkind.1.symm.trans hf.1
  | pushed hcall =>
    have hkind := h.worker_string_kind (i := i) (by rw [hcall]; exact Option.some_ne_none _)
    refine h.serve (.setCall _ _ .pop) (.setCall _ _ .idle)
      (h.boardFits.setCall (not_rouses_idle hkind.1) trivial)
      (h.stringFits.setCall (not_rouses_done hcall) trivial) (setCall_self _ _ _)
      (setCall_self _ _ _) ?_ (Or.inl ⟨rfl, rfl⟩)
    intro hf
    cases hkind.2.symm.trans hf.2

theorem Shape.print (h : Shape s) {call : Call (List Byte)} {out : BufWriter}
    (hfits : Fits (s.stringQueue.setCall .printer call)) (hp : ¬s.finished .printer)
    (hcall : kind call = some .pop ∨
      kind call = none ∧ s.stringQueue.closed = true ∧ s.stringQueue.items = []) :
    Shape { s.setStringCall .printer call with out := out } := by
  have hcalls := (SameBut.setCall (.printer : Thread n) s.stringQueue call).calls
  refine ⟨h.boardFits, hfits, h.boardKind, ?_, h.boardsOpen, h.boardsClosed, h.stringsOpen,
    h.stringsClosed, h.exhausted, ?_, ?_, ?_, h.printer.1, ?_⟩
  · exact (congrArg kind (hcalls _ printer_ne_main.symm)).trans h.stringKind
  · intro hm i
    exact ⟨(h.joined hm i).1, (congrArg kind (hcalls _ (worker_ne_printer i))).trans
      (h.joined hm i).2⟩
  · intro hm
    exact absurd (h.last hm) hp
  · intro i
    change _ ∧ kind ((s.stringQueue.setCall .printer call).calls _) = _ ∨
      _ ∧ kind ((s.stringQueue.setCall .printer call).calls _) = _ ∨
      (_ ∧ kind ((s.stringQueue.setCall .printer call).calls _) = _) ∧ _
    rw [hcalls _ (worker_ne_printer i)]
    exact h.worker i
  · change kind ((s.stringQueue.setCall .printer call).calls _) = _ ∨
      kind ((s.stringQueue.setCall .printer call).calls _) = _ ∧ _
    rw [setCall_self]
    exact hcall

theorem Shape.printerStep (h : Shape s) (hs : PrinterStep s s') : Shape s' := by
  have hnot : ∀ {answer}, s.stringQueue.calls .printer = .done answer → ¬s.finished .printer := by
    intro answer hcall hp
    change kind (s.stringQueue.calls .printer) = none at hp
    rw [hcall] at hp
    cases hp
  cases hs with
  | print hcall hout =>
    exact h.print (h.stringFits.setCall (not_rouses_done hcall) trivial) (hnot hcall) (Or.inl rfl)
  | leave hcall hanswer =>
    have hkind := h.printer.2.resolve_right fun hp => hnot hcall hp.1
    have hdrained := drained_of_done h.stringFits hcall hkind hanswer
    exact h.print (h.stringFits.setCall (not_rouses_done hcall) trivial) (hnot hcall)
      (Or.inr ⟨rfl, hdrained⟩)

theorem Shape.step (h : Shape s) {a : Action n} (hs : step coefs s a = some s') : Shape s' := by
  cases a with
  | boardQueue a =>
    obtain ⟨q, hq, rfl⟩ := Option.map_eq_some_iff.mp hs
    exact h.boardQueue hq
  | stringQueue a =>
    obtain ⟨q, hq, rfl⟩ := Option.map_eq_some_iff.mp hs
    exact h.stringQueue hq
  | main => exact h.main (mainStep_cases hs)
  | worker i junk => exact h.workerStep (workerStep_cases hs)
  | printer => exact h.printerStep (printerStep_cases hs)

theorem shape_initial (names : List (List Byte)) (boards : List RichBoard) :
    Shape (initial names boards : State n) where
  boardFits := fits_of_fresh fun t => by cases t <;> trivial
  stringFits := fits_of_fresh fun t => by cases t <;> trivial
  boardKind := rfl
  stringKind := rfl
  boardsOpen _ := rfl
  boardsClosed := False.elim
  stringsOpen _ := rfl
  stringsClosed := False.elim
  exhausted := False.elim
  joined := False.elim
  last h := by cases h
  worker _ := Or.inl ⟨rfl, rfl⟩
  printer := ⟨rfl, Or.inl rfl⟩

end Shape

end SoFCheck.Eval.MakeDataset
