import WebKit.Transition.Run

/-!
# The back-end of one IndexedDB transaction

`TransactionBackend` holds the fields of `IDBTransactionBackend` that its methods read
and write, and each method below is one of its methods. A method returns the new fields
together with the calls it makes, in order: to the server connection, to the
coordinator, to the database back-end and to the front-end callbacks.

Every call that goes through `m_database` needs the pointer to be set. The pointer is
released when the transaction has finished, and a method that would use it afterwards
returns `none`: this is the null dereference of the source.
-/

open List

namespace WebKit.IndexedDB

/-- `IDBTransactionBackend::State`. -/
inductive TransactionState
  | unopened
  | unused
  | startPending
  | running
  | finished
  deriving DecidableEq, Repr

/-- `IDBDatabaseBackend::TaskType`. -/
inductive TaskType
  | normalTask
  | preemptiveTask
  deriving DecidableEq, Repr

/-- The operations a transaction can be asked to perform. -/
inductive OperationKind
  | createObjectStore
  | deleteObjectStore
  | versionChange
  | createIndex
  | deleteIndex
  | get
  | put
  | setIndexesReady (indexCount : Nat)
  | openCursor
  | count
  | deleteRange
  | clearObjectStore
  | cursorAdvance
  | cursorIteration
  deriving DecidableEq, Repr

/-- A scheduled `IDBOperation`; the tag tells apart operations of one kind. -/
structure Operation where
  kind : OperationKind
  tag : Nat
  deriving DecidableEq, Repr

/-- The operations whose reply callback calls `abort` when the server reports an error. -/
def OperationKind.abortsOnError : OperationKind → Bool
  | createObjectStore | deleteObjectStore | versionChange | createIndex | deleteIndex
  | get | clearObjectStore => true
  | put | setIndexesReady _ | openCursor | count | deleteRange | cursorAdvance
  | cursorIteration => false

/-- The operations whose reply callback goes back to `m_transaction->database()` when the
server reports success. -/
def OperationKind.usesDatabaseOnSuccess : OperationKind → Bool
  | versionChange => true
  | _ => false

/-- Every operation is performed through `m_transaction->database()`, except
`SetIndexesReadyOperation`, which only counts down the preemptive events. -/
def OperationKind.performUsesDatabase : OperationKind → Bool
  | setIndexesReady _ => false
  | _ => true

/-- An `IDBSynchronousOperation` of the abort queue. -/
structure AbortOperation where
  tag : Nat
  deriving DecidableEq, Repr

/-- What a method asks of the objects around the transaction. -/
inductive Call
  | postAbort
  | start
  | didStartTransaction
  | transactionStarted
  | beginTransaction
  | perform (task : Operation)
  | performAbort (task : AbortOperation)
  | closeCursor (cursor : Nat)
  | commitTransaction (unused : Bool)
  | rollbackTransactionSync
  | resetTransactionSync
  | resetTransaction
  | didFinishTransaction
  | transactionFinished
  | setCurrentVersion (task : Operation)
  | onComplete
  | onAbort
  | transactionFinishedAndCompleteFired
  | transactionFinishedAndAbortFired
  deriving DecidableEq, Repr

/-- The fields of `IDBTransactionBackend`; `database` says whether `m_database` is set. -/
structure TransactionBackend where
  state : TransactionState
  commitPending : Bool
  database : Bool
  taskQueue : List Operation
  preemptiveTaskQueue : List Operation
  abortTaskQueue : List AbortOperation
  taskTimerIsActive : Bool
  pendingPreemptiveEvents : Int
  openCursors : List Nat
  deriving DecidableEq, Repr

namespace TransactionBackend

/-- The fields as the constructor leaves them. -/
def initial : TransactionBackend where
  state := .unopened
  commitPending := false
  database := true
  taskQueue := []
  preemptiveTaskQueue := []
  abortTaskQueue := []
  taskTimerIsActive := false
  pendingPreemptiveEvents := 0
  openCursors := []

/-- A method: the new fields and its calls, or a null dereference of `m_database`. -/
abbrev Outcome := Option (TransactionBackend × List Call)

def isTaskQueueEmpty (b : TransactionBackend) : Bool :=
  b.preemptiveTaskQueue.isEmpty && b.taskQueue.isEmpty

def hasPendingTasks (b : TransactionBackend) : Bool :=
  b.pendingPreemptiveEvents != 0 || !b.isTaskQueueEmpty

/-- The calls `closeOpenCursors` makes. -/
def closeOpenCursors (b : TransactionBackend) : List Call := b.openCursors.map .closeCursor

def start (b : TransactionBackend) : Outcome :=
  if b.database then
    some ({ b with state := .startPending }, [.start, .didStartTransaction, .transactionStarted])
  else none

def abort (b : TransactionBackend) : Outcome :=
  if b.state = .finished then some (b, [])
  else if b.database then
    some ({ b with
        state := .finished
        taskTimerIsActive := false
        abortTaskQueue := []
        openCursors := []
        database := false },
      (if b.state = .running then [.rollbackTransactionSync] else []) ++
        b.abortTaskQueue.map .performAbort ++ b.closeOpenCursors ++
        [.resetTransactionSync, .didFinishTransaction, .transactionFinished, .onAbort,
          .transactionFinishedAndAbortFired])
  else none

def commit (b : TransactionBackend) : Outcome :=
  if b.state = .finished then some (b, [])
  else
    let b := { b with commitPending := true }
    if b.hasPendingTasks then some (b, [])
    else if b.database then
      some ({ b with state := .finished },
        [.commitTransaction (b.state = .unused || b.state = .unopened)])
    else none

/-- The callback `commit` passes to `commitTransaction`; `unused` is what it captured. -/
def didCommitTransaction (b : TransactionBackend) (unused success : Bool) : Outcome :=
  if b.database then
    some ({ b with openCursors := [], database := false },
      b.closeOpenCursors ++ [.resetTransaction] ++
        (if unused then [] else [.didFinishTransaction]) ++ [.transactionFinished] ++
        (if unused || success then [.onComplete, .transactionFinishedAndCompleteFired]
          else [.onAbort, .transactionFinishedAndAbortFired]))
  else some (b, [])

/-- The callback the constructor passes to `openTransaction`. -/
def didOpenTransaction (b : TransactionBackend) (success : Bool) : Outcome :=
  if success then
    let b := { b with state := .unused }
    if b.hasPendingTasks then b.start else some (b, [])
  else some (b, [.postAbort])

def enqueueTask (b : TransactionBackend) (type : TaskType) (task : Operation)
    (abortTask : Option AbortOperation) : TransactionBackend :=
  { b with
    taskQueue := if type = .normalTask then b.taskQueue ++ [task] else b.taskQueue
    preemptiveTaskQueue :=
      if type = .normalTask then b.preemptiveTaskQueue else b.preemptiveTaskQueue ++ [task]
    abortTaskQueue := abortTask.toList ++ b.abortTaskQueue }

def scheduleTask (b : TransactionBackend) (type : TaskType) (task : Operation)
    (abortTask : Option AbortOperation) : Outcome :=
  match b.state with
  | .finished => some (b, [])
  | .unused => (b.enqueueTask type task abortTask).start
  | .running => some ({ b.enqueueTask type task abortTask with taskTimerIsActive := true }, [])
  | .unopened | .startPending => some (b.enqueueTask type task abortTask, [])

def registerOpenCursor (b : TransactionBackend) (cursor : Nat) : TransactionBackend :=
  { b with openCursors := b.openCursors ++ [cursor] }

def unregisterOpenCursor (b : TransactionBackend) (cursor : Nat) : TransactionBackend :=
  { b with openCursors := b.openCursors.erase cursor }

def addPreemptiveEvent (b : TransactionBackend) : TransactionBackend :=
  { b with pendingPreemptiveEvents := b.pendingPreemptiveEvents + 1 }

/-- The coordinator has started this transaction: process the first task from a timer. -/
def run (b : TransactionBackend) : TransactionBackend := { b with taskTimerIsActive := true }

/-- The events a `SetIndexesReadyOperation` completes while it is performed. -/
def completedPreemptiveEvents : OperationKind → Int
  | .setIndexesReady indexCount => indexCount
  | _ => 0

/-- The first half of `taskTimerFired`: a pending start begins the server transaction. -/
def beginIfStartPending (b : TransactionBackend) : Outcome :=
  let b := { b with taskTimerIsActive := false }
  if b.state = .startPending then
    if b.database then some ({ b with state := .running }, [.beginTransaction]) else none
  else some (b, [])

/-- Take the first task of the queue that `taskTimerFired` selects. -/
def takeTask (b : TransactionBackend) : Option (Operation × TransactionBackend) :=
  if b.pendingPreemptiveEvents != 0 then
    match b.preemptiveTaskQueue with
    | [] => none
    | task :: rest => some (task, { b with preemptiveTaskQueue := rest })
  else
    match b.taskQueue with
    | [] => none
    | task :: rest => some (task, { b with taskQueue := rest })

def performTask (b : TransactionBackend) (task : Operation) : Outcome :=
  if b.database || !task.kind.performUsesDatabase then
    some ({ b with
      pendingPreemptiveEvents := b.pendingPreemptiveEvents - completedPreemptiveEvents task.kind },
      [.perform task])
  else none

def taskTimerFired (b : TransactionBackend) : Outcome :=
  (b.beginIfStartPending).bind fun (b, begun) =>
    match b.takeTask with
    | some (task, rest) =>
      if b.state = .finished then some (b, begun)
      else (rest.performTask task).map fun (b, calls) => (b, begun ++ calls)
    | none =>
      if !b.hasPendingTasks && b.state != .finished && b.commitPending then
        b.commit.map fun (b, calls) => (b, begun ++ calls)
      else some (b, begun)

/-- The server's reply to an operation, and the completion callback that restarts the
task timer. -/
def didPerformTask (b : TransactionBackend) (task : Operation) (success : Bool) : Outcome :=
  let restart : TransactionBackend × List Call → TransactionBackend × List Call :=
    fun (b, calls) => ({ b with taskTimerIsActive := true }, calls)
  if success then
    if task.kind.usesDatabaseOnSuccess then
      if b.database then some (restart (b, [.setCurrentVersion task])) else none
    else some (restart (b, []))
  else if task.kind.abortsOnError then b.abort.map restart
  else some (restart (b, []))

end TransactionBackend

/-!
## Runs of one transaction

`TransactionSystem` is a transaction together with what is outstanding around it: the
server's replies to `openTransaction`, to `commitTransaction` and to the operations that
have been performed, the aborts posted to the main thread, and whether the coordinator
still has the transaction queued. `Step` lets any enabled event happen next, so a run is
an arbitrary interleaving of the replies, the timer and the calls of the front-end.

A finished transaction should stay finished, perform no further task, never be started
again, and never touch `m_database` once it is released (`FinishedIsFinal`). Two callbacks
break this: the reply to `openTransaction` writes `m_state` without looking at it, and the
reply to a version change goes through `m_database` without looking whether it is still
set. `finishedIsFinal_repliesInTime` proves the property for the runs in which neither callback
comes too late, and `resumes_of_not_repliesInTime` shows that a late one breaks it.
-/

open Transition

/-- Something that happens to a transaction from outside. -/
inductive Event
  | openTransactionReply (success : Bool)
  | postedAbort
  | scheduleTask (type : TaskType) (task : Operation) (abortTask : Option AbortOperation)
  | taskReply (task : Operation) (success : Bool)
  | taskTimer
  | commit
  | commitTransactionReply (unused success : Bool)
  | abort
  | coordinatorRun
  | addPreemptiveEvent
  | registerOpenCursor (cursor : Nat)
  | unregisterOpenCursor (cursor : Nat)
  deriving DecidableEq, Repr

/-- A transaction and what is outstanding around it. -/
structure TransactionSystem where
  backend : TransactionBackend
  openReplyPending : Bool
  postedAborts : Nat
  commitReplies : List Bool
  tasksInFlight : List Operation
  queuedInCoordinator : Bool
  deriving DecidableEq, Repr

variable {s : TransactionSystem}

namespace TransactionSystem

/-- The constructor has registered the transaction and asked the server to open it. -/
def initial : TransactionSystem where
  backend := .initial
  openReplyPending := true
  postedAborts := 0
  commitReplies := []
  tasksInFlight := []
  queuedInCoordinator := false

/-- What a call leaves outstanding. -/
def absorb (s : TransactionSystem) : Call → TransactionSystem
  | .postAbort => { s with postedAborts := s.postedAborts + 1 }
  | .didStartTransaction => { s with queuedInCoordinator := true }
  | .didFinishTransaction => { s with queuedInCoordinator := false }
  | .commitTransaction unused => { s with commitReplies := unused :: s.commitReplies }
  | .perform task => { s with tasksInFlight := task :: s.tasksInFlight }
  | _ => s

/-- An event can happen: the reply is outstanding, the timer is active, and so on. -/
def Enabled (s : TransactionSystem) : Event → Prop
  | .openTransactionReply _ => s.openReplyPending = true
  | .postedAbort => 0 < s.postedAborts
  | .taskReply task _ => task ∈ s.tasksInFlight
  | .taskTimer => s.backend.taskTimerIsActive = true
  | .commitTransactionReply unused _ => unused ∈ s.commitReplies
  | .coordinatorRun => s.queuedInCoordinator = true
  | _ => True

instance (s : TransactionSystem) : DecidablePred s.Enabled := fun e => by
  cases e <;> unfold Enabled <;> infer_instance

/-- The event takes what it consumes out of the outstanding replies. -/
def consume (s : TransactionSystem) : Event → TransactionSystem
  | .openTransactionReply _ => { s with openReplyPending := false }
  | .postedAbort => { s with postedAborts := s.postedAborts - 1 }
  | .taskReply task _ => { s with tasksInFlight := s.tasksInFlight.erase task }
  | .commitTransactionReply unused _ => { s with commitReplies := s.commitReplies.erase unused }
  | .coordinatorRun => { s with queuedInCoordinator := false }
  | _ => s

/-- The method of the back-end that an event runs. -/
def dispatch (b : TransactionBackend) : Event → TransactionBackend.Outcome
  | .openTransactionReply success => b.didOpenTransaction success
  | .postedAbort | .abort => b.abort
  | .scheduleTask type task abortTask => b.scheduleTask type task abortTask
  | .taskReply task success => b.didPerformTask task success
  | .taskTimer => b.taskTimerFired
  | .commit => b.commit
  | .commitTransactionReply unused success => b.didCommitTransaction unused success
  | .coordinatorRun => some (b.run, [])
  | .addPreemptiveEvent => some (b.addPreemptiveEvent, [])
  | .registerOpenCursor cursor => some (b.registerOpenCursor cursor, [])
  | .unregisterOpenCursor cursor => some (b.unregisterOpenCursor cursor, [])

/-- One event and the calls it leads to; `none` is a use of the released `m_database`. -/
def step (s : TransactionSystem) (e : Event) : Option (TransactionSystem × List Call) :=
  (dispatch s.backend e).map fun (b, calls) =>
    (calls.foldl absorb { s.consume e with backend := b }, calls)

/-- The steps of the system, labelled with the event and the calls made. -/
def Step (s : TransactionSystem) (l : Event × List Call) (t : TransactionSystem) : Prop :=
  s.Enabled l.1 ∧ s.step l.1 = some (t, l.2)

@[simp] theorem absorb_backend (s : TransactionSystem) (c : Call) :
    (s.absorb c).backend = s.backend := by cases c <;> rfl

@[simp] theorem foldl_absorb_backend (s : TransactionSystem) (calls : List Call) :
    (calls.foldl absorb s).backend = s.backend := by
  induction calls generalizing s with
  | nil => rfl
  | cons c calls ih => simp [ih]

theorem mem_commitReplies_absorb {c : Call} {unused : Bool}
    (h : unused ∈ (s.absorb c).commitReplies) :
    unused ∈ s.commitReplies ∨ c = .commitTransaction unused := by
  cases c <;> simp_all [absorb]
  tauto

theorem mem_commitReplies_foldl {calls : List Call} {unused : Bool}
    (h : unused ∈ (calls.foldl absorb s).commitReplies) :
    unused ∈ s.commitReplies ∨ Call.commitTransaction unused ∈ calls := by
  induction calls generalizing s with
  | nil => exact .inl h
  | cons c calls ih =>
    rcases ih h with h | h
    · rcases mem_commitReplies_absorb h with h | rfl
      · exact .inl h
      · exact .inr mem_cons_self
    · exact .inr (mem_cons_of_mem _ h)

theorem mem_commitReplies_consume {e : Event} {unused : Bool}
    (h : unused ∈ (s.consume e).commitReplies) : unused ∈ s.commitReplies := by
  cases e
  case commitTransactionReply => exact mem_of_mem_erase h
  all_goals exact h

end TransactionSystem

/-- A call that neither performs a task nor starts the transaction. -/
def Call.Quiet : Call → Prop
  | .start | .perform _ => False
  | _ => True

/-- What a method guarantees about the fields `b` it was called on, the fields `b'` it
leaves and the calls it makes. -/
structure Settles (b b' : TransactionBackend) (calls : List Call) : Prop where
  stays : b.state = .finished → b'.state = .finished
  quiet : b.state = .finished → ∀ c ∈ calls, c.Quiet
  released : b'.database = false → b'.state = .finished
  commits : ∀ unused, Call.commitTransaction unused ∈ calls → b'.state = .finished

/-- The method ends without using a released `m_database`, as `Settles` says. -/
def Succeeds (b : TransactionBackend) (o : TransactionBackend.Outcome) : Prop :=
  ∃ b' calls, o = some (b', calls) ∧ Settles b b' calls

namespace TransactionBackend

variable {b : TransactionBackend}

theorem succeeds_silent {b' : TransactionBackend} (hstate : b'.state = b.state)
    (hdb : b'.database = b.database) (h : b.database = false → b.state = .finished) :
    Succeeds b (some (b', [])) := by
  refine ⟨b', [], rfl, ?_, ?_, ?_, ?_⟩
  · intro hf; rw [hstate, hf]
  · simp
  · intro hb; rw [hstate]; exact h (by rw [← hdb, hb])
  · simp

theorem succeeds_start {b0 : TransactionBackend} (hstate : b0.state ≠ .finished)
    (hdb : b.database = true) : Succeeds b0 b.start := by
  unfold start
  rw [if_pos hdb]
  refine ⟨_, _, rfl, fun hf => absurd hf hstate, fun hf => absurd hf hstate, ?_, by simp⟩
  intro hb
  rw [hdb] at hb
  cases hb

theorem succeeds_abort (h : b.database = false → b.state = .finished) : Succeeds b b.abort := by
  unfold abort
  by_cases hf : b.state = .finished
  · rw [if_pos hf]
    exact succeeds_silent rfl rfl h
  · have hdb : b.database = true := by
      by_contra hb
      exact hf (h (by simpa using hb))
    rw [if_neg hf, if_pos hdb]
    refine ⟨_, _, rfl, fun _ => rfl, fun hf' => absurd hf' hf, fun _ => rfl, fun _ _ => rfl⟩

theorem succeeds_commit (h : b.database = false → b.state = .finished) : Succeeds b b.commit := by
  unfold commit
  by_cases hf : b.state = .finished
  · rw [if_pos hf]
    exact succeeds_silent rfl rfl h
  · rw [if_neg hf]
    have hdb : b.database = true := by
      by_contra hb
      exact hf (h (by simpa using hb))
    simp only [hdb, if_true]
    split
    · exact succeeds_silent rfl hdb.symm h
    · exact ⟨_, _, rfl, fun _ => rfl, fun hf' => absurd hf' hf, fun _ => rfl, fun _ _ => rfl⟩

theorem succeeds_didCommitTransaction {unused success : Bool} (hf : b.state = .finished) :
    Succeeds b (b.didCommitTransaction unused success) := by
  unfold didCommitTransaction
  split
  · refine ⟨_, _, rfl, fun h => h, ?_, fun _ => hf, fun _ _ => hf⟩
    intro _ c hc
    simp only [mem_append, closeOpenCursors, mem_map, mem_singleton] at hc
    rcases hc with (((⟨cursor, _, rfl⟩ | rfl) | hc) | rfl) | hc
    · trivial
    · trivial
    · split at hc <;> simp at hc
      subst hc; trivial
    · trivial
    · split at hc <;> simp at hc <;> rcases hc with rfl | rfl <;> trivial
  · exact succeeds_silent rfl rfl fun _ => hf

theorem succeeds_didOpenTransaction {success : Bool} (h : b.database = false → b.state = .finished)
    (hopen : success = true → b.state ≠ .finished) :
    Succeeds b (b.didOpenTransaction success) := by
  unfold didOpenTransaction
  split
  · rename_i hs
    have hf := hopen hs
    have hdb : b.database = true := by
      by_contra hb
      exact hf (h (by simpa using hb))
    dsimp only
    split
    · exact succeeds_start hf hdb
    · refine ⟨_, _, rfl, fun hf' => absurd hf' hf, by simp, ?_, by simp⟩
      intro hb
      rw [hdb] at hb
      cases hb
  · exact ⟨_, _, rfl, fun hf => hf, by simp [Call.Quiet], h, by simp⟩

variable {task : Operation}

theorem succeeds_scheduleTask {type : TaskType}
    {abortTask : Option AbortOperation} (h : b.database = false → b.state = .finished) :
    Succeeds b (b.scheduleTask type task abortTask) := by
  unfold scheduleTask
  cases hb : b.state with
  | finished | running | unopened | startPending => exact succeeds_silent rfl rfl h
  | unused =>
    have hdb : b.database = true := by
      by_contra hdb
      have := h (by simpa using hdb)
      rw [hb] at this
      cases this
    exact succeeds_start (by rw [hb]; simp) hdb

theorem Succeeds.andThen {b0 b1 : TransactionBackend} {calls : List Call} {o : Outcome}
    (h1 : Settles b0 b1 calls) (hcommits : ∀ unused, Call.commitTransaction unused ∉ calls)
    (h2 : Succeeds b1 o) :
    Succeeds b0 (o.map fun (b, calls') => (b, calls ++ calls')) := by
  obtain ⟨b2, calls2, rfl, h2⟩ := h2
  refine ⟨b2, calls ++ calls2, rfl, fun hf => h2.stays (h1.stays hf), ?_, h2.released, ?_⟩
  · intro hf c hc
    rcases mem_append.mp hc with hc | hc
    · exact h1.quiet hf c hc
    · exact h2.quiet (h1.stays hf) c hc
  · intro unused hu
    rcases mem_append.mp hu with hu | hu
    · exact absurd hu (hcommits unused)
    · exact h2.commits unused hu

theorem beginIfStartPending_spec (h : b.database = false → b.state = .finished) :
    ∃ b' calls, b.beginIfStartPending = some (b', calls) ∧ Settles b b' calls ∧
      ∀ unused, Call.commitTransaction unused ∉ calls := by
  unfold beginIfStartPending
  by_cases hs : b.state = .startPending
  · have hdb : b.database = true := by
      by_contra hb
      have := h (by simpa using hb)
      rw [hs] at this
      cases this
    rw [if_pos hs, if_pos hdb]
    refine ⟨_, _, rfl, ⟨fun hf => ?_, by simp [Call.Quiet], fun hb => ?_, by simp⟩, by simp⟩
    · rw [hs] at hf; cases hf
    · rw [hdb] at hb; cases hb
  · rw [if_neg hs]
    exact ⟨_, _, rfl, ⟨fun hf => hf, by simp, h, by simp⟩, by simp⟩

theorem takeTask_spec {rest : TransactionBackend} (h : b.takeTask = some (task, rest)) :
    rest.state = b.state ∧ rest.database = b.database := by
  unfold takeTask at h
  split at h <;> split at h <;> cases h <;> exact ⟨rfl, rfl⟩

theorem succeeds_performTask {b0 : TransactionBackend}
    (hstate : b0.state ≠ .finished) (hdb : b.database = true) :
    Succeeds b0 (b.performTask task) := by
  unfold performTask
  rw [if_pos (by simp [hdb])]
  refine ⟨_, _, rfl, fun hf => absurd hf hstate, fun hf => absurd hf hstate, ?_, by simp⟩
  intro hb
  rw [hdb] at hb
  cases hb

theorem succeeds_taskTimerFired (h : b.database = false → b.state = .finished) :
    Succeeds b b.taskTimerFired := by
  obtain ⟨b1, begun, hbegin, h1, hcommits⟩ := beginIfStartPending_spec h
  have hstop : Succeeds b (some (b1, begun)) := ⟨b1, begun, rfl, h1⟩
  unfold taskTimerFired
  rw [hbegin, Option.bind_some]
  dsimp only
  split
  · rename_i task rest htake
    obtain ⟨_, hdb⟩ := takeTask_spec htake
    split
    · exact hstop
    · rename_i hf
      refine Succeeds.andThen h1 hcommits (succeeds_performTask hf ?_)
      rw [hdb]
      by_contra hb
      exact hf (h1.released (by simpa using hb))
  · split
    · exact Succeeds.andThen h1 hcommits (succeeds_commit h1.released)
    · exact hstop

theorem succeeds_didPerformTask {success : Bool} (h : b.database = false → b.state = .finished)
    (hreply : success = true → task.kind.usesDatabaseOnSuccess = true → b.database = true) :
    Succeeds b (b.didPerformTask task success) := by
  unfold didPerformTask
  split
  · rename_i hs
    split
    · rename_i hu
      rw [if_pos (hreply hs hu)]
      exact ⟨_, _, rfl, fun hf => hf, by simp [Call.Quiet], h, by simp⟩
    · exact succeeds_silent rfl rfl h
  · split
    · obtain ⟨b', calls, habort, hset⟩ := succeeds_abort h
      rw [habort]
      exact ⟨_, _, rfl, hset.stays, hset.quiet, hset.released, hset.commits⟩
    · exact succeeds_silent rfl rfl h

end TransactionBackend

/-- The two callbacks that do not look at the state find a transaction they may go on
with: `openTransaction` succeeds while the transaction is not finished, and a version
change succeeds while `m_database` is set. -/
def RepliesInTime (s : TransactionSystem) : Event → Prop
  | .openTransactionReply true => s.backend.state ≠ .finished
  | .taskReply task true =>
    task.kind.usesDatabaseOnSuccess = true → s.backend.database = true
  | _ => True

/-- Once a run whose steps meet the guard has finished the transaction, it stays finished,
no task is performed and it is not started again; and at no time does an event that meets
the guard use `m_database` after its release. -/
def FinishedIsFinal (guard : TransactionSystem → Event → Prop) : Prop :=
  ∀ ls s, Run (guarded TransactionSystem.Step fun s l => guard s l.1) .initial ls s →
    (∀ e, s.Enabled e → guard s e → (s.step e).isSome) ∧
    (s.backend.state = .finished → ∀ ms t,
      Run (guarded TransactionSystem.Step fun s l => guard s l.1) s ms t →
        t.backend.state = .finished ∧ ∀ l ∈ ms, ∀ c ∈ l.2, c.Quiet)

namespace TransactionSystem

/-- `m_database` is released only by finishing, and a commit is outstanding only for a
finished transaction. -/
structure Inv (s : TransactionSystem) : Prop where
  released : s.backend.database = false → s.backend.state = .finished
  committing : ∀ unused ∈ s.commitReplies, s.backend.state = .finished

theorem inv_initial : Inv initial := ⟨by simp [initial, TransactionBackend.initial], by simp [initial]⟩

theorem dispatch_succeeds {e : Event} (hI : Inv s) (he : s.Enabled e)
    (hg : RepliesInTime s e) : Succeeds s.backend (dispatch s.backend e) := by
  have h := hI.released
  cases e with
  | openTransactionReply success =>
    refine TransactionBackend.succeeds_didOpenTransaction h ?_
    rintro rfl
    exact hg
  | postedAbort | abort => exact TransactionBackend.succeeds_abort h
  | scheduleTask type task abortTask => exact TransactionBackend.succeeds_scheduleTask h
  | taskReply task success =>
    refine TransactionBackend.succeeds_didPerformTask h ?_
    rintro rfl
    exact hg
  | taskTimer => exact TransactionBackend.succeeds_taskTimerFired h
  | commit => exact TransactionBackend.succeeds_commit h
  | commitTransactionReply unused success =>
    exact TransactionBackend.succeeds_didCommitTransaction (hI.committing unused he)
  | coordinatorRun | addPreemptiveEvent | registerOpenCursor | unregisterOpenCursor =>
    exact TransactionBackend.succeeds_silent rfl rfl h

/-- What a guarded step does: the method succeeds, and the new state is what it left. -/
theorem step_succeeds {e : Event} (hI : Inv s) (he : s.Enabled e) (hg : RepliesInTime s e) :
    ∃ t calls, s.step e = some (t, calls) ∧ Settles s.backend t.backend calls ∧ Inv t := by
  obtain ⟨b, calls, hd, hset⟩ := dispatch_succeeds hI he hg
  refine ⟨calls.foldl absorb { s.consume e with backend := b }, calls, ?_, ?_, ?_, ?_⟩
  · rw [step, hd]
    rfl
  · rw [foldl_absorb_backend]
    exact hset
  · rw [foldl_absorb_backend]
    exact hset.released
  · intro unused hu
    rw [foldl_absorb_backend]
    rcases mem_commitReplies_foldl hu with hu | hu
    · exact hset.stays (hI.committing unused (mem_commitReplies_consume hu))
    · exact hset.commits unused hu

theorem settles_of_step {s t : TransactionSystem} {l : Event × List Call} (hI : Inv s)
    (hstep : guarded Step (fun s l => RepliesInTime s l.1) s l t) :
    Settles s.backend t.backend l.2 ∧ Inv t := by
  obtain ⟨hg, he, hst⟩ := hstep
  obtain ⟨t', calls, hst', hset, hI'⟩ := step_succeeds hI he hg
  rw [hst] at hst'
  cases hst'
  exact ⟨hset, hI'⟩

/-- A finished transaction inside the invariant. -/
def Done (s : TransactionSystem) : Prop := Inv s ∧ s.backend.state = .finished

theorem done_of_step {s t : TransactionSystem} {l : Event × List Call} (hD : Done s)
    (hstep : guarded Step (fun s l => RepliesInTime s l.1) s l t) : Done t := by
  obtain ⟨hset, hI⟩ := settles_of_step hD.1 hstep
  exact ⟨hI, hset.stays hD.2⟩

end TransactionSystem

open TransactionSystem in
theorem finishedIsFinal_repliesInTime : FinishedIsFinal RepliesInTime := by
  intro ls s hrun
  have hI : Inv s := hrun.preserves (fun _ _ _ hI hst => (settles_of_step hI hst).2) inv_initial
  refine ⟨?_, ?_⟩
  · intro e he hg
    obtain ⟨t, calls, hst, _, _⟩ := step_succeeds hI he hg
    rw [hst]
    rfl
  · intro hf ms t hms
    have hD : Done s := ⟨hI, hf⟩
    refine ⟨(hms.preserves (fun _ _ _ hD hst => done_of_step hD hst) hD).2, ?_⟩
    exact hms.forall_label (I := Done) (P := fun l => ∀ c ∈ l.2, c.Quiet)
      (fun _ _ _ hD hst => done_of_step hD hst)
      (fun _ _ _ hD hst => (settles_of_step hD.1 hst).1.quiet hD.2) hD

/-- The event uses the released `m_database` or takes the transaction out of `Finished`. -/
def Resumes (s : TransactionSystem) (e : Event) : Prop :=
  s.step e = none ∨
    s.backend.state = .finished ∧
      ∃ t calls, s.step e = some (t, calls) ∧ t.backend.state ≠ .finished

namespace TransactionSystem

theorem didOpenTransaction_leaves_finished (b : TransactionBackend) :
    b.didOpenTransaction true = none ∨
      ∃ b' calls, b.didOpenTransaction true = some (b', calls) ∧ b'.state ≠ .finished := by
  simp only [TransactionBackend.didOpenTransaction, if_true]
  split
  · unfold TransactionBackend.start
    split
    · exact .inr ⟨_, _, rfl, by simp⟩
    · exact .inl rfl
  · exact .inr ⟨_, _, rfl, by simp⟩

theorem resumes_of_not_repliesInTime {e : Event} (hg : ¬ RepliesInTime s e) : Resumes s e := by
  cases e with
  | openTransactionReply success =>
    cases success with
    | false => exact absurd trivial hg
    | true =>
      have hf : s.backend.state = .finished := by simpa [RepliesInTime] using hg
      rcases didOpenTransaction_leaves_finished s.backend with ho | ⟨b, calls, ho, hb⟩
      · left
        simp only [step, dispatch, ho, Option.map_none]
      · refine .inr ⟨hf, calls.foldl absorb
          { s.consume (.openTransactionReply true) with backend := b }, calls, ?_, ?_⟩
        · simp only [step, dispatch, ho, Option.map_some]
        · rw [foldl_absorb_backend]
          exact hb
  | taskReply task success =>
    cases success with
    | false => exact absurd trivial hg
    | true =>
      have hr : task.kind.usesDatabaseOnSuccess = true ∧ s.backend.database = false := by
        simpa [RepliesInTime] using hg
      left
      simp [step, dispatch, TransactionBackend.didPerformTask, hr.1, hr.2]
  | _ => exact absurd trivial hg

end TransactionSystem

/-- A run whose steps meet `RepliesInTime` keeps a finished transaction finished, performs
no task and starts nothing from then on, and never uses a released `m_database`; the first
event that does not meet it breaks this. -/
theorem finished_is_final {ls : List (Event × List Call)}
    (hrun : Run (guarded TransactionSystem.Step fun s l => RepliesInTime s l.1) .initial ls s) :
    (∀ e, s.Enabled e → RepliesInTime s e → (s.step e).isSome) ∧
    (s.backend.state = .finished → ∀ ms t,
      Run (guarded TransactionSystem.Step fun s l => RepliesInTime s l.1) s ms t →
        t.backend.state = .finished ∧ ∀ l ∈ ms, ∀ c ∈ l.2, c.Quiet) ∧
    (∀ e, s.Enabled e → ¬ RepliesInTime s e → Resumes s e) := by
  obtain ⟨hdb, hfin⟩ := finishedIsFinal_repliesInTime ls s hrun
  exact ⟨hdb, hfin, fun _ _ hg => TransactionSystem.resumes_of_not_repliesInTime hg⟩

/-- The transaction after an abort that comes before the server's reply to
`openTransaction`. -/
def TransactionSystem.abortedUnopened : TransactionSystem :=
  { TransactionSystem.initial with
    backend := { TransactionBackend.initial with state := .finished, database := false } }

def abortCalls : List Call :=
  [.resetTransactionSync, .didFinishTransaction, .transactionFinished, .onAbort,
    .transactionFinishedAndAbortFired]

theorem run_abortedUnopened :
    Run (guarded TransactionSystem.Step fun s l => RepliesInTime s l.1) .initial
      [(.abort, abortCalls)] .abortedUnopened :=
  .single ⟨trivial, trivial, by decide⟩

/-- After an early abort only a failed open reply is in time, and it changes nothing. -/
theorem finished_is_final_abortedUnopened :
    TransactionSystem.abortedUnopened.backend.state = .finished ∧
      Resumes .abortedUnopened (.openTransactionReply true) :=
  ⟨rfl, (finished_is_final run_abortedUnopened).2.2 _ rfl fun hg => hg rfl⟩

/-- Without the guard the property fails: an abort that overtakes the reply to
`openTransaction` finishes the transaction, and the reply makes it unused again. -/
theorem not_finishedIsFinal : ¬ FinishedIsFinal fun _ _ => True := by
  intro h
  have hrun : Run (guarded TransactionSystem.Step fun _ _ => True) .initial
      [(.abort, abortCalls)] .abortedUnopened := .single ⟨trivial, trivial, by decide⟩
  have hreply : Run (guarded TransactionSystem.Step fun _ _ => True) .abortedUnopened
      [(.openTransactionReply true, [])]
      { TransactionSystem.abortedUnopened with
        backend := { TransactionBackend.initial with state := .unused, database := false }
        openReplyPending := false } := .single ⟨trivial, rfl, by decide⟩
  have hfin := ((h _ _ hrun).2 rfl _ _ hreply).1
  cases hfin

end WebKit.IndexedDB
