import WebKit.IndexedDB.TransactionRun
import Mathlib.Data.List.Nodup

/-!
# Transactions that share a coordinator

`TransactionCoordinator` holds the three collections of `IDBTransactionCoordinator`. Its
methods decide which queued transaction may run; the calls of `run` they make come back as
a list of transactions, in order.

A `CoordinatedSystem` is a coordinator and the transactions that share it, each with what
is outstanding around it (`TransactionSystem`). One step lets something happen to one
transaction and passes its calls of `didStartTransaction` and `didFinishTransaction` on to
the coordinator, which may run another one. The system also keeps what its transactions
were asked and what they did (`History`), and the order in which they were queued and
started.
-/

namespace WebKit.IndexedDB

open Transition Function

variable {ι : Type} [DecidableEq ι]

/-- `IDBTransactionCoordinator`; the set of queued transactions keeps their order. -/
structure TransactionCoordinator (ι : Type) where
  transactions : List ι
  queuedTransactions : List ι
  startedTransactions : List ι
  deriving DecidableEq, Repr

namespace TransactionCoordinator

def initial : TransactionCoordinator ι where
  transactions := []
  queuedTransactions := []
  startedTransactions := []

/-- Only one transaction may run at a time, whichever it is. -/
def canRunTransaction (c : TransactionCoordinator ι) (_transaction : ι) : Bool :=
  c.startedTransactions.isEmpty

/-- The body of the loop of `processStartedTransactions`; the list collects the calls of
`run`. -/
def processTransaction (r : TransactionCoordinator ι × List ι) (transaction : ι) :
    TransactionCoordinator ι × List ι :=
  if r.1.canRunTransaction transaction then
    ({ r.1 with
        queuedTransactions := r.1.queuedTransactions.erase transaction
        startedTransactions := r.1.startedTransactions.insert transaction },
      r.2 ++ [transaction])
  else r

def processStartedTransactions (c : TransactionCoordinator ι) : TransactionCoordinator ι × List ι :=
  c.queuedTransactions.foldl processTransaction (c, [])

def didCreateTransaction (c : TransactionCoordinator ι) (transaction : ι) :
    TransactionCoordinator ι :=
  { c with transactions := c.transactions.insert transaction }

/-- A transaction that is queued already keeps its position. -/
def didStartTransaction (c : TransactionCoordinator ι) (transaction : ι) :
    TransactionCoordinator ι × List ι :=
  processStartedTransactions
    { c with
      queuedTransactions :=
        if transaction ∈ c.queuedTransactions then c.queuedTransactions
        else c.queuedTransactions ++ [transaction] }

/-- The transaction leaves whichever set it is in. -/
def forget (c : TransactionCoordinator ι) (transaction : ι) : TransactionCoordinator ι :=
  let c :=
    if transaction ∈ c.queuedTransactions then
      { c with queuedTransactions := c.queuedTransactions.erase transaction }
    else { c with startedTransactions := c.startedTransactions.erase transaction }
  { c with transactions := c.transactions.erase transaction }

def didFinishTransaction (c : TransactionCoordinator ι) (transaction : ι) :
    TransactionCoordinator ι × List ι :=
  (c.forget transaction).processStartedTransactions

end TransactionCoordinator

/-- The normal tasks and the abort tasks scheduled and performed so far, and how the
transaction ended. -/
structure History where
  scheduled : List Operation
  performed : List Operation
  abortScheduled : List AbortOperation
  abortPerformed : List AbortOperation
  finished : Bool
  aborted : Bool
  deriving DecidableEq, Repr

/-- The task a call performs. -/
def Call.performedTask? : Call → Option Operation
  | .perform task => some task
  | _ => none

/-- The abort task a call performs. -/
def Call.performedAbort? : Call → Option AbortOperation
  | .performAbort task => some task
  | _ => none

namespace History

def initial : History where
  scheduled := []
  performed := []
  abortScheduled := []
  abortPerformed := []
  finished := false
  aborted := false

/-- What an event asks: a finished transaction is not asked anything any more. -/
def schedule (h : History) (b : TransactionBackend) : Event → History
  | .scheduleTask type task abortTask =>
    if b.state = .finished then h
    else
      { h with
        scheduled := h.scheduled ++ if type = .normalTask then [task] else []
        abortScheduled := h.abortScheduled ++ abortTask.toList }
  | _ => h

/-- What the calls do. The task timer takes a normal task when no preemptive event is
pending. -/
def perform (h : History) (b : TransactionBackend) (calls : List Call) : History :=
  { h with
    performed := h.performed ++
      if b.pendingPreemptiveEvents = 0 then calls.filterMap Call.performedTask? else []
    abortPerformed := h.abortPerformed ++ calls.filterMap Call.performedAbort?
    finished := h.finished || decide (Call.transactionFinished ∈ calls)
    aborted := h.aborted || decide (Call.resetTransactionSync ∈ calls) }

/-- The history after an event on the fields `b` that makes these calls. -/
def record (h : History) (b : TransactionBackend) (e : Event) (calls : List Call) : History :=
  (h.schedule b e).perform b calls

end History

/-- A coordinator and its transactions; a name without a transaction has not been created
yet. `queuedOrder` and `startedOrder` record the calls of `didStartTransaction` and `run`. -/
structure CoordinatedSystem (ι : Type) where
  coordinator : TransactionCoordinator ι
  transaction : ι → Option TransactionSystem
  history : ι → History
  queuedOrder : List ι
  startedOrder : List ι

/-- What can happen: a transaction is created, or an event happens to one. -/
inductive Action (ι : Type)
  | create (i : ι)
  | event (i : ι) (e : Event)
  deriving DecidableEq

namespace CoordinatedSystem

def initial : CoordinatedSystem ι where
  coordinator := .initial
  transaction := fun _ => none
  history := fun _ => .initial
  queuedOrder := []
  startedOrder := []

/-- The coordinator calls `run` on a transaction. -/
def run (s : CoordinatedSystem ι) (i : ι) : CoordinatedSystem ι :=
  { s with
    transaction := update s.transaction i
      ((s.transaction i).map fun t => { t with backend := t.backend.run })
    startedOrder := s.startedOrder ++ [i] }

/-- The coordinator has done its part and calls `run` on some transactions. -/
def coordinated (s : CoordinatedSystem ι) (r : TransactionCoordinator ι × List ι) :
    CoordinatedSystem ι :=
  r.2.foldl run { s with coordinator := r.1 }

/-- A call of the transaction `i`, as far as the coordinator is concerned. -/
def coordinate (i : ι) (s : CoordinatedSystem ι) : Call → CoordinatedSystem ι
  | .didStartTransaction =>
    { s with queuedOrder := s.queuedOrder ++ [i] }.coordinated (s.coordinator.didStartTransaction i)
  | .didFinishTransaction => s.coordinated (s.coordinator.didFinishTransaction i)
  | _ => s

/-- The transaction `i` leaves the fields `t` and makes these calls on the event `e`. -/
def settle (s : CoordinatedSystem ι) (i : ι) (b : TransactionBackend) (e : Event)
    (t : TransactionSystem) (calls : List Call) : CoordinatedSystem ι :=
  calls.foldl (coordinate i)
    { s with
      transaction := update s.transaction i (some t)
      history := update s.history i ((s.history i).record b e calls) }

/-- One step and the calls made; `none` is a use of a released `m_database`, or an event of
a transaction that does not exist. -/
def step (s : CoordinatedSystem ι) : Action ι → Option (CoordinatedSystem ι × List Call)
  | .create i =>
    some ({ s with
      coordinator := s.coordinator.didCreateTransaction i
      transaction := update s.transaction i (some .initial) }, [])
  | .event i e =>
    (s.transaction i).bind fun t =>
      (t.step e).map fun (t', calls) => (s.settle i t.backend e t' calls, calls)

/-- An action can happen: a new transaction has a new name, and the events of a transaction
are those outstanding; `run` is called by the coordinator alone. -/
def Enabled (s : CoordinatedSystem ι) : Action ι → Prop
  | .create i => s.transaction i = none
  | .event i e => e ≠ .coordinatorRun ∧ ∃ t, s.transaction i = some t ∧ t.Enabled e

/-- The steps of the system, labelled with the action and the calls made. -/
def Step (s : CoordinatedSystem ι) (l : Action ι × List Call) (t : CoordinatedSystem ι) : Prop :=
  s.Enabled l.1 ∧ s.step l.1 = some (t, l.2)

/-- The coordinator keeps no reference to a transaction. -/
def NoReference (s : CoordinatedSystem ι) (i : ι) : Prop :=
  i ∉ s.coordinator.transactions ∧ i ∉ s.coordinator.queuedTransactions ∧
    i ∉ s.coordinator.startedTransactions

/-- What a reachable state of the system should satisfy. -/
structure Sound (s : CoordinatedSystem ι) : Prop where
  disjoint : s.coordinator.queuedTransactions.Disjoint s.coordinator.startedTransactions
  one_started : s.coordinator.startedTransactions.length ≤ 1
  -- The queue is first in, first out; a transaction that ends while it waits drops out.
  in_order : (s.startedOrder ++ s.coordinator.queuedTransactions).Sublist s.queuedOrder
  once : s.queuedOrder.Nodup
  tasks_in_order : ∀ i, (s.history i).performed <+: (s.history i).scheduled
  aborts_reversed : ∀ i, (s.history i).aborted = true →
    (s.history i).abortPerformed = (s.history i).abortScheduled.reverse
  no_reference : ∀ i, (s.history i).finished = true → s.NoReference i

/-- Every task a step performs belongs to a started transaction. -/
def PerformsStarted (s : CoordinatedSystem ι) : Prop :=
  ∀ l t, s.Step l t → ∀ i e task, l.1 = .event i e → Call.perform task ∈ l.2 →
    i ∈ s.coordinator.startedTransactions

/-- The property over all runs whose steps meet the guard. -/
def SoundRuns (ι : Type) [DecidableEq ι]
    (guard : CoordinatedSystem ι → Action ι × List Call → Prop) : Prop :=
  ∀ ls (s : CoordinatedSystem ι), Run (guarded Step guard) .initial ls s →
    s.Sound ∧ s.PerformsStarted

/-- A call of `commit` on a transaction that has not been started waits for pending tasks. -/
def CommitWaits (s : CoordinatedSystem ι) (a : Action ι) : Prop :=
  ∀ i t, a = .event i .commit → s.transaction i = some t →
    t.backend.state = .unused ∨ t.backend.state = .unopened → t.backend.hasPendingTasks = true

end CoordinatedSystem

end WebKit.IndexedDB
