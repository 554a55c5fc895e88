import WebKit.IndexedDB.DatabaseMetadata
import WebKit.IndexedDB.TransactionRun

/-!
# A version change and the metadata of its database

`VersionChange` is a version change transaction with what is outstanding around it
(`TransactionSystem`), and the metadata of the database that it edits. The methods that change
the schema edit the metadata at once, and schedule an operation and the abort operation that
takes the edit back; the version is set when the server has answered.
-/

open List

namespace WebKit.IndexedDB

open Transition TransactionBackend DatabaseMetadata Option SchemaAbortOperation TransactionSystem

structure VersionChange where
  transaction : TransactionSystem
  metadata : DatabaseMetadata
  /-- `m_transactions` contains the transaction. -/
  registered : Bool
  requestedVersion : ℕ
  /-- The abort operations that have been made; the tag of a task is its place here. -/
  abortOperations : List SchemaAbortOperation
  /-- `onAbort` has been called. -/
  aborted : Bool

namespace VersionChange

/-- What a call of the transaction does to the database. -/
def receive (s : VersionChange) : Call → VersionChange
  | .performAbort task =>
    match s.abortOperations[task.tag]? with
    | some operation => { s with metadata := operation.perform s.metadata }
    | none => s
  | .setCurrentVersion _ => { s with metadata := s.metadata.setCurrentVersion s.requestedVersion }
  | .transactionFinished => { s with registered := false }
  | .onAbort => { s with aborted := true }
  | _ => s

/-- Something happens to the transaction; `none` is a use of the released `m_database`. -/
def happen (s : VersionChange) (e : Event) : Option VersionChange :=
  (s.transaction.step e).map fun (transaction, calls) =>
    calls.foldl receive { s with transaction := transaction }

/-- `scheduleTask` with a new operation and its abort operation. -/
def scheduleTask (s : VersionChange) (kind : OperationKind)
    (abortOperation : SchemaAbortOperation) : Option VersionChange :=
  let tag := s.abortOperations.length
  { s with abortOperations := s.abortOperations ++ [abortOperation] }.happen
    (.scheduleTask .normalTask ⟨kind, tag⟩ (some ⟨tag⟩))

/-- The transaction is created and the version change is scheduled. -/
def create (metadata : DatabaseMetadata) (requestedVersion : ℕ) : Option VersionChange :=
  scheduleTask
    { transaction := .initial
      metadata := metadata
      registered := true
      requestedVersion := requestedVersion
      abortOperations := []
      aborted := false }
    .versionChange (.versionChange metadata.version)

/-- The methods of the database find the transaction, schedule their operation and edit the
metadata. -/
def edit (s : VersionChange) (kind : OperationKind) (abortOperation : SchemaAbortOperation)
    (f : DatabaseMetadata → DatabaseMetadata) : Option VersionChange :=
  if s.registered then
    (s.scheduleTask kind abortOperation).map fun s => { s with metadata := f s.metadata }
  else some s

def createObjectStore (s : VersionChange) (objectStoreId : ℤ) (name : String) (keyPath : KeyPath)
    (autoIncrement : Bool) : Option VersionChange :=
  let objectStore : ObjectStoreMetadata :=
    { name := name
      id := objectStoreId
      keyPath := keyPath
      autoIncrement := autoIncrement
      maxIndexId := minimumIndexId
      indexes := fun _ => none }
  s.edit .createObjectStore (.createObjectStore objectStoreId)
    (·.addObjectStore objectStore objectStoreId)

def deleteObjectStore (s : VersionChange) (objectStoreId : ℤ) : Option VersionChange :=
  s.edit .deleteObjectStore (.deleteObjectStore (s.metadata.getObjectStore objectStoreId))
    (·.removeObjectStore objectStoreId)

def createIndex (s : VersionChange) (objectStoreId indexId : ℤ) (name : String) (keyPath : KeyPath)
    (unique multiEntry : Bool) : Option VersionChange :=
  let index : IndexMetadata :=
    { name := name
      id := indexId
      keyPath := keyPath
      unique := unique
      multiEntry := multiEntry }
  s.edit .createIndex (.createIndex objectStoreId indexId) (·.addIndex objectStoreId index indexId)

def deleteIndex (s : VersionChange) (objectStoreId indexId : ℤ) : Option VersionChange :=
  let index := ((s.metadata.getObjectStore objectStoreId).indexes indexId).getD default
  s.edit .deleteIndex (.deleteIndex objectStoreId index) (·.removeIndex objectStoreId indexId)

end VersionChange

inductive VersionChangeEvent
  | createObjectStore (objectStoreId : ℤ) (name : String) (keyPath : KeyPath)
    (autoIncrement : Bool)
  | deleteObjectStore (objectStoreId : ℤ)
  | createIndex (objectStoreId indexId : ℤ) (name : String) (keyPath : KeyPath)
    (unique multiEntry : Bool)
  | deleteIndex (objectStoreId indexId : ℤ)
  /-- A reply of the server, the timer, a commit, an abort, or an operation on the records. -/
  | transaction (e : Event)

/-- Operations that are scheduled in other ways have no abort operation. -/
def Event.Ordinary : Event → Prop
  | .scheduleTask _ task abortTask => task.kind ≠ .versionChange ∧ abortTask = none
  | _ => True

namespace VersionChange

/-- The assertions of the methods. -/
def Enabled (s : VersionChange) : VersionChangeEvent → Prop
  | .createObjectStore objectStoreId _ _ _ =>
    s.registered = true → s.metadata.objectStores objectStoreId = none
  | .deleteObjectStore objectStoreId =>
    s.registered = true → (s.metadata.objectStores objectStoreId).isSome
  | .createIndex objectStoreId indexId _ _ _ _ =>
    s.registered = true → ∃ objectStore, s.metadata.objectStores objectStoreId = some objectStore ∧
      objectStore.indexes indexId = none
  | .deleteIndex objectStoreId indexId =>
    s.registered = true → ∃ objectStore, s.metadata.objectStores objectStoreId = some objectStore ∧
      (objectStore.indexes indexId).isSome
  | .transaction e => s.transaction.Enabled e ∧ e.Ordinary

def step (s : VersionChange) : VersionChangeEvent → Option VersionChange
  | .createObjectStore objectStoreId name keyPath autoIncrement =>
    s.createObjectStore objectStoreId name keyPath autoIncrement
  | .deleteObjectStore objectStoreId => s.deleteObjectStore objectStoreId
  | .createIndex objectStoreId indexId name keyPath unique multiEntry =>
    s.createIndex objectStoreId indexId name keyPath unique multiEntry
  | .deleteIndex objectStoreId indexId => s.deleteIndex objectStoreId indexId
  | .transaction e => s.happen e

def Step (s : VersionChange) (e : VersionChangeEvent) (t : VersionChange) : Prop :=
  s.Enabled e ∧ s.step e = some t

end VersionChange

/-!
## An aborted version change

Until the transaction is finished, replaying its abort operations restores the metadata with
which it was created, whatever the version has been set to (`Restorable`). `abort` replays them.
Afterwards the metadata stay as they are: the database does not know the transaction any more,
and no reply sets the version, as long as the reply to the version change does not come too late
(`RepliesInTime`).

A commit that fails ends in `onAbort` without the abort operations.
-/

open Transition

/-- A call that has no effect on the metadata or on the end of the transaction. -/
def Call.Plain : Call → Prop
  | .performAbort _ | .setCurrentVersion _ | .transactionFinished | .onAbort => False
  | _ => True

/-- The method makes plain calls, and does not touch the abort operations. -/
structure Plain (b b' : TransactionBackend) (calls : List Call) : Prop where
  plain : ∀ c ∈ calls, c.Plain
  abortTaskQueue_eq : b'.abortTaskQueue = b.abortTaskQueue
  released : b.database = false → b'.database = false

theorem Plain.andThen {b0 b1 b2 : TransactionBackend} {calls calls' : List Call}
    (h1 : Plain b0 b1 calls) (h2 : Plain b1 b2 calls') : Plain b0 b2 (calls ++ calls') where
  plain := by
    intro c hc
    rcases mem_append.mp hc with hc | hc
    · exact h1.plain c hc
    · exact h2.plain c hc
  abortTaskQueue_eq := h2.abortTaskQueue_eq.trans h1.abortTaskQueue_eq
  released := fun h => h2.released (h1.released h)

variable {task : Operation}

namespace TransactionBackend

variable {b b' : TransactionBackend} {calls : List Call}

theorem plain_silent (hqueue : b'.abortTaskQueue = b.abortTaskQueue)
    (hdb : b'.database = b.database) : Plain b b' [] :=
  ⟨by simp, hqueue, fun h => hdb.trans h⟩

theorem plain_start {b0 : TransactionBackend} (hqueue : b.abortTaskQueue = b0.abortTaskQueue)
    (hdb : b.database = b0.database) (h : b.start = some (b', calls)) : Plain b0 b' calls := by
  unfold start at h
  split at h
  · cases h
    exact ⟨by simp [Call.Plain], hqueue, fun h => hdb.trans h⟩
  · cases h

theorem plain_commit (h : b.commit = some (b', calls)) : Plain b b' calls := by
  unfold commit at h
  split at h
  · cases h
    exact plain_silent rfl rfl
  · dsimp only at h
    split at h
    · cases h
      exact plain_silent rfl rfl
    · split at h
      · cases h
        exact ⟨by simp [Call.Plain], rfl, fun h => h⟩
      · cases h

theorem plain_didOpenTransaction {success : Bool}
    (h : b.didOpenTransaction success = some (b', calls)) : Plain b b' calls := by
  unfold didOpenTransaction at h
  split at h
  · dsimp only at h
    split at h
    · exact plain_start rfl rfl h
    · cases h
      exact plain_silent rfl rfl
  · cases h
    exact ⟨by simp [Call.Plain], rfl, fun h => h⟩

theorem plain_scheduleTask {type : TaskType} {abortTask : Option AbortOperation}
    (hstate : b.state ≠ .finished)
    (h : b.scheduleTask type task abortTask = some (b', calls)) :
    Plain (b.enqueueTask type task abortTask) b' calls := by
  unfold scheduleTask at h
  cases hb : b.state with
  | finished => exact absurd hb hstate
  | unused =>
    rw [hb] at h
    exact plain_start rfl rfl h
  | running | unopened | startPending =>
    rw [hb] at h
    cases h
    exact plain_silent rfl rfl

theorem scheduleTask_finished (type : TaskType) (task : Operation)
    (abortTask : Option AbortOperation) (hstate : b.state = .finished) :
    b.scheduleTask type task abortTask = some (b, []) := by
  unfold scheduleTask
  rw [hstate]

theorem plain_beginIfStartPending (h : b.beginIfStartPending = some (b', calls)) :
    Plain b b' calls := by
  unfold beginIfStartPending at h
  dsimp only at h
  split at h
  · split at h
    · cases h
      exact ⟨by simp [Call.Plain], rfl, fun h => h⟩
    · cases h
  · cases h
    exact plain_silent rfl rfl

theorem plain_takeTask {rest : TransactionBackend}
    (h : b.takeTask = some (task, rest)) : Plain b rest [] := by
  unfold takeTask at h
  split at h <;> split at h <;> cases h <;> exact plain_silent rfl rfl

theorem plain_performTask (h : b.performTask task = some (b', calls)) : Plain b b' calls := by
  unfold performTask at h
  split at h
  · cases h
    exact ⟨by simp [Call.Plain], rfl, fun h => h⟩
  · cases h

theorem plain_taskTimerFired (h : b.taskTimerFired = some (b', calls)) : Plain b b' calls := by
  obtain ⟨⟨b1, begun⟩, hbegin, h⟩ := bind_eq_some_iff.mp h
  have h1 := plain_beginIfStartPending hbegin
  dsimp only at h
  split at h
  · rename_i task rest htake
    split at h
    · cases h
      exact h1
    · obtain ⟨⟨b2, calls2⟩, hperf, heq⟩ := map_eq_some_iff.mp h
      cases heq
      exact h1.andThen ((plain_takeTask htake).andThen (plain_performTask hperf))
  · split at h
    · obtain ⟨⟨b2, calls2⟩, hcommit, heq⟩ := map_eq_some_iff.mp h
      cases heq
      exact h1.andThen (plain_commit hcommit)
    · cases h
      exact h1

theorem abort_calls (hstate : b.state ≠ .finished) (h : b.abort = some (b', calls)) :
    b'.database = false ∧ b'.state = .finished ∧ b'.abortTaskQueue = [] ∧ ∃ before after,
      calls = before ++ b.abortTaskQueue.map .performAbort ++ after ++
        [.transactionFinished, .onAbort, .transactionFinishedAndAbortFired] ∧
      (∀ c ∈ before, c.Plain) ∧ ∀ c ∈ after, c.Plain := by
  unfold abort at h
  rw [if_neg hstate] at h
  split at h
  · cases h
    refine ⟨rfl, rfl, rfl, if b.state = .running then [.rollbackTransactionSync] else [],
      b.closeOpenCursors ++ [.resetTransactionSync, .didFinishTransaction], ?_, ?_, ?_⟩
    · simp only [append_assoc, cons_append, nil_append]
    · intro c hc
      split at hc
      · rw [mem_singleton.mp hc]
        trivial
      · cases hc
    · intro c hc
      rcases mem_append.mp hc with hc | hc
      · obtain ⟨cursor, -, rfl⟩ := mem_map.mp hc
        trivial
      · rcases mem_cons.mp hc with rfl | hc
        · trivial
        · rw [mem_singleton.mp hc]
          trivial
  · cases h

theorem abort_finished (hstate : b.state = .finished) : b.abort = some (b, []) := if_pos hstate

end TransactionBackend

namespace VersionChange

variable {m : DatabaseMetadata} {s t : VersionChange}

theorem receive_plain (s : VersionChange) {c : Call} (h : c.Plain) : s.receive c = s := by
  cases c <;> first | rfl | exact absurd h id

variable {calls : List Call}

theorem foldl_receive_plain (s : VersionChange) (h : ∀ c ∈ calls, c.Plain) :
    calls.foldl receive s = s := by
  induction calls generalizing s with
  | nil => rfl
  | cons c calls ih =>
    rw [foldl_cons, s.receive_plain (h c mem_cons_self)]
    exact ih s fun c hc => h c (mem_cons_of_mem _ hc)

/-- The abort operations that the transaction would perform. -/
def abortLog (s : VersionChange) : List SchemaAbortOperation :=
  s.transaction.backend.abortTaskQueue.filterMap fun task => s.abortOperations[task.tag]?

theorem foldl_receive_performAbort (s : VersionChange) (tasks : List AbortOperation) :
    (tasks.map Call.performAbort).foldl receive s =
      { s with
        metadata := replay perform
          (tasks.filterMap fun task => s.abortOperations[task.tag]?) s.metadata } := by
  induction tasks generalizing s with
  | nil => rfl
  | cons task tasks ih =>
    rw [map_cons, foldl_cons, ih, filterMap_cons]
    rcases hop : s.abortOperations[task.tag]? with _ | operation
    · simp only [receive, hop]
    · simp only [receive, hop, replay_cons]

/-- The abort operations restore the metadata, whatever the version is. -/
def Restorable (m : DatabaseMetadata) (s : VersionChange) : Prop :=
  ∀ version, (replay perform s.abortLog
    (s.metadata.setCurrentVersion version)).withoutMaximumIds = m.withoutMaximumIds

structure Inv (m : DatabaseMetadata) (s : VersionChange) : Prop where
  transaction : s.transaction.Inv
  tag_lt : ∀ task ∈ s.transaction.backend.abortTaskQueue, task.tag < s.abortOperations.length
  wellKeyed : s.transaction.backend.state ≠ .finished → s.metadata.WellKeyed
  restorable : s.transaction.backend.state ≠ .finished → s.Restorable m
  not_aborted : s.transaction.backend.state ≠ .finished → s.aborted = false
  aborted : s.aborted = true → s.transaction.backend.database = false ∧ s.registered = false ∧
    s.metadata.withoutMaximumIds = m.withoutMaximumIds

/-- Neither does a reply of the server come too late, nor does the commit of a transaction that
was started fail. -/
def InTime (s : VersionChange) : VersionChangeEvent → Prop
  | .transaction e => RepliesInTime s.transaction e ∧
    ∀ unused success, e = .commitTransactionReply unused success → (unused || success) = true
  | _ => True

variable {transaction : TransactionSystem}

theorem Inv.plain (h : s.Inv m) (hinv : transaction.Inv)
    (hstays : s.transaction.backend.state = .finished → transaction.backend.state = .finished)
    (hplain : Plain s.transaction.backend transaction.backend calls) :
    (calls.foldl receive { s with transaction := transaction }).Inv m := by
  rw [foldl_receive_plain _ hplain.plain]
  have hback : transaction.backend.state ≠ .finished → s.transaction.backend.state ≠ .finished :=
    fun hne heq => hne (hstays heq)
  exact
    { transaction := hinv
      tag_lt := by
        intro task htask
        apply h.tag_lt task
        rw [← hplain.abortTaskQueue_eq]
        exact htask
      wellKeyed := fun hne => h.wellKeyed (hback hne)
      restorable := by
        intro hne version
        rw [abortLog, hplain.abortTaskQueue_eq]
        exact h.restorable (hback hne) version
      not_aborted := fun hne => h.not_aborted (hback hne)
      aborted := fun haborted =>
        ⟨hplain.released (h.aborted haborted).1, (h.aborted haborted).2⟩ }

theorem Inv.abort (h : s.Inv m) {b : TransactionBackend} (hinv : transaction.Inv)
    (habort : s.transaction.backend.abort = some (b, calls))
    (hstate : transaction.backend.state = b.state)
    (hdb : transaction.backend.database = b.database)
    (hqueue : transaction.backend.abortTaskQueue = b.abortTaskQueue) :
    (calls.foldl receive { s with transaction := transaction }).Inv m := by
  by_cases hfin : s.transaction.backend.state = .finished
  · rw [TransactionBackend.abort_finished hfin] at habort
    obtain ⟨rfl, rfl⟩ := Prod.mk.inj (Option.some.inj habort)
    apply h.plain hinv
    · intro _
      rw [hstate]
      exact hfin
    · exact plain_silent hqueue hdb
  · obtain ⟨hreleased, hended, hempty, before, after, rfl, hbef, hafter⟩ := abort_calls hfin habort
    rw [foldl_append, foldl_append, foldl_append, foldl_receive_plain _ hbef,
      foldl_receive_performAbort, foldl_receive_plain _ hafter]
    have hrest := h.restorable hfin s.metadata.version
    have hend := hstate.trans hended
    exact
      { transaction := hinv
        tag_lt := by
          show ∀ task ∈ transaction.backend.abortTaskQueue, _
          rw [hqueue, hempty]
          nofun
        wellKeyed := fun hne => absurd hend hne
        restorable := fun hne => absurd hend hne
        not_aborted := fun hne => absurd hend hne
        aborted := fun _ => ⟨hdb.trans hreleased, rfl, hrest⟩ }

theorem dispatch_of_step {e : Event} (h : s.transaction.step e = some (transaction, calls)) :
    dispatch s.transaction.backend e = some (transaction.backend, calls) := by
  obtain ⟨⟨b, calls'⟩, hd, heq⟩ := map_eq_some_iff.mp h
  obtain ⟨rfl, rfl⟩ := Prod.mk.inj heq
  rw [TransactionSystem.foldl_absorb_backend]
  exact hd

section

variable (h : s.Inv m)
include h

theorem Inv.setCurrentVersion (hinv : transaction.Inv) (hdb : s.transaction.backend.database = true)
    (hstate : transaction.backend.state = s.transaction.backend.state)
    (hqueue : transaction.backend.abortTaskQueue = s.transaction.backend.abortTaskQueue) :
    ([Call.setCurrentVersion task].foldl receive { s with transaction := transaction }).Inv m where
  transaction := hinv
  tag_lt := by
    intro task' htask
    apply h.tag_lt task'
    rw [← hqueue]
    exact htask
  wellKeyed := by
    intro hne
    have hkeyed := h.wellKeyed (hstate ▸ hne)
    exact ⟨hkeyed.objectStore, hkeyed.index⟩
  restorable := by
    intro hne version
    show (replay perform (abortLog { s with transaction := transaction })
      (s.metadata.setCurrentVersion version)).withoutMaximumIds = _
    rw [abortLog, hqueue]
    exact h.restorable (hstate ▸ hne) version
  not_aborted := fun hne => h.not_aborted (hstate ▸ hne)
  aborted := fun haborted => by
    have hreleased := (h.aborted haborted).1
    rw [hdb] at hreleased
    cases hreleased

theorem Inv.didCommit {unused success : Bool} (hinv : transaction.Inv)
    (hfin : transaction.backend.state = .finished) (hsuccess : (unused || success) = true)
    (hcommit : s.transaction.backend.didCommitTransaction unused success =
      some (transaction.backend, calls)) :
    (calls.foldl receive { s with transaction := transaction }).Inv m := by
  unfold TransactionBackend.didCommitTransaction at hcommit
  by_cases hdb : s.transaction.backend.database = true
  · rw [if_pos hdb, hsuccess, if_pos rfl] at hcommit
    obtain ⟨hbackend, rfl⟩ := Prod.mk.inj (Option.some.inj hcommit)
    have hqueue : transaction.backend.abortTaskQueue = s.transaction.backend.abortTaskQueue := by
      rw [← hbackend]
    have hplain : ∀ c ∈ s.transaction.backend.closeOpenCursors ++ [.resetTransaction] ++
        (if unused then [] else [.didFinishTransaction]), c.Plain := by
      intro c hc
      rcases mem_append.mp hc with hc | hc
      · rcases mem_append.mp hc with hc | hc
        · obtain ⟨cursor, -, rfl⟩ := mem_map.mp hc
          trivial
        · rw [mem_singleton.mp hc]
          trivial
      · split at hc
        · cases hc
        · rw [mem_singleton.mp hc]
          trivial
    have haborted : s.aborted = false := by
      by_contra haborted
      rw [(h.aborted (eq_true_of_ne_false haborted)).1] at hdb
      cases hdb
    rw [foldl_append, foldl_append, foldl_receive_plain _ hplain]
    exact
      { transaction := hinv
        tag_lt := by
          intro task htask
          apply h.tag_lt task
          rw [← hqueue]
          exact htask
        wellKeyed := fun hne => absurd hfin hne
        restorable := fun hne => absurd hfin hne
        not_aborted := fun hne => absurd hfin hne
        aborted := fun htrue => nomatch haborted.symm.trans htrue }
  · rw [if_neg hdb] at hcommit
    obtain ⟨hbackend, rfl⟩ := Prod.mk.inj (Option.some.inj hcommit)
    apply h.plain hinv (fun _ => hfin)
    rw [← hbackend]
    exact TransactionBackend.plain_silent rfl rfl

theorem Inv.didPerform {success : Bool} (hinv : transaction.Inv)
    (hstays : s.transaction.backend.state = .finished → transaction.backend.state = .finished)
    (hperf : s.transaction.backend.didPerformTask task success =
      some (transaction.backend, calls)) :
    (calls.foldl receive { s with transaction := transaction }).Inv m := by
  unfold TransactionBackend.didPerformTask at hperf
  split at hperf
  · split at hperf
    · split at hperf
      · rename_i hdb
        obtain ⟨hbackend, rfl⟩ := Prod.mk.inj (Option.some.inj hperf)
        exact h.setCurrentVersion hinv hdb (by rw [← hbackend]) (by rw [← hbackend])
      · cases hperf
    · obtain ⟨hbackend, rfl⟩ := Prod.mk.inj (Option.some.inj hperf)
      apply h.plain hinv hstays
      rw [← hbackend]
      exact TransactionBackend.plain_silent rfl rfl
  · split at hperf
    · obtain ⟨⟨b, calls'⟩, habort, heq⟩ := Option.map_eq_some_iff.mp hperf
      obtain ⟨hbackend, rfl⟩ := Prod.mk.inj heq
      exact h.abort hinv habort (by rw [← hbackend]) (by rw [← hbackend]) (by rw [← hbackend])
    · obtain ⟨hbackend, rfl⟩ := Prod.mk.inj (Option.some.inj hperf)
      apply h.plain hinv hstays
      rw [← hbackend]
      exact TransactionBackend.plain_silent rfl rfl

theorem Inv.happen {e : Event} (he : s.Enabled (.transaction e))
    (hintime : s.InTime (.transaction e)) : ∃ t, s.happen e = some t ∧ t.Inv m := by
  obtain ⟨henabled, hordinary⟩ := he
  obtain ⟨hreplies, hcommit⟩ := hintime
  obtain ⟨transaction, calls, hstep, hset, hinv⟩ :=
    TransactionSystem.step_succeeds h.transaction henabled hreplies
  have hd := dispatch_of_step hstep
  refine ⟨calls.foldl receive { s with transaction := transaction }, ?_, ?_⟩
  · rw [VersionChange.happen, hstep]
    rfl
  · cases e with
    | openTransactionReply success =>
      exact h.plain hinv hset.stays (TransactionBackend.plain_didOpenTransaction hd)
    | postedAbort | abort => exact h.abort hinv hd rfl rfl rfl
    | scheduleTask type task abortTask =>
      obtain ⟨-, rfl⟩ := hordinary
      apply h.plain hinv hset.stays
      by_cases hfin : s.transaction.backend.state = .finished
      · have hsilent := TransactionBackend.scheduleTask_finished type task none hfin
        obtain ⟨hbackend, rfl⟩ := Prod.mk.inj (Option.some.inj (hsilent.symm.trans hd))
        rw [← hbackend]
        exact TransactionBackend.plain_silent rfl rfl
      · have hplain := TransactionBackend.plain_scheduleTask hfin hd
        exact ⟨hplain.plain, hplain.abortTaskQueue_eq, hplain.released⟩
    | taskReply task success => exact h.didPerform hinv hset.stays hd
    | taskTimer => exact h.plain hinv hset.stays (TransactionBackend.plain_taskTimerFired hd)
    | commit => exact h.plain hinv hset.stays (TransactionBackend.plain_commit hd)
    | commitTransactionReply unused success =>
      exact h.didCommit hinv (hset.stays (h.transaction.committing unused henabled))
        (hcommit unused success rfl) hd
    | coordinatorRun | addPreemptiveEvent | registerOpenCursor cursor
    | unregisterOpenCursor cursor =>
      obtain ⟨hbackend, rfl⟩ := Prod.mk.inj (Option.some.inj hd)
      apply h.plain hinv hset.stays
      rw [← hbackend]
      exact TransactionBackend.plain_silent rfl rfl

theorem Inv.edit {kind : OperationKind} {abortOperation : SchemaAbortOperation}
    {f : DatabaseMetadata → DatabaseMetadata}
    (hvers : ∀ version, (f s.metadata).setCurrentVersion version =
      f (s.metadata.setCurrentVersion version))
    (hundo : s.registered = true → s.metadata.WellKeyed → (f s.metadata).WellKeyed ∧ ∀ version,
        (abortOperation.perform (f (s.metadata.setCurrentVersion version))).withoutMaximumIds =
          (s.metadata.setCurrentVersion version).withoutMaximumIds) :
    ∃ t, s.edit kind abortOperation f = some t ∧ t.Inv m := by
  rw [VersionChange.edit]
  by_cases hreg : s.registered = true
  · rw [if_pos hreg]
    have haborted : s.aborted = false := by
      by_contra haborted
      rw [(h.aborted (eq_true_of_ne_false haborted)).2.1] at hreg
      cases hreg
    let tag := s.abortOperations.length
    let event : Event := .scheduleTask .normalTask ⟨kind, tag⟩ (some ⟨tag⟩)
    obtain ⟨transaction, calls, hstep, hset, hinv⟩ :=
      step_succeeds (e := event) h.transaction trivial trivial
    have hd := dispatch_of_step hstep
    have hcalls : (∀ c ∈ calls, c.Plain) ∧
        (∀ task ∈ transaction.backend.abortTaskQueue, task.tag < tag + 1) ∧
        (transaction.backend.state ≠ .finished → s.transaction.backend.state ≠ .finished ∧
          transaction.backend.abortTaskQueue = ⟨tag⟩ :: s.transaction.backend.abortTaskQueue) := by
      by_cases hfin : s.transaction.backend.state = .finished
      · have hsilent := TransactionBackend.scheduleTask_finished .normalTask ⟨kind, tag⟩
          (some ⟨tag⟩) hfin
        obtain ⟨hbackend, rfl⟩ := Prod.mk.inj (Option.some.inj (hsilent.symm.trans hd))
        refine ⟨nofun, ?_, fun hne => absurd (hset.stays hfin) hne⟩
        rw [← hbackend]
        exact fun task htask => Nat.lt_succ_of_lt (h.tag_lt task htask)
      · have hplain := plain_scheduleTask hfin hd
        have hqueue := hplain.abortTaskQueue_eq
        refine ⟨hplain.plain, ?_, fun _ => ⟨hfin, hqueue⟩⟩
        rw [hqueue]
        intro task htask
        rcases mem_cons.mp htask with rfl | htask
        · exact Nat.lt_succ_self tag
        · exact Nat.lt_succ_of_lt (h.tag_lt task htask)
    obtain ⟨hplain, htags, hactive⟩ := hcalls
    refine ⟨{ s with
      transaction := transaction
      abortOperations := s.abortOperations ++ [abortOperation]
      metadata := f s.metadata }, ?_, ?_⟩
    · rw [scheduleTask, VersionChange.happen, hstep]
      simp only [map_some]
      rw [foldl_receive_plain _ hplain]
    · exact
        { transaction := hinv
          tag_lt := by
            intro task htask
            rw [length_append]
            exact htags task htask
          wellKeyed := fun hne => (hundo hreg (h.wellKeyed (hactive hne).1)).1
          restorable := by
            intro hne version
            obtain ⟨hback, hqueue⟩ := hactive hne
            have hold : s.transaction.backend.abortTaskQueue.filterMap
                (fun task => (s.abortOperations ++ [abortOperation])[task.tag]?) = s.abortLog := by
              apply filterMap_congr
              intro task htask
              exact getElem?_append_left (h.tag_lt task htask)
            have hnew : (s.abortOperations ++ [abortOperation])[tag]? = some abortOperation :=
              getElem?_concat_length
            rw [abortLog, hqueue, filterMap_cons, hnew, hold]
            rw [hvers, respects.push s.abortLog
              ((hundo hreg (h.wellKeyed hback)).2 version)]
            exact h.restorable hback version
          not_aborted := fun _ => haborted
          aborted := fun htrue => nomatch haborted.symm.trans htrue }
  · rw [if_neg hreg]
    exact ⟨s, rfl, h⟩

theorem Inv.createObjectStore {objectStoreId : ℤ} (name : String)
    (keyPath : KeyPath) (autoIncrement : Bool)
    (hfresh : s.registered = true → s.metadata.objectStores objectStoreId = none) :
    ∃ t, s.createObjectStore objectStoreId name keyPath autoIncrement = some t ∧ t.Inv m := by
  unfold VersionChange.createObjectStore
  apply h.edit
  · exact fun _ => rfl
  · intro hreg hkeyed
    refine ⟨?_, fun version => ?_⟩
    · apply hkeyed.update rfl
      rintro _ ⟨⟩
      exact ⟨rfl, nofun⟩
    · have hnone : (s.metadata.setCurrentVersion version).objectStores objectStoreId = none :=
        hfresh hreg
      apply removeObjectStore_addObjectStore
      exact hnone

theorem Inv.deleteObjectStore {objectStoreId : ℤ}
    (hexists : s.registered = true → (s.metadata.objectStores objectStoreId).isSome) :
    ∃ t, s.deleteObjectStore objectStoreId = some t ∧ t.Inv m := by
  apply h.edit
  · exact fun _ => rfl
  · intro hreg hkeyed
    obtain ⟨objectStore, hstore⟩ := isSome_iff_exists.mp (hexists hreg)
    have hid := hkeyed.objectStore objectStoreId objectStore hstore
    subst hid
    refine ⟨hkeyed.update rfl nofun, fun version => ?_⟩
    rw [getObjectStore_eq hstore, perform, addObjectStore_removeObjectStore
        (m := s.metadata.setCurrentVersion version) hstore]

theorem Inv.createIndex {objectStoreId indexId : ℤ} (name : String)
    (keyPath : KeyPath) (unique multiEntry : Bool)
    (hfresh : s.registered = true → ∃ objectStore,
      s.metadata.objectStores objectStoreId = some objectStore ∧
        objectStore.indexes indexId = none) :
    ∃ t, s.createIndex objectStoreId indexId name keyPath unique multiEntry = some t ∧ t.Inv m := by
  unfold VersionChange.createIndex
  apply h.edit
  · exact fun _ => rfl
  · intro hreg hkeyed
    obtain ⟨objectStore, hstore, hindex⟩ := hfresh hreg
    refine ⟨?_, fun version => ?_⟩
    · apply hkeyed.update_index hstore rfl
      · rw [getObjectStore_eq hstore]
      · rw [getObjectStore_eq hstore]
      · rintro _ ⟨⟩
        rfl
    · exact removeIndex_addIndex (m := s.metadata.setCurrentVersion version) hstore hindex indexId

theorem Inv.deleteIndex {objectStoreId indexId : ℤ}
    (hexists : s.registered = true → ∃ objectStore,
      s.metadata.objectStores objectStoreId = some objectStore ∧
        (objectStore.indexes indexId).isSome) :
    ∃ t, s.deleteIndex objectStoreId indexId = some t ∧ t.Inv m := by
  unfold VersionChange.deleteIndex
  apply h.edit
  · exact fun _ => rfl
  · intro hreg hkeyed
    obtain ⟨objectStore, hstore, hsome⟩ := hexists hreg
    obtain ⟨index, hindex⟩ := isSome_iff_exists.mp hsome
    have hid := hkeyed.index objectStoreId objectStore indexId index hstore hindex
    subst hid
    refine ⟨?_, fun version => ?_⟩
    · apply hkeyed.update_index hstore rfl
      · rw [getObjectStore_eq hstore]
      · rw [getObjectStore_eq hstore]
      · nofun
    · rw [getObjectStore_eq hstore, hindex]
      exact addIndex_removeIndex (m := s.metadata.setCurrentVersion version) hstore hindex

theorem Inv.step {e : VersionChangeEvent} (he : s.Enabled e) (hintime : s.InTime e) :
    ∃ t, s.step e = some t ∧ t.Inv m := by
  cases e with
  | createObjectStore objectStoreId name keyPath autoIncrement =>
    exact h.createObjectStore name keyPath autoIncrement he
  | deleteObjectStore objectStoreId => exact h.deleteObjectStore he
  | createIndex objectStoreId indexId name keyPath unique multiEntry =>
    exact h.createIndex name keyPath unique multiEntry he
  | deleteIndex objectStoreId indexId => exact h.deleteIndex he
  | transaction e => exact h.happen he hintime

end

theorem inv_create (hkeyed : m.WellKeyed) {requestedVersion : ℕ}
    (h : create m requestedVersion = some s) : s.Inv m := by
  cases h
  exact
    { transaction := ⟨nofun, nofun⟩
      tag_lt := by
        intro task htask
        rw [mem_singleton.mp htask]
        exact Nat.zero_lt_one
      wellKeyed := fun _ => hkeyed
      restorable := fun _ _ => rfl
      not_aborted := fun _ => rfl
      aborted := nofun }

/-- The metadata are what they were, apart from the maximum ids. -/
structure Restored (m : DatabaseMetadata) (s : VersionChange) : Prop where
  version_eq : s.metadata.version = m.version
  objectStores_eq : ∀ id, (s.metadata.objectStores id).map ObjectStoreMetadata.withoutMaximumId =
    (m.objectStores id).map ObjectStoreMetadata.withoutMaximumId

variable {s₀ : VersionChange} {requestedVersion : ℕ} {events : List VersionChangeEvent}

/-- In every run whose replies come in time, an aborted version change has restored the metadata,
and what may happen next does not use the released `m_database`. -/
theorem abort_restores_metadata (hkeyed : m.WellKeyed)
    (hcreate : create m requestedVersion = some s₀) (hrun : Run (guarded Step InTime) s₀ events s) :
    (s.aborted = true → s.Restored m) ∧ ∀ e, s.Enabled e → s.InTime e → (s.step e).isSome := by
  have h : s.Inv m := by
    refine hrun.preserves (I := fun s => s.Inv m) ?_ (inv_create hkeyed hcreate)
    intro s e t h ⟨hintime, henabled, hstep⟩
    obtain ⟨t', heq, ht'⟩ := h.step henabled hintime
    rw [← some.inj (heq.symm.trans hstep)]
    exact ht'
  refine ⟨fun haborted => ?_, fun e he hintime => ?_⟩
  · have hmetadata := (h.aborted haborted).2.2
    have hversion := congrArg version hmetadata
    have hstores := congrArg objectStores hmetadata
    exact ⟨hversion, fun id => congrFun hstores id⟩
  · obtain ⟨t, heq, -⟩ := h.step he hintime
    rw [heq]
    rfl

/-- A database of version 1 without object stores. -/
def emptyMetadata : DatabaseMetadata where
  name := "library"
  id := 1
  version := 1
  maxObjectStoreId := 0
  objectStores := fun _ => none

theorem wellKeyed_emptyMetadata : emptyMetadata.WellKeyed := ⟨nofun, nofun⟩

/-- The version change is performed, an object store is created, and the transaction is aborted. -/
theorem abort_restores_metadata_createObjectStore :
    ∃ s : VersionChange, s.aborted = true ∧ s.Restored emptyMetadata := by
  obtain ⟨s₀, hcreate⟩ : ∃ s₀, create emptyMetadata 2 = some s₀ := ⟨_, rfl⟩
  have hrun : ∃ s, Run (guarded Step InTime) s₀
      [.transaction (.openTransactionReply true), .transaction .coordinatorRun,
        .transaction .taskTimer, .transaction (.taskReply ⟨.versionChange, 0⟩ true),
        .createObjectStore 1 "books" .null true, .transaction .abort] s ∧ s.aborted = true := by
    cases hcreate
    refine ⟨_, .cons ⟨⟨?_, nofun⟩, ⟨?_, trivial⟩, rfl⟩ (.cons ⟨⟨trivial, nofun⟩, ⟨?_, trivial⟩, rfl⟩
      (.cons ⟨⟨trivial, nofun⟩, ⟨?_, trivial⟩, rfl⟩ (.cons ⟨⟨?_, nofun⟩, ⟨?_, trivial⟩, rfl⟩
      (.cons ⟨trivial, ?_, rfl⟩ (.cons ⟨⟨trivial, nofun⟩, ⟨trivial, trivial⟩, rfl⟩ (.nil _)))))), rfl⟩
    · nofun
    · rfl
    · rfl
    · rfl
    · exact fun _ => rfl
    · exact mem_cons_self
    · exact fun _ => rfl
  obtain ⟨s, hrun, haborted⟩ := hrun
  exact ⟨s, haborted, (abort_restores_metadata wellKeyed_emptyMetadata hcreate hrun).1 haborted⟩

theorem not_isSome_late_reply : ∃ s₀ s : VersionChange, create emptyMetadata 2 = some s₀ ∧
      Run Step s₀ [.transaction (.openTransactionReply true), .transaction .coordinatorRun,
        .transaction .taskTimer, .transaction .abort] s ∧
      s.Enabled (.transaction (.taskReply ⟨.versionChange, 0⟩ true)) ∧
      s.step (.transaction (.taskReply ⟨.versionChange, 0⟩ true)) = none := by
  refine ⟨_, _, rfl, .cons ⟨⟨?_, trivial⟩, rfl⟩ (.cons ⟨⟨?_, trivial⟩, rfl⟩
    (.cons ⟨⟨?_, trivial⟩, rfl⟩ (.cons ⟨⟨trivial, trivial⟩, rfl⟩ (.nil _)))), ⟨?_, trivial⟩, rfl⟩
  · rfl
  · rfl
  · rfl
  · exact mem_cons_self

theorem version_of_failed_commit : ∃ s₀ s : VersionChange, create emptyMetadata 2 = some s₀ ∧
      Run Step s₀ [.transaction (.openTransactionReply true), .transaction .coordinatorRun,
        .transaction .taskTimer, .transaction (.taskReply ⟨.versionChange, 0⟩ true),
        .transaction .commit, .transaction (.commitTransactionReply false false)] s ∧
      s.aborted = true ∧ s.metadata.version = 2 := by
  refine ⟨_, _, rfl, .cons ⟨⟨?_, trivial⟩, rfl⟩ (.cons ⟨⟨?_, trivial⟩, rfl⟩
    (.cons ⟨⟨?_, trivial⟩, rfl⟩ (.cons ⟨⟨?_, trivial⟩, rfl⟩ (.cons ⟨⟨trivial, trivial⟩, rfl⟩
    (.cons ⟨⟨?_, trivial⟩, rfl⟩ (.nil _)))))), rfl, rfl⟩
  · rfl
  · rfl
  · rfl
  · exact mem_cons_self
  · exact mem_cons_self

/-- A late reply uses the released `m_database`, and a failed commit leaves the new version. -/
theorem not_abort_restores_metadata :
    ¬ (∀ (s₀ s : VersionChange) (events : List VersionChangeEvent),
      create emptyMetadata 2 = some s₀ → Run Step s₀ events s →
        ∀ e, s.Enabled e → (s.step e).isSome) ∧
    ¬ (∀ (s₀ s : VersionChange) (events : List VersionChangeEvent),
      create emptyMetadata 2 = some s₀ → Run Step s₀ events s → s.aborted = true →
        s.Restored emptyMetadata) := by
  constructor
  · intro h
    obtain ⟨s₀, s, hcreate, hrun, henabled, hnone⟩ := not_isSome_late_reply
    have hsome := h s₀ s _ hcreate hrun _ henabled
    rw [hnone] at hsome
    cases hsome
  · intro h
    obtain ⟨s₀, s, hcreate, hrun, haborted, hversion⟩ := version_of_failed_commit
    have hrestored := (h s₀ s _ hcreate hrun haborted).version_eq
    rw [hversion] at hrestored
    cases hrestored

end VersionChange

end WebKit.IndexedDB
