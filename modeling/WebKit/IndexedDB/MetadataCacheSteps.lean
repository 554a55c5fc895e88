import WebKit.IndexedDB.MetadataCache
import WebKit.IndexedDB.TransactionCleanupRun

/-!
# What keeps the cached metadata right

For every part of the metadata, either the requests that wait for the database thread explain
the cache, or one request has failed, and taking its edit back gives what is stored (`PartKept`).
Most functions of the database only queue other tasks (`Frames`).
-/

namespace WebKit.IndexedDB

open DatabaseMetadata List DatabaseTask Prod

variable {operation : DatabaseOperation}

namespace DatabaseTask

def request : DatabaseTask → Option (ℕ × DatabaseOperation)
  | .operation requestID databaseOperation => some (requestID, databaseOperation)
  | _ => none

/-- The requests about a part of the metadata. -/
def queuedAt (part : SchemaPart) (tasks : List DatabaseTask) : List (ℕ × DatabaseOperation) :=
  (tasks.filterMap request).filter fun request => request.2.part = some part

variable {part : SchemaPart} {tasks tasks' : List DatabaseTask} {task : DatabaseTask}

theorem queuedAt_append :
    queuedAt part (tasks ++ tasks') = queuedAt part tasks ++ queuedAt part tasks' := by
  unfold queuedAt
  rw [filterMap_append, filter_append]

theorem request_eq_none (h : task.requestIDs = []) : task.request = none := by
  cases task with
  | operation requestID operation => cases h
  | _ => rfl

theorem queuedAt_eq_nil (h : ∀ task ∈ tasks, task.requestIDs = []) : queuedAt part tasks = [] := by
  have hnone : tasks.filterMap request = [] := by
    rw [filterMap_eq_nil_iff]
    exact fun task htask => request_eq_none (h task htask)
  unfold queuedAt
  rw [hnone]
  rfl

theorem mem_queuedAt {requestID : ℕ} : (requestID, operation) ∈ queuedAt part tasks ↔
      .operation requestID operation ∈ tasks ∧ operation.part = some part := by
  unfold queuedAt
  rw [mem_filter, mem_filterMap]
  constructor
  · rintro ⟨⟨task, hmem, hreq⟩, hpart⟩
    cases task with
    | operation requestID' operation' =>
      cases hreq
      exact ⟨hmem, of_decide_eq_true hpart⟩
    | _ => cases hreq
  · rintro ⟨hmem, hpart⟩
    exact ⟨⟨_, hmem, rfl⟩, decide_eq_true hpart⟩

end DatabaseTask

open DatabaseTask (queuedAt)

def MainThreadTask.isOpen : MainThreadTask → Bool
  | .didOpenBackingStoreAndReadMetadata _ => true
  | _ => false

namespace UniqueIDBDatabase

variable {s t u : UniqueIDBDatabase} {transaction : IDBIdentifier}

/-! ## Functions that only queue other tasks -/

/-- Requests and the metadata are the same; tasks without a request may be queued. -/
structure Frame (s t : UniqueIDBDatabase) : Prop where
  accepting : s.acceptingNewRequests = true
  metadata : t.metadata = s.metadata
  pending : t.pendingDatabaseTasks = s.pendingDatabaseTasks
  completing : t.completing = s.completing
  next : s.nextRequestID ≤ t.nextRequestID
  inMemory : t.inMemory = s.inMemory
  queued : ∃ extra, t.databaseTasks = s.databaseTasks ++ extra ∧
    ∀ task ∈ extra, task.requestIDs = [] ∧ task.isShutdown = false

def Frames (s t : UniqueIDBDatabase) : Prop := t.acceptingNewRequests = true → Frame s t

namespace Frames

theorem of_same (hacc : t.acceptingNewRequests = s.acceptingNewRequests)
    (hmeta : t.metadata = s.metadata)
    (hpend : t.pendingDatabaseTasks = s.pendingDatabaseTasks)
    (hcomp : t.completing = s.completing) (hnext : s.nextRequestID ≤ t.nextRequestID)
    (hinMemory : t.inMemory = s.inMemory) (hdb : t.databaseTasks = s.databaseTasks) :
    Frames s t :=
  fun h => ⟨hacc ▸ h, hmeta, hpend, hcomp, hnext, hinMemory, [], by rw [hdb, append_nil], nofun⟩

theorem refl (s : UniqueIDBDatabase) : Frames s s := of_same rfl rfl rfl rfl le_rfl rfl rfl

theorem of_not_accepting (h : t.acceptingNewRequests = false) : Frames s t := by
  intro hacc
  rw [h] at hacc
  cases hacc

theorem trans (h : Frames s t) (h' : Frames t u) : Frames s u := by
  intro hacc
  have hu := h' hacc
  have ht := h hu.accepting
  obtain ⟨extra, hdb, hextra⟩ := ht.queued
  obtain ⟨extra', hdb', hextra'⟩ := hu.queued
  refine ⟨ht.accepting, hu.metadata.trans ht.metadata, hu.pending.trans ht.pending,
    hu.completing.trans ht.completing, ht.next.trans hu.next, hu.inMemory.trans ht.inMemory,
    extra ++ extra', ?_, ?_⟩
  · rw [hdb', hdb, append_assoc]
  · intro task htask
    rcases mem_append.mp htask with hmem | hmem
    · exact hextra task hmem
    · exact hextra' task hmem

theorem postTransactionOperation {operation : TransactionOperation}
    {callback : TransactionCallback} {refused : UniqueIDBDatabase → UniqueIDBDatabase}
    (href : Frames s (refused s)) :
    Frames s (s.postTransactionOperation transaction operation callback refused) := by
  unfold UniqueIDBDatabase.postTransactionOperation
  split
  · exact href
  split
  · exact href
  rename_i hacc hpend
  have hacc : s.acceptingNewRequests = true := by simpa using hacc
  rw [postDatabaseTask_eq hacc]
  intro _
  refine ⟨hacc, rfl, rfl, rfl, le_rfl, rfl, [.transactionOperation transaction operation], rfl, ?_⟩
  intro task htask
  rw [mem_singleton.mp htask]
  exact ⟨rfl, rfl⟩

section

variable (s : UniqueIDBDatabase)

theorem didResetCallback : Frames s s.didResetCallback := by
  unfold UniqueIDBDatabase.didResetCallback
  split
  · exact of_not_accepting (shutdown_not_accepting _)
  · exact refl s

section

variable (transaction : IDBIdentifier)

theorem didRollbackCallback :
    Frames s (s.didRollbackCallback transaction) := by
  unfold UniqueIDBDatabase.didRollbackCallback
  split
  · exact refl s
  · refine trans ?_ (postTransactionOperation (didResetCallback _))
    exact of_same rfl rfl rfl rfl le_rfl rfl rfl

theorem finalizeRollback :
    Frames s (s.finalizeRollback transaction) :=
  postTransactionOperation (didRollbackCallback s transaction)

theorem callTransactionCallback (callback : TransactionCallback) (result : Answer) :
    Frames s (s.callTransactionCallback transaction callback result) := by
  cases callback with
  | client requestID => exact of_same rfl rfl rfl rfl le_rfl rfl rfl
  | didRollback => exact didRollbackCallback s transaction
  | didReset => exact didResetCallback s

end

theorem resetTransactions (transactions : List IDBIdentifier) :
    Frames s (s.resetTransactions transactions) := by
  induction transactions generalizing s with
  | nil => exact refl s
  | cons transaction transactions ih =>
    refine trans ?_ (ih _)
    have hadded : Frames s (s.addPendingTransactionRollback transaction) :=
      of_same rfl rfl rfl rfl le_rfl rfl rfl
    simp only
    split
    · exact hadded
    · exact hadded.trans (finalizeRollback _ transaction)

theorem unregisterConnection (connection : ℕ) : Frames s (s.unregisterConnection connection) := by
  have hreset : Frames s (s.resetAllTransactions connection) := by
    unfold resetAllTransactions
    split
    · exact refl s
    · exact resetTransactions s _
  unfold UniqueIDBDatabase.unregisterConnection
  simp only
  split
  · exact of_not_accepting (shutdown_not_accepting _)
  · exact hreset.trans (of_same rfl rfl rfl rfl le_rfl rfl rfl)

theorem getOrEstablishIDBDatabaseMetadata (requestID : ℕ) :
    Frames s (s.getOrEstablishIDBDatabaseMetadata requestID) := by
  unfold UniqueIDBDatabase.getOrEstablishIDBDatabaseMetadata
  split
  · exact of_same rfl rfl rfl rfl le_rfl rfl rfl
  rename_i hacc
  have hacc : s.acceptingNewRequests = true := by simpa using hacc
  split
  · exact of_same rfl rfl rfl rfl le_rfl rfl rfl
  simp only
  split
  · rw [postDatabaseTask_eq]
    · intro _
      refine ⟨hacc, rfl, rfl, rfl, le_rfl, rfl, [.openBackingStoreAndReadMetadata], rfl, ?_⟩
      intro task htask
      rw [mem_singleton.mp htask]
      exact ⟨rfl, rfl⟩
    · exact hacc
  · exact of_same rfl rfl rfl rfl le_rfl rfl rfl

theorem transactionOperation (requestID : ℕ) (transaction : IDBIdentifier)
    (operation : TransactionOperation) :
    Frames s (s.transactionOperation requestID transaction operation) :=
  postTransactionOperation (of_same rfl rfl rfl rfl le_rfl rfl rfl)

theorem deleteDatabase (requestID : ℕ) : Frames s (s.deleteDatabase requestID) := by
  unfold UniqueIDBDatabase.deleteDatabase
  split
  · exact of_same rfl rfl rfl rfl le_rfl rfl rfl
  · exact of_not_accepting (shutdown_not_accepting _)

theorem didCompleteTransactionOperation (transaction : IDBIdentifier)
    (success : Bool) : Frames s (s.didCompleteTransactionOperation transaction success) := by
  have hcontinued : ∀ called : UniqueIDBDatabase, Frames s called →
      Frames s (if transaction ∈ called.pendingTransactionRollbacks
        then called.finalizeRollback transaction else called) := by
    intro called h
    split
    · exact h.trans (finalizeRollback called transaction)
    · exact h
  apply hcontinued
  split
  · exact of_same rfl rfl rfl rfl le_rfl rfl rfl
  · refine trans ?_ (callTransactionCallback _ transaction _ _)
    exact of_same rfl rfl rfl rfl le_rfl rfl rfl

end

end Frames

/-! ## Requests -/

/-- A request about the part has failed, and its completion is on the way. -/
def FailedAt (part : SchemaPart) (s : UniqueIDBDatabase) (requestID : ℕ) : Prop :=
  ∃ undo : MetadataUndo, (requestID, undo) ∈ s.pendingDatabaseTasks ∧ undo.part = some part ∧
    .didCompleteRequest requestID false ∈ s.completing

structure Requests (s : UniqueIDBDatabase) : Prop where
  noShutdownQueued : ∀ task ∈ s.databaseTasks, task.isShutdown = false
  noShutdownCompleting : ∀ task ∈ s.completing, task.isShutdown = false
  pendingNodup : (s.pendingDatabaseTasks.map fst).Nodup
  pendingLt : ∀ id ∈ s.pendingDatabaseTasks.map fst, id < s.nextRequestID
  queuedNodup : (s.databaseTasks.flatMap DatabaseTask.requestIDs).Nodup
  queuedLt : ∀ id ∈ s.databaseTasks.flatMap DatabaseTask.requestIDs, id < s.nextRequestID
  completingLt : ∀ id ∈ s.completing.flatMap MainThreadTask.requestIDs, id < s.nextRequestID
  disjoint : ∀ id ∈ s.databaseTasks.flatMap DatabaseTask.requestIDs,
    id ∉ s.completing.flatMap MainThreadTask.requestIDs
  queuedUndo : ∀ id operation, .operation id operation ∈ s.databaseTasks →
    ∃ undo, (id, undo) ∈ s.pendingDatabaseTasks ∧ undo.part = operation.part
  onceEach : ∀ id undo, (id, undo) ∈ s.pendingDatabaseTasks →
    .didCompleteRequest id true ∈ s.completing → .didCompleteRequest id false ∈ s.completing →
      undo.part = none

/-- How a part of the cache relates to what is stored. -/
inductive PartKept (part : SchemaPart) (s : UniqueIDBDatabase) (c m : DatabaseMetadata) : Prop
  | explained (failed : ∀ id, ¬ FailedAt part s id)
      (explains : Explains part s.pendingDatabaseTasks c (queuedAt part s.databaseTasks) m)
  | failed (requestID : ℕ) (undo : MetadataUndo)
      (pending : (requestID, undo) ∈ s.pendingDatabaseTasks) (about : undo.part = some part)
      (completing : .didCompleteRequest requestID false ∈ s.completing)
      (only : ∀ id, FailedAt part s id → id = requestID)
      (queued : queuedAt part s.databaseTasks = []) (agree : AgreeAt part (m.undo undo) c)

variable {id : ℕ}

theorem Requests.undo_unique (h : s.Requests) {undo undo' : MetadataUndo}
    (hmem : (id, undo) ∈ s.pendingDatabaseTasks) (hmem' : (id, undo') ∈ s.pendingDatabaseTasks) :
    undo = undo' := by
  have heq := inj_on_of_nodup_map h.pendingNodup hmem hmem' rfl
  cases heq
  rfl

theorem mem_requestIDs_of_operation {tasks : List DatabaseTask} (h : .operation id operation ∈ tasks) :
    id ∈ tasks.flatMap DatabaseTask.requestIDs :=
  mem_flatMap.mpr ⟨_, h, mem_singleton_self _⟩

variable {tasks : List MainThreadTask}

theorem mem_requestIDs_of_completion {success : Bool} (h : .didCompleteRequest id success ∈ tasks) :
    id ∈ tasks.flatMap MainThreadTask.requestIDs :=
  mem_flatMap.mpr ⟨_, h, mem_singleton_self _⟩

theorem mem_completion_of_requestIDs (h : id ∈ tasks.flatMap MainThreadTask.requestIDs) :
    ∃ success, .didCompleteRequest id success ∈ tasks := by
  obtain ⟨task, hmem, hid⟩ := mem_flatMap.mp h
  cases task with
  | didCompleteRequest id' success =>
    cases mem_singleton.mp hid
    exact ⟨success, hmem⟩
  | _ => cases hid

theorem Frame.failedAt (h : Frame s t) {part : SchemaPart} :
    FailedAt part t id ↔ FailedAt part s id := by
  unfold FailedAt
  rw [h.pending, h.completing]

theorem Frame.requests (h : Frame s t) (hs : s.Requests) : t.Requests := by
  obtain ⟨extra, hdb, hextra⟩ := h.queued
  have hnone : extra.flatMap DatabaseTask.requestIDs = [] := by
    rw [flatMap_eq_nil_iff]
    exact fun task htask => (hextra task htask).1
  have hids : t.databaseTasks.flatMap DatabaseTask.requestIDs =
      s.databaseTasks.flatMap DatabaseTask.requestIDs := by
    rw [hdb, flatMap_append, hnone, append_nil]
  constructor
  case noShutdownQueued =>
    rw [hdb]
    intro task htask
    rcases mem_append.mp htask with hold | hnew
    · exact hs.noShutdownQueued task hold
    · exact (hextra task hnew).2
  case noShutdownCompleting => exact h.completing ▸ hs.noShutdownCompleting
  case pendingNodup => exact h.pending ▸ hs.pendingNodup
  case pendingLt =>
    rw [h.pending]
    exact fun id hid => (hs.pendingLt id hid).trans_le h.next
  case queuedNodup => exact hids ▸ hs.queuedNodup
  case queuedLt =>
    rw [hids]
    exact fun id hid => (hs.queuedLt id hid).trans_le h.next
  case completingLt =>
    rw [h.completing]
    exact fun id hid => (hs.completingLt id hid).trans_le h.next
  case disjoint =>
    rw [hids, h.completing]
    exact hs.disjoint
  case queuedUndo =>
    rw [hdb, h.pending]
    intro id operation hmem
    rcases mem_append.mp hmem with hold | hnew
    · exact hs.queuedUndo id operation hold
    · cases (hextra _ hnew).1
  case onceEach =>
    rw [h.pending, h.completing]
    exact hs.onceEach

theorem Frame.queuedAt (h : Frame s t) (part : SchemaPart) :
    queuedAt part t.databaseTasks = queuedAt part s.databaseTasks := by
  obtain ⟨extra, hdb, hextra⟩ := h.queued
  rw [hdb, queuedAt_append, queuedAt_eq_nil fun task htask => (hextra task htask).1, append_nil]

theorem PartKept.congr {part : SchemaPart} {c m : DatabaseMetadata} (hkept : PartKept part s c m)
    (hfailed : ∀ id, FailedAt part t id ↔ FailedAt part s id)
    (hpend : t.pendingDatabaseTasks = s.pendingDatabaseTasks)
    (hqueued : queuedAt part t.databaseTasks =
      queuedAt part s.databaseTasks) : PartKept part t c m := by
  cases hkept with
  | explained failed explains =>
    refine .explained (fun id hid => failed id ((hfailed id).mp hid)) ?_
    rw [hpend, hqueued]
    exact explains
  | failed requestID undo pending about completing only queued agree =>
    obtain ⟨-, -, -, hcomp⟩ := (hfailed requestID).mpr ⟨undo, pending, about, completing⟩
    exact .failed requestID undo (hpend ▸ pending) about hcomp
      (fun id hid => only id ((hfailed id).mp hid)) (hqueued.trans queued) agree

theorem Frame.partKept (h : Frame s t) {part : SchemaPart} {c m : DatabaseMetadata}
    (hs : PartKept part s c m) : PartKept part t c m :=
  hs.congr (fun _ => h.failedAt) h.pending (h.queuedAt part)

theorem completing_perform {tasks : List DatabaseTask}
    {completions : List (MainThreadTask × DatabaseTaskType)} (hpost : s.posting = []) :
    completing { s with databaseTasks := tasks, posting := completions } =
      s.completing ++ completions.map fst := by
  unfold completing
  rw [hpost]
  simp

theorem completing_pop {task : MainThreadTask} (hmain : s.mainThreadTasks = task :: tasks) :
    s.completing = task :: completing { s with mainThreadTasks := tasks } := by
  unfold completing
  rw [hmain]
  rfl

variable {metadata : Option DatabaseMetadata} {task : DatabaseTask}

/-- A task reports on its own request, and a schema operation reports once. -/
theorem of_mem_completions {inMemory success result : Bool}
    (h : .didCompleteRequest id result ∈ (task.completions inMemory success metadata).map fst) :
    ∃ operation, task = .operation id operation ∧ (operation.part ≠ none → result = success) := by
  cases task with
  | openBackingStoreAndReadMetadata => cases inMemory <;> simp [completions] at h
  | transactionOperation transaction operation =>
    cases operation <;> simp [completions] at h
  | operation requestID operation =>
    cases operation
    case count | deleteRange =>
      have hid : id = requestID := by
        cases success
        · rcases mem_cons.mp h with heq | hrest
          · cases heq
            rfl
          · cases mem_singleton.mp hrest
            rfl
        · cases mem_singleton.mp h
          rfl
      rw [hid]
      exact ⟨_, rfl, fun hpart => absurd rfl hpart⟩
    all_goals
      simp only [completions, map_cons, map_nil, mem_singleton,
        MainThreadTask.didCompleteRequest.injEq] at h
      obtain ⟨rfl, rfl⟩ := h
      exact ⟨_, rfl, fun _ => rfl⟩
  | shutdownBackingStore type => simp [completions] at h

theorem mem_requestIDs_of_completions {inMemory success : Bool}
    (h : id ∈ ((task.completions inMemory success metadata).map Prod.fst).flatMap
      MainThreadTask.requestIDs) : id ∈ task.requestIDs := by
  obtain ⟨result, hmem⟩ := mem_completion_of_requestIDs h
  obtain ⟨operation, rfl, -⟩ := of_mem_completions hmem
  exact mem_singleton_self _

theorem Requests.perform (h : s.Requests) {tasks : List DatabaseTask}
    (hpost : s.posting = []) (hdb : s.databaseTasks = task :: tasks) (success : Bool)
    (metadata : Option DatabaseMetadata) :
    Requests { s with
      databaseTasks := tasks
      posting := task.completions s.inMemory success metadata } := by
  have hids : s.databaseTasks.flatMap DatabaseTask.requestIDs =
      task.requestIDs ++ tasks.flatMap DatabaseTask.requestIDs := by
    rw [hdb, flatMap_cons]
  have hnodup := h.queuedNodup
  rw [hids] at hnodup
  constructor
  case noShutdownQueued =>
    exact fun other hother => h.noShutdownQueued other (hdb ▸ mem_cons_of_mem _ hother)
  case noShutdownCompleting =>
    rw [completing_perform hpost]
    intro other hother
    rcases mem_append.mp hother with hold | hnew
    · exact h.noShutdownCompleting other hold
    · obtain ⟨p, hp, rfl⟩ := mem_map.mp hnew
      have htask := h.noShutdownQueued task (hdb ▸ mem_cons_self ..)
      exact (DatabaseTask.normal_completions htask p hp).2
  case pendingNodup => exact h.pendingNodup
  case pendingLt => exact h.pendingLt
  case queuedNodup => exact (nodup_append.mp hnodup).2.1
  case queuedLt =>
    intro id hid
    apply h.queuedLt
    rw [hids]
    exact mem_append_right _ hid
  case completingLt =>
    rw [completing_perform hpost, flatMap_append]
    intro id hid
    rcases mem_append.mp hid with hold | hnew
    · exact h.completingLt id hold
    · apply h.queuedLt
      rw [hids]
      exact mem_append_left _ (mem_requestIDs_of_completions hnew)
  case disjoint =>
    rw [completing_perform hpost, flatMap_append]
    intro id hid hcomp
    rcases mem_append.mp hcomp with hold | hnew
    · exact h.disjoint id (hids ▸ mem_append_right _ hid) hold
    · exact disjoint_of_nodup_append hnodup (mem_requestIDs_of_completions hnew) hid
  case queuedUndo =>
    exact fun id operation hmem =>
      h.queuedUndo id operation (hdb ▸ mem_cons_of_mem _ hmem)
  case onceEach =>
    rw [completing_perform hpost]
    intro id undo hpend htrue hfalse
    -- a request that has completed has no task
    have hnot : ∀ success' : Bool, .didCompleteRequest id success' ∈ s.completing →
        ∀ operation, task ≠ .operation id operation := by
      rintro success' hold operation rfl
      apply h.disjoint id _ (mem_requestIDs_of_completion hold)
      exact hids ▸ mem_append_left _ (mem_singleton_self _)
    rcases mem_append.mp htrue with holdTrue | hnewTrue
    · rcases mem_append.mp hfalse with holdFalse | hnewFalse
      · exact h.onceEach id undo hpend holdTrue holdFalse
      · obtain ⟨operation, heq, -⟩ := of_mem_completions hnewFalse
        exact absurd heq (hnot _ holdTrue operation)
    · obtain ⟨operation, rfl, hres⟩ := of_mem_completions hnewTrue
      rcases mem_append.mp hfalse with holdFalse | hnewFalse
      · exact absurd rfl (hnot _ holdFalse operation)
      · obtain ⟨operation', heq, hres'⟩ := of_mem_completions hnewFalse
        cases heq
        obtain ⟨undo', hpend', hpart⟩ := h.queuedUndo id operation (hdb ▸ mem_cons_self ..)
        rw [h.undo_unique hpend hpend', hpart]
        by_contra hne
        cases (hres hne).trans (hres' hne).symm

/-- Completions may arrive, and requests that have completed may go. -/
theorem Requests.shrink (h : s.Requests) (hdb : t.databaseTasks = s.databaseTasks)
    (hnext : t.nextRequestID = s.nextRequestID)
    (hcomp : ∀ task ∈ t.completing, task ∈ s.completing)
    (hpend : t.pendingDatabaseTasks.Sublist s.pendingDatabaseTasks)
    (hkept : ∀ id ∈ s.databaseTasks.flatMap DatabaseTask.requestIDs, ∀ undo,
      (id, undo) ∈ s.pendingDatabaseTasks → (id, undo) ∈ t.pendingDatabaseTasks) :
    t.Requests := by
  have hids : ∀ id ∈ t.completing.flatMap MainThreadTask.requestIDs,
      id ∈ s.completing.flatMap MainThreadTask.requestIDs := by
    intro id hid
    obtain ⟨success, hmem⟩ := mem_completion_of_requestIDs hid
    exact mem_requestIDs_of_completion (hcomp _ hmem)
  constructor
  case noShutdownQueued => exact hdb ▸ h.noShutdownQueued
  case noShutdownCompleting => exact fun task htask => h.noShutdownCompleting task (hcomp task htask)
  case pendingNodup => exact h.pendingNodup.sublist (hpend.map _)
  case pendingLt =>
    rw [hnext]
    exact fun id hid => h.pendingLt id ((hpend.map _).subset hid)
  case queuedNodup => exact hdb ▸ h.queuedNodup
  case queuedLt =>
    rw [hnext, hdb]
    exact h.queuedLt
  case completingLt =>
    rw [hnext]
    exact fun id hid => h.completingLt id (hids id hid)
  case disjoint =>
    rw [hdb]
    exact fun id hid hcomp => h.disjoint id hid (hids id hcomp)
  case queuedUndo =>
    rw [hdb]
    intro id operation hmem
    obtain ⟨undo, hundo, hpart⟩ := h.queuedUndo id operation hmem
    exact ⟨undo, hkept id (mem_requestIDs_of_operation hmem) undo hundo, hpart⟩
  case onceEach =>
    exact fun id undo hmem htrue hfalse =>
      h.onceEach id undo (hpend.subset hmem) (hcomp _ htrue) (hcomp _ hfalse)

theorem Requests.request (h : s.Requests) {undo : MetadataUndo} (hundo : undo.part = operation.part) :
    Requests { s with
      metadata := metadata
      pendingDatabaseTasks := s.pendingDatabaseTasks ++ [(s.nextRequestID, undo)]
      databaseTasks := s.databaseTasks ++ [.operation s.nextRequestID operation]
      nextRequestID := s.nextRequestID + 1 } := by
  have hmap : ((s.pendingDatabaseTasks ++ [(s.nextRequestID, undo)]).map fst) =
      s.pendingDatabaseTasks.map fst ++ [s.nextRequestID] := map_append
  have hids : (s.databaseTasks ++ [DatabaseTask.operation s.nextRequestID operation]).flatMap
      DatabaseTask.requestIDs =
        s.databaseTasks.flatMap DatabaseTask.requestIDs ++ [s.nextRequestID] := flatMap_append
  have hlt : ∀ {ids : List ℕ}, (∀ id ∈ ids, id < s.nextRequestID) →
      ∀ id ∈ ids ++ [s.nextRequestID], id < s.nextRequestID + 1 := by
    intro ids hids id hid
    rcases mem_append.mp hid with hold | hnew
    · exact Nat.lt_succ_of_lt (hids id hold)
    · rw [mem_singleton.mp hnew]
      exact Nat.lt_succ_self _
  have hnodup : ∀ {ids : List ℕ}, ids.Nodup → (∀ id ∈ ids, id < s.nextRequestID) →
      (ids ++ [s.nextRequestID]).Nodup := by
    intro ids hnodup hids
    rw [← concat_eq_append]
    exact hnodup.concat fun hmem => (hids _ hmem).false
  constructor
  case noShutdownQueued =>
    intro task htask
    rcases mem_append.mp htask with hold | hnew
    · exact h.noShutdownQueued task hold
    · rw [mem_singleton.mp hnew]
      rfl
  case noShutdownCompleting => exact h.noShutdownCompleting
  case pendingNodup =>
    rw [hmap]
    exact hnodup h.pendingNodup h.pendingLt
  case pendingLt =>
    rw [hmap]
    exact hlt h.pendingLt
  case queuedNodup =>
    rw [hids]
    exact hnodup h.queuedNodup h.queuedLt
  case queuedLt =>
    rw [hids]
    exact hlt h.queuedLt
  case completingLt => exact fun id hid => Nat.lt_succ_of_lt (h.completingLt id hid)
  case disjoint =>
    rw [hids]
    intro id hid hcomp
    rcases mem_append.mp hid with hold | hnew
    · exact h.disjoint id hold hcomp
    · rw [mem_singleton.mp hnew] at hcomp
      exact (h.completingLt _ hcomp).false
  case queuedUndo =>
    intro id operation' hmem
    rcases mem_append.mp hmem with hold | hnew
    · obtain ⟨undo', hundo', hpart⟩ := h.queuedUndo id operation' hold
      exact ⟨undo', mem_append_left _ hundo', hpart⟩
    · cases mem_singleton.mp hnew
      exact ⟨undo, mem_append_right _ (mem_singleton_self _), hundo⟩
  case onceEach =>
    intro id undo' hmem htrue hfalse
    rcases mem_append.mp hmem with hold | hnew
    · exact h.onceEach id undo' hold htrue hfalse
    · cases mem_singleton.mp hnew
      exact absurd (h.completingLt _ (mem_requestIDs_of_completion htrue)) (lt_irrefl _)

end UniqueIDBDatabase

end WebKit.IndexedDB
