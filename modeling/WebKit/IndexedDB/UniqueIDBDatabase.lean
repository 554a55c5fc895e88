import WebKit.IndexedDB.BackingStore

/-!
# The database of the database process

`UniqueIDBDatabase`: a main thread that takes requests and a database thread that performs them
on the backing store, with a task queue each way. Requests wait in four collections until their
completion arrives, or until the database has shut down. This module leaves the backing store
open: a task of the database thread has any result.

A callback is known by a number, which is also the id of its request; the answers that
callbacks have received are recorded in `answers`. A completion that does not find its request
is recorded in `foundNull`.
-/

namespace WebKit.IndexedDB

open Function

/-- `IDBIdentifier`. -/
structure IDBIdentifier where
  connection : ℕ
  id : ℤ
  deriving DecidableEq

inductive ShutdownType
  | normalShutdown
  | deleteShutdown
  deriving DecidableEq

/-- The operations of `postTransactionOperation`. -/
inductive TransactionOperation
  | openTransaction (mode : TransactionMode)
  | beginTransaction
  | commitTransaction
  | resetTransaction
  | rollbackTransaction
  deriving DecidableEq

/-- The operations whose requests wait in `m_pendingDatabaseTasks`. -/
inductive DatabaseOperation
  | changeDatabaseVersion (transaction : IDBIdentifier) (newVersion : ℕ)
  | createObjectStore (transaction : IDBIdentifier) (metadata : ObjectStoreMetadata)
  | deleteObjectStore (transaction : IDBIdentifier) (objectStoreID : ℤ)
  | clearObjectStore (transaction : IDBIdentifier) (objectStoreID : ℤ)
  | createIndex (transaction : IDBIdentifier) (objectStoreID : ℤ) (metadata : IndexMetadata)
  | deleteIndex (transaction : IDBIdentifier) (objectStoreID indexID : ℤ)
  | putRecord (transaction : IDBIdentifier) (objectStoreID : ℤ)
  | getRecord (transaction : IDBIdentifier) (objectStoreID indexID : ℤ)
  | openCursor (transaction : IDBIdentifier) (objectStoreID indexID : ℤ)
  | cursorAdvance (cursor : IDBIdentifier)
  | cursorIterate (cursor : IDBIdentifier)
  | count (transaction : IDBIdentifier) (objectStoreID indexID : ℤ)
  | deleteRange (transaction : IDBIdentifier) (objectStoreID : ℤ)

inductive DatabaseTask
  | openBackingStoreAndReadMetadata
  | transactionOperation (transaction : IDBIdentifier) (operation : TransactionOperation)
  | operation (requestID : ℕ) (operation : DatabaseOperation)
  | shutdownBackingStore (type : ShutdownType)

inductive MainThreadTask
  | didOpenBackingStoreAndReadMetadata (metadata : Option DatabaseMetadata)
  | didEstablishTransaction (transaction : IDBIdentifier) (success : Bool)
  | didResetTransaction (transaction : IDBIdentifier) (success : Bool)
  | didCompleteTransactionOperation (transaction : IDBIdentifier) (success : Bool)
  /-- The completions that take their request from `m_pendingDatabaseTasks`. -/
  | didCompleteRequest (requestID : ℕ) (success : Bool)
  | didShutdownBackingStore (type : ShutdownType)

inductive DatabaseTaskType
  | normal
  | shutdown
  deriving DecidableEq

/-- The callbacks of transaction operations: of a client, or of `finalizeRollback`. -/
inductive TransactionCallback
  | client (requestID : ℕ)
  | didRollback
  | didReset

/-- How a request takes its edit of the metadata back. -/
inductive MetadataUndo
  | nothing
  | setVersion (oldVersion : ℕ)
  | removeObjectStore (objectStoreID : ℤ)
  | setObjectStore (metadata : ObjectStoreMetadata)
  | removeIndex (objectStoreID indexID : ℤ)
  | setIndex (objectStoreID : ℤ) (metadata : IndexMetadata)

/-- What a callback is told. -/
inductive Answer
  | refused
  | completed (success : Bool)
  | aborted
  deriving DecidableEq

structure UniqueIDBDatabase where
  inMemory : Bool
  acceptingNewRequests : Bool
  didGetMetadataFromBackingStore : Bool
  metadata : Option DatabaseMetadata
  connections : List ℕ
  establishedTransactions : List IDBIdentifier
  pendingMetadataRequests : List ℕ
  pendingTransactionRequests : List (IDBIdentifier × TransactionCallback)
  pendingTransactionRollbacks : List IDBIdentifier
  pendingDatabaseTasks : List (ℕ × MetadataUndo)
  pendingShutdownTask : Option ℕ
  databaseTasks : List DatabaseTask
  mainThreadTasks : List MainThreadTask
  /-- What the running task of the database thread has still to post. -/
  posting : List (MainThreadTask × DatabaseTaskType)
  /-- The deletions that `callOnMainThread` will answer. -/
  refusedDeletions : List ℕ
  didShutdown : Bool
  nextRequestID : ℕ
  answers : List (ℕ × Answer)
  foundNull : Bool

/-! ## The metadata -/

namespace DatabaseMetadata

variable (m : DatabaseMetadata)

/-- The edit of the cached metadata that comes with a request. -/
def edit : DatabaseOperation → DatabaseMetadata
  | .changeDatabaseVersion _ newVersion => { m with version := newVersion }
  | .createObjectStore _ metadata =>
    { m with objectStores := update m.objectStores metadata.id (some metadata) }
  | .deleteObjectStore _ objectStoreID =>
    { m with objectStores := update m.objectStores objectStoreID none }
  -- `objectStores.get` returns a copy, and the index is set in the copy.
  | .createIndex _ _ _ => m
  -- Here too the index is taken from a copy.
  | .deleteIndex _ _ _ => m
  | _ => m

/-- What the request keeps to take its edit back. -/
def undoOf : DatabaseOperation → MetadataUndo
  | .changeDatabaseVersion _ _ => .setVersion m.version
  | .createObjectStore _ metadata => .removeObjectStore metadata.id
  | .deleteObjectStore _ objectStoreID => .setObjectStore (m.getObjectStore objectStoreID)
  | .createIndex _ objectStoreID metadata => .removeIndex objectStoreID metadata.id
  | .deleteIndex _ objectStoreID indexID =>
    .setIndex objectStoreID (((m.getObjectStore objectStoreID).indexes indexID).getD default)
  | _ => .nothing

/-- An edit of the indexes of an object store, if there is one. -/
def editIndexes (objectStoreID : ℤ)
    (f : (ℤ → Option IndexMetadata) → ℤ → Option IndexMetadata) : DatabaseMetadata :=
  match m.objectStores objectStoreID with
  | none => m
  | some objectStore =>
    { m with
      objectStores := update m.objectStores objectStoreID
        (some { objectStore with indexes := f objectStore.indexes }) }

def undo : MetadataUndo → DatabaseMetadata
  | .nothing => m
  | .setVersion oldVersion => { m with version := oldVersion }
  | .removeObjectStore objectStoreID =>
    { m with objectStores := update m.objectStores objectStoreID none }
  | .setObjectStore metadata =>
    { m with objectStores := update m.objectStores metadata.id (some metadata) }
  | .removeIndex objectStoreID indexID =>
    m.editIndexes objectStoreID fun indexes => update indexes indexID none
  | .setIndex objectStoreID metadata =>
    m.editIndexes objectStoreID fun indexes => update indexes metadata.id (some metadata)

/-- The assertions at the start of a request. -/
def Allows : DatabaseOperation → Prop
  | .changeDatabaseVersion _ _ => True
  | .createObjectStore _ metadata => m.objectStores metadata.id = none
  | .createIndex _ objectStoreID metadata =>
    ∃ objectStore, m.objectStores objectStoreID = some objectStore ∧
      objectStore.indexes metadata.id = none
  | .deleteIndex _ objectStoreID indexID =>
    ∃ objectStore, m.objectStores objectStoreID = some objectStore ∧
      (objectStore.indexes indexID).isSome
  | .deleteObjectStore _ objectStoreID | .clearObjectStore _ objectStoreID
  | .putRecord _ objectStoreID | .getRecord _ objectStoreID _ | .openCursor _ objectStoreID _ =>
    (m.objectStores objectStoreID).isSome
  | .cursorAdvance _ | .cursorIterate _ | .count _ _ _ | .deleteRange _ _ => True

end DatabaseMetadata

/-- The requests that read the cached metadata. -/
def DatabaseOperation.readsMetadata : DatabaseOperation → Bool
  | .cursorAdvance _ | .cursorIterate _ | .count _ _ _ | .deleteRange _ _ => false
  | _ => true

/-- The completions that a task of the database thread posts, when its part in the backing
store has this result. -/
def DatabaseTask.completions (inMemory success : Bool) (metadata : Option DatabaseMetadata) :
    DatabaseTask → List (MainThreadTask × DatabaseTaskType)
  | .openBackingStoreAndReadMetadata =>
    if inMemory then [] else [(.didOpenBackingStoreAndReadMetadata metadata, .normal)]
  | .transactionOperation transaction (.openTransaction _) =>
    [(.didEstablishTransaction transaction success, .normal),
      (.didCompleteTransactionOperation transaction success, .normal)]
  | .transactionOperation transaction .resetTransaction =>
    [(.didResetTransaction transaction success, .normal),
      (.didCompleteTransactionOperation transaction success, .normal)]
  | .transactionOperation transaction _ =>
    [(.didCompleteTransactionOperation transaction success, .normal)]
  -- After the completion of a failure comes the one of a success: there is no `return`.
  | .operation requestID (.count _ _ _) | .operation requestID (.deleteRange _ _) =>
    if success then [(.didCompleteRequest requestID true, .normal)]
    else [(.didCompleteRequest requestID false, .normal),
      (.didCompleteRequest requestID true, .normal)]
  | .operation requestID _ => [(.didCompleteRequest requestID success, .normal)]
  | .shutdownBackingStore type => [(.didShutdownBackingStore type, .shutdown)]

namespace UniqueIDBDatabase

variable (s : UniqueIDBDatabase)

def answer (requestID : ℕ) (answer : Answer) : UniqueIDBDatabase :=
  { s with answers := s.answers ++ [(requestID, answer)] }

def postDatabaseTask (task : DatabaseTask) (type : DatabaseTaskType := .normal) :
    UniqueIDBDatabase :=
  if !s.acceptingNewRequests && type = .normal then s
  else { s with databaseTasks := s.databaseTasks ++ [task] }

def shutdown (type : ShutdownType) : UniqueIDBDatabase :=
  if !s.acceptingNewRequests then s
  else
    postDatabaseTask { s with acceptingNewRequests := false, databaseTasks := [] }
      (.shutdownBackingStore type) .shutdown

def hasPendingTransactionRequest (transaction : IDBIdentifier) : Bool :=
  s.pendingTransactionRequests.any fun request => request.1 = transaction

/-- `refused` is what the callback does when it is called at once, with `false`. -/
def postTransactionOperation (transaction : IDBIdentifier) (operation : TransactionOperation)
    (callback : TransactionCallback) (refused : UniqueIDBDatabase → UniqueIDBDatabase) :
    UniqueIDBDatabase :=
  if !s.acceptingNewRequests then refused s
  else if s.hasPendingTransactionRequest transaction then refused s
  else
    let s := s.postDatabaseTask (.transactionOperation transaction operation)
    { s with
      pendingTransactionRequests := s.pendingTransactionRequests ++ [(transaction, callback)] }

/-- The callback of the reset in `finalizeRollback`. -/
def didResetCallback : UniqueIDBDatabase :=
  if s.acceptingNewRequests && s.connections.isEmpty && s.pendingTransactionRollbacks.isEmpty
  then s.shutdown .normalShutdown
  else s

/-- The callback of the rollback in `finalizeRollback`. -/
def didRollbackCallback (transaction : IDBIdentifier) : UniqueIDBDatabase :=
  if s.hasPendingTransactionRequest transaction then s
  else
    postTransactionOperation
      { s with
        pendingTransactionRollbacks := s.pendingTransactionRollbacks.filter (· ≠ transaction) }
      transaction .resetTransaction .didReset didResetCallback

def finalizeRollback (transaction : IDBIdentifier) : UniqueIDBDatabase :=
  s.postTransactionOperation transaction .rollbackTransaction .didRollback
    fun s => s.didRollbackCallback transaction

def callTransactionCallback (transaction : IDBIdentifier) (callback : TransactionCallback)
    (result : Answer) : UniqueIDBDatabase :=
  match callback with
  | .client requestID => s.answer requestID result
  | .didRollback => s.didRollbackCallback transaction
  | .didReset => s.didResetCallback

def registerConnection (connection : ℕ) : UniqueIDBDatabase :=
  { s with connections := s.connections ++ [connection] }

def addPendingTransactionRollback (transaction : IDBIdentifier) : UniqueIDBDatabase :=
  { s with
    pendingTransactionRollbacks :=
      if transaction ∈ s.pendingTransactionRollbacks then s.pendingTransactionRollbacks
      else s.pendingTransactionRollbacks ++ [transaction] }

/-- The loop of `resetAllTransactions`. -/
def resetTransactions (transactions : List IDBIdentifier) : UniqueIDBDatabase :=
  transactions.foldl (fun s transaction =>
    let s := s.addPendingTransactionRollback transaction
    if s.hasPendingTransactionRequest transaction then s else s.finalizeRollback transaction) s

def resetAllTransactions (connection : ℕ) : UniqueIDBDatabase :=
  if !s.acceptingNewRequests then s
  else
    s.resetTransactions
      (s.establishedTransactions.filter fun transaction => transaction.connection = connection)

def unregisterConnection (connection : ℕ) : UniqueIDBDatabase :=
  let s := s.resetAllTransactions connection
  let s := { s with connections := s.connections.filter (· ≠ connection) }
  if s.connections.isEmpty && s.pendingTransactionRollbacks.isEmpty then
    s.shutdown .normalShutdown
  else s

def getOrEstablishIDBDatabaseMetadata (requestID : ℕ) : UniqueIDBDatabase :=
  if !s.acceptingNewRequests then s.answer requestID .refused
  else if s.didGetMetadataFromBackingStore then
    s.answer requestID (.completed s.metadata.isSome)
  else
    let shouldOpenBackingStore := s.pendingMetadataRequests.isEmpty
    let s := { s with pendingMetadataRequests := s.pendingMetadataRequests ++ [requestID] }
    if shouldOpenBackingStore then s.postDatabaseTask .openBackingStoreAndReadMetadata else s

def transactionOperation (requestID : ℕ) (transaction : IDBIdentifier)
    (operation : TransactionOperation) : UniqueIDBDatabase :=
  s.postTransactionOperation transaction operation (.client requestID)
    fun s => s.answer requestID .refused

def undoOf (operation : DatabaseOperation) : MetadataUndo :=
  match s.metadata with
  | none => .nothing
  | some metadata => metadata.undoOf operation

/-- The schema and record operations: an edit of the metadata, a pending request, a task. -/
def requestOperation (requestID : ℕ) (operation : DatabaseOperation) : UniqueIDBDatabase :=
  if !s.acceptingNewRequests then s.answer requestID .refused
  else
    postDatabaseTask
      { s with
        metadata := s.metadata.map fun metadata => metadata.edit operation
        pendingDatabaseTasks := s.pendingDatabaseTasks ++ [(requestID, s.undoOf operation)] }
      (.operation requestID operation)

def deleteDatabase (requestID : ℕ) : UniqueIDBDatabase :=
  if !s.acceptingNewRequests then
    { s with refusedDeletions := s.refusedDeletions ++ [requestID] }
  else shutdown { s with pendingShutdownTask := some requestID } .deleteShutdown

/-! ## Completions -/

def didOpenBackingStoreAndReadMetadata (metadata : Option DatabaseMetadata) : UniqueIDBDatabase :=
  let s :=
    { s with
      didGetMetadataFromBackingStore := true
      metadata := match metadata with
        | none => s.metadata
        | some metadata => some metadata }
  s.pendingMetadataRequests.foldl
    (fun s requestID => s.answer requestID (.completed s.metadata.isSome))
    { s with pendingMetadataRequests := [] }

def didEstablishTransaction (transaction : IDBIdentifier) (success : Bool) : UniqueIDBDatabase :=
  if !success then s
  else
    { s with
      establishedTransactions :=
        if transaction ∈ s.establishedTransactions then s.establishedTransactions
        else s.establishedTransactions ++ [transaction] }

def didResetTransaction (transaction : IDBIdentifier) (success : Bool) : UniqueIDBDatabase :=
  if !success then s
  else
    { s with establishedTransactions := s.establishedTransactions.filter (· ≠ transaction) }

def didCompleteTransactionOperation (transaction : IDBIdentifier) (success : Bool) :
    UniqueIDBDatabase :=
  let request := s.pendingTransactionRequests.find? fun request => request.1 = transaction
  let s :=
    { s with
      pendingTransactionRequests :=
        s.pendingTransactionRequests.filter fun request => request.1 ≠ transaction }
  let s : UniqueIDBDatabase := match request with
    | none => { s with foundNull := true }
    | some request => s.callTransactionCallback transaction request.2 (.completed success)
  if transaction ∈ s.pendingTransactionRollbacks then s.finalizeRollback transaction else s

/-- `didCompleteBoolRequest`, and the completions of the record requests. -/
def didCompleteRequest (requestID : ℕ) (success : Bool) : UniqueIDBDatabase :=
  match s.pendingDatabaseTasks.find? fun request => request.1 = requestID with
  | none => { s with foundNull := true }
  | some request =>
    answer
      { s with
        pendingDatabaseTasks :=
          s.pendingDatabaseTasks.filter fun request => request.1 ≠ requestID
        metadata :=
          if success then s.metadata else s.metadata.map fun metadata => metadata.undo request.2 }
      requestID (.completed success)

/-- The main thread tasks other than the end of the shutdown. -/
def performCompletion : MainThreadTask → UniqueIDBDatabase
  | .didOpenBackingStoreAndReadMetadata metadata =>
    s.didOpenBackingStoreAndReadMetadata metadata
  | .didEstablishTransaction transaction success => s.didEstablishTransaction transaction success
  | .didResetTransaction transaction success => s.didResetTransaction transaction success
  | .didCompleteTransactionOperation transaction success =>
    s.didCompleteTransactionOperation transaction success
  | .didCompleteRequest requestID success => s.didCompleteRequest requestID success
  | .didShutdownBackingStore _ => s

/-- All outstanding requests are aborted. -/
def abortRequests : UniqueIDBDatabase :=
  let s := s.pendingMetadataRequests.foldl (fun s requestID => s.answer requestID .aborted) s
  let s := s.pendingTransactionRequests.foldl (fun s request =>
    s.callTransactionCallback request.1 request.2 .aborted) s
  let s := s.pendingDatabaseTasks.foldl (fun s request =>
    answer { s with metadata := s.metadata.map fun metadata => metadata.undo request.2 }
      request.1 .aborted) s
  { s with
    pendingMetadataRequests := []
    pendingTransactionRequests := []
    pendingDatabaseTasks := [] }

def didShutdownBackingStore (type : ShutdownType) : UniqueIDBDatabase :=
  -- The remaining main thread tasks are performed first.
  let s := s.mainThreadTasks.foldl performCompletion { s with mainThreadTasks := [] }
  let s := s.abortRequests
  let s : UniqueIDBDatabase := match s.pendingShutdownTask with
    | none => s
    | some requestID => s.answer requestID (.completed (decide (type = ShutdownType.deleteShutdown)))
  { s with pendingShutdownTask := none, didShutdown := true }

def performMainThreadTask : MainThreadTask → UniqueIDBDatabase
  | .didShutdownBackingStore type => s.didShutdownBackingStore type
  | task => s.performCompletion task

/-- What happens next: a call from outside, or a step of one of the two threads. -/
inductive Event
  | registerConnection (connection : ℕ)
  | unregisterConnection (connection : ℕ)
  | getOrEstablishIDBDatabaseMetadata
  | transactionOperation (transaction : IDBIdentifier) (operation : TransactionOperation)
  | requestOperation (operation : DatabaseOperation)
  | deleteDatabase
  /-- The database thread takes a task and performs it on the backing store. -/
  | performNextDatabaseTask (success : Bool) (metadata : Option DatabaseMetadata)
  /-- The database thread posts the next completion of its task. -/
  | postMainThreadTask
  | performNextMainThreadTask
  /-- The main thread answers a deletion that was refused. -/
  | callOnMainThread

/-- The next request id goes to the callback of a new request. -/
def withNextRequestID (f : UniqueIDBDatabase → ℕ → UniqueIDBDatabase) : UniqueIDBDatabase :=
  f { s with nextRequestID := s.nextRequestID + 1 } s.nextRequestID

def apply : Event → Option UniqueIDBDatabase
  | .registerConnection connection =>
    if connection ∈ s.connections then none else some (s.registerConnection connection)
  | .unregisterConnection connection =>
    if connection ∈ s.connections then some (s.unregisterConnection connection) else none
  | .getOrEstablishIDBDatabaseMetadata =>
    some (s.withNextRequestID getOrEstablishIDBDatabaseMetadata)
  | .transactionOperation transaction operation =>
    some (s.withNextRequestID fun s requestID =>
      s.transactionOperation requestID transaction operation)
  | .requestOperation operation =>
    some (s.withNextRequestID fun s requestID => s.requestOperation requestID operation)
  | .deleteDatabase => some (s.withNextRequestID deleteDatabase)
  | .performNextDatabaseTask success metadata =>
    match s.posting, s.databaseTasks with
    | [], task :: tasks =>
      some
        { s with
          databaseTasks := tasks
          posting := task.completions s.inMemory success metadata }
    | _, _ => none
  | .postMainThreadTask =>
    match s.posting with
    | [] => none
    | (task, type) :: posting =>
      if !s.acceptingNewRequests && type = .normal then some { s with posting := posting }
      else some { s with posting := posting, mainThreadTasks := s.mainThreadTasks ++ [task] }
  | .performNextMainThreadTask =>
    match s.mainThreadTasks with
    | [] => none
    | task :: tasks => some (performMainThreadTask { s with mainThreadTasks := tasks } task)
  | .callOnMainThread =>
    match s.refusedDeletions with
    | [] => none
    | requestID :: requestIDs =>
      some (answer { s with refusedDeletions := requestIDs } requestID .refused)

/-- A new database, for its first connection. -/
def create (inMemory : Bool) (connection : ℕ) : UniqueIDBDatabase where
  inMemory := inMemory
  acceptingNewRequests := true
  didGetMetadataFromBackingStore := false
  metadata := none
  connections := [connection]
  establishedTransactions := []
  pendingMetadataRequests := []
  pendingTransactionRequests := []
  pendingTransactionRollbacks := []
  pendingDatabaseTasks := []
  pendingShutdownTask := none
  databaseTasks := []
  mainThreadTasks := []
  posting := []
  refusedDeletions := []
  didShutdown := false
  nextRequestID := 0
  answers := []
  foundNull := false

/-- The assertions of the source on the caller of a request. -/
def Allowed : Event → Prop
  | .requestOperation operation =>
    s.acceptingNewRequests → operation.readsMetadata →
      ∃ metadata, s.metadata = some metadata ∧ metadata.Allows operation
  | _ => True

def Step (s : UniqueIDBDatabase) (event : Event) (t : UniqueIDBDatabase) : Prop :=
  s.Allowed event ∧ s.apply event = some t

end UniqueIDBDatabase

end WebKit.IndexedDB
