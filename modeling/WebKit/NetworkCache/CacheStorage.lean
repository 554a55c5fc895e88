import WebKit.Transition.Run
import WebKit.WTF.BloomFilter

/-!
# The record filter of `NetworkCache::Storage`

The main thread keeps the filter, the pending and the active write operations, and the
flags of a synchronization or a shrink in progress. Everything on the disk happens on
concurrent background queues: a write operation first replaces the file of its record by
an empty one and then writes it, a synchronization visits the files one by one, a shrink
deletes some of them. `Event` has one constructor for each piece of work that runs
undisturbed on its thread; in between, the threads interleave freely.

A directory traversal visits every file that is there from its start to its end, and may
or may not visit one that is created, replaced or deleted meanwhile. Blobs have a filter of their
own and only add to the size here. Files may also be deleted at any time: by `remove`,
which a failed read calls too, or from outside.
-/

namespace WebKit.NetworkCache

open WTF Function Option

/-- A `Key`, with the digest of its parts that names its file. -/
structure Key where
  partition : ℕ
  identifier : ℕ
  hash : Digest
  deriving DecidableEq, Repr

/-- The path of a record: the directory of the partition, and a file named by the hash. -/
structure Path where
  partition : ℕ
  hash : Digest
  deriving DecidableEq, Repr

/-- `recordPathForKey`. -/
def recordPathForKey (key : Key) : Path := ⟨key.partition, key.hash⟩

/-- A `WriteOperation`; the id is its address. -/
structure WriteOperation where
  id : ℕ
  key : Key
  recordSize : ℕ
  deriving DecidableEq, Repr

/-- How far the background task of an active write operation has come. -/
inductive WriteStage
  | dispatched
  | created
  | written
  deriving DecidableEq, Repr

/-- A file, with the write operation that created it. -/
structure File where
  writer : ℕ
  size : ℕ
  deriving DecidableEq, Repr

/-- Where the background task of a synchronization is. The hashes found are the content of
the filter that it builds. -/
inductive Traversal
  | none
  | queued
  | running (unvisited : Path → Bool) (found : List Digest) (recordsSize : ℕ)
  | done (found : List Digest) (recordsSize : ℕ)

/-- What the traversal still has to visit when the entry of a path changes. -/
def Traversal.forget (traversal : Traversal) (path : Path) : Traversal :=
  match traversal with
  | .running unvisited found recordsSize =>
    .running (update unvisited path false) found recordsSize
  | traversal => traversal

/-- Where the background task of a shrink is. -/
inductive Shrinking
  | none
  | running
  | done
  deriving DecidableEq

abbrev ContentsFilter := BloomFilter 18

/-- The fields of the main thread, the tasks in the background, and the files.
`operationsAtSynchronize` only records what was pending or active when the last
synchronization began; nothing reads it. -/
structure Storage where
  capacity : ℕ
  approximateRecordsSize : ℕ := 0
  recordFilter : Option ContentsFilter := none
  synchronizationInProgress : Bool := false
  shrinkInProgress : Bool := false
  recordFilterHashesAddedDuringSynchronization : List Digest := []
  pendingWriteOperations : List WriteOperation := []
  activeWriteOperations : List WriteOperation := []
  nextWriteOperation : ℕ := 0
  writeStage : ℕ → WriteStage := fun _ => .dispatched
  traversal : Traversal := .none
  shrinking : Shrinking := .none
  files : Path → Option File
  operationsAtSynchronize : List WriteOperation := []

namespace Storage

def addToRecordFilter (storage : Storage) (key : Key) : Storage :=
  { storage with
    recordFilter := storage.recordFilter.map (·.add key.hash)
    recordFilterHashesAddedDuringSynchronization :=
      if storage.synchronizationInProgress then
        storage.recordFilterHashesAddedDuringSynchronization ++ [key.hash]
      else storage.recordFilterHashesAddedDuringSynchronization }

def mayContain (storage : Storage) (key : Key) : Bool :=
  match storage.recordFilter with
  | none => true
  | some filter => filter.mayContain key.hash

/-- The first part of `synchronize`, and the dispatch of its background task. -/
def synchronize (storage : Storage) : Storage :=
  if storage.synchronizationInProgress || storage.shrinkInProgress then storage
  else
    { storage with
      synchronizationInProgress := true
      traversal := .queued
      operationsAtSynchronize :=
        storage.pendingWriteOperations ++ storage.activeWriteOperations }

/-- The constructor, over the files of an earlier process. -/
def create (capacity : ℕ) (files : Path → Option File) : Storage :=
  synchronize { capacity, files }

def maximumActiveWriteOperationCount : ℕ := 3

/-- The dispatch of a write operation that has just become active. -/
def dispatchWriteOperation (storage : Storage) (writeOperation : WriteOperation) : Storage :=
  storage.addToRecordFilter writeOperation.key

/-- The loop of `dispatchPendingWriteOperations`, on the queue. -/
def dispatchWriteOperations (storage : Storage) : List WriteOperation → Storage
  | [] => { storage with pendingWriteOperations := [] }
  | writeOperation :: rest =>
    if storage.activeWriteOperations.length ≥ maximumActiveWriteOperationCount then
      { storage with pendingWriteOperations := writeOperation :: rest }
    else
      dispatchWriteOperations (dispatchWriteOperation
          { storage with
            pendingWriteOperations := rest
            activeWriteOperations := storage.activeWriteOperations ++ [writeOperation] }
          writeOperation) rest

def dispatchPendingWriteOperations (storage : Storage) : Storage :=
  storage.dispatchWriteOperations storage.pendingWriteOperations

def shrink (storage : Storage) : Storage :=
  if storage.shrinkInProgress || storage.synchronizationInProgress then storage
  else { storage with shrinkInProgress := true, shrinking := .running }

/-- The size of the blobs is what `BlobStorage` last found. -/
def shrinkIfNeeded (storage : Storage) (blobSize : ℕ) : Storage :=
  if storage.approximateRecordsSize + blobSize > storage.capacity then storage.shrink else storage

def finishWriteOperation (storage : Storage) (writeOperation : WriteOperation) (blobSize : ℕ) :
    Storage :=
  let storage := { storage with
    activeWriteOperations := storage.activeWriteOperations.erase writeOperation }
  storage.dispatchPendingWriteOperations.shrinkIfNeeded blobSize

def store (storage : Storage) (key : Key) (recordSize : ℕ) : Storage :=
  if storage.capacity = 0 then storage
  else
    let writeOperation : WriteOperation := ⟨storage.nextWriteOperation, key, recordSize⟩
    let storage := { storage with
      nextWriteOperation := storage.nextWriteOperation + 1
      writeStage := update storage.writeStage storage.nextWriteOperation .dispatched
      pendingWriteOperations := storage.pendingWriteOperations ++ [writeOperation] }
    (storage.addToRecordFilter key).dispatchPendingWriteOperations

/-- How `retrieve` goes on. -/
inductive Retrieval
  | noCapacity
  | notInFilter
  | fromMemory (writeOperation : WriteOperation)
  | read
  deriving DecidableEq

def retrieve (storage : Storage) (key : Key) : Retrieval :=
  if storage.capacity = 0 then .noCapacity
  else if !storage.mayContain key then .notInFilter
  else
    match storage.pendingWriteOperations.find? (·.key = key) with
    | some writeOperation => .fromMemory writeOperation
    | none =>
      match storage.activeWriteOperations.find? (·.key = key) with
      | some writeOperation => .fromMemory writeOperation
      | none => .read

/-- `IOChannel::open` for a record: the old file is unlinked and an empty one is created. -/
def createFile (storage : Storage) (writeOperation : WriteOperation) : Storage :=
  { storage with
    writeStage := update storage.writeStage writeOperation.id .created
    traversal := storage.traversal.forget (recordPathForKey writeOperation.key)
    files := update storage.files (recordPathForKey writeOperation.key)
      (some ⟨writeOperation.id, 0⟩) }

/-- The data goes to the file that the operation created, whether it still has a name or not;
an error leaves the file as it is. -/
def writeFile (storage : Storage) (writeOperation : WriteOperation) (error : Bool) : Storage :=
  let path := recordPathForKey writeOperation.key
  { storage with
    writeStage := update storage.writeStage writeOperation.id .written
    files :=
      if !error && ((storage.files path).map File.writer == some writeOperation.id) then
        update storage.files path (some ⟨writeOperation.id, writeOperation.recordSize⟩)
      else storage.files }

/-- The completion of the write, on the main thread. -/
def didWrite (storage : Storage) (writeOperation : WriteOperation) (blobSize : ℕ) : Storage :=
  let storage := { storage with
    approximateRecordsSize := storage.approximateRecordsSize + writeOperation.recordSize }
  storage.finishWriteOperation writeOperation blobSize

def deleteFile (storage : Storage) (path : Path) : Storage :=
  { storage with
    traversal := storage.traversal.forget path
    files := update storage.files path none }

/-- The traversal begins: the files that are there now have to be visited. -/
def beginTraversal (storage : Storage) : Storage :=
  { storage with traversal := .running (fun path => (storage.files path).isSome) [] 0 }

/-- The function `synchronize` passes to `traverseCacheFiles`, on the file of a record. -/
def visitFile (storage : Storage) (path : Path) : Storage :=
  match storage.traversal, storage.files path with
  | .running unvisited found recordsSize, some file =>
    if file.size = 0 then storage.deleteFile path
    else
      { storage with
        traversal := .running (update unvisited path false) (found ++ [path.hash])
          (recordsSize + file.size) }
  | _, _ => storage

/-- The main-thread part of `synchronize`, at the end of the traversal. -/
def didSynchronize (storage : Storage) (found : List Digest) (recordsSize : ℕ) : Storage :=
  let recordFilter := (({} : ContentsFilter).addAll found).addAll
    storage.recordFilterHashesAddedDuringSynchronization
  { storage with
    recordFilterHashesAddedDuringSynchronization := []
    recordFilter := some recordFilter
    approximateRecordsSize := recordsSize
    synchronizationInProgress := false
    traversal := .none }

/-- The main-thread part of `shrink`, at the end of its traversal. -/
def didShrink (storage : Storage) : Storage :=
  ({ storage with shrinkInProgress := false, shrinking := .none }).synchronize

inductive Event
  | store (key : Key) (recordSize : ℕ)
  | retrieve (key : Key)
  | setCapacity (capacity blobSize : ℕ)
  | createFile (writeOperation : WriteOperation)
  | writeFile (writeOperation : WriteOperation) (error : Bool)
  | didWrite (writeOperation : WriteOperation) (blobSize : ℕ)
  | deleteFile (path : Path)
  | beginTraversal
  | visitFile (path : Path)
  | endTraversal
  | didSynchronize
  | shrinkFile (path : Path)
  | endShrink
  | didShrink
  deriving DecidableEq

/-- What can happen in a state, and the state after it. -/
inductive Step (storage : Storage) : Event → Storage → Prop
  | store (key : Key) (recordSize : ℕ) :
      Step storage (.store key recordSize) (storage.store key recordSize)
  | retrieve (key : Key) : Step storage (.retrieve key) storage
  | setCapacity (capacity blobSize : ℕ) :
      Step storage (.setCapacity capacity blobSize)
        (({ storage with capacity }).shrinkIfNeeded blobSize)
  | createFile (writeOperation : WriteOperation)
      (hactive : writeOperation ∈ storage.activeWriteOperations)
      (hstage : storage.writeStage writeOperation.id = .dispatched) :
      Step storage (.createFile writeOperation) (storage.createFile writeOperation)
  | writeFile (writeOperation : WriteOperation) (error : Bool)
      (hactive : writeOperation ∈ storage.activeWriteOperations)
      (hstage : storage.writeStage writeOperation.id = .created) :
      Step storage (.writeFile writeOperation error) (storage.writeFile writeOperation error)
  | didWrite (writeOperation : WriteOperation) (blobSize : ℕ)
      (hactive : writeOperation ∈ storage.activeWriteOperations)
      (hstage : storage.writeStage writeOperation.id = .written) :
      Step storage (.didWrite writeOperation blobSize) (storage.didWrite writeOperation blobSize)
  | deleteFile (path : Path) : Step storage (.deleteFile path) (storage.deleteFile path)
  | beginTraversal (htraversal : storage.traversal = .queued) :
      Step storage .beginTraversal storage.beginTraversal
  | visitFile (path : Path) : Step storage (.visitFile path) (storage.visitFile path)
  | endTraversal (unvisited : Path → Bool) (found : List Digest) (recordsSize : ℕ)
      (htraversal : storage.traversal = .running unvisited found recordsSize)
      (hvisited : ∀ path, unvisited path = false) :
      Step storage .endTraversal { storage with traversal := .done found recordsSize }
  | didSynchronize (found : List Digest) (recordsSize : ℕ)
      (htraversal : storage.traversal = .done found recordsSize) :
      Step storage .didSynchronize (storage.didSynchronize found recordsSize)
  | shrinkFile (path : Path) (hshrinking : storage.shrinking = .running) :
      Step storage (.shrinkFile path) (storage.deleteFile path)
  | endShrink (hshrinking : storage.shrinking = .running) :
      Step storage .endShrink { storage with shrinking := .done }
  | didShrink (hshrinking : storage.shrinking = .done) :
      Step storage .didShrink storage.didShrink

end Storage

end WebKit.NetworkCache
