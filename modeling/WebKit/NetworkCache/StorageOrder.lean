import WebKit.NetworkCache.CacheStorage

/-!
# Operations on one key of `NetworkCache::Storage`

Beside the writes there is the serial background queue, on which `remove` deletes files, and there
are the reads. A read opens its file when it is dispatched and delivers the record of that file, or
nothing: the file may not be complete, its key may be another one, its blob may be missing or that
of another record. A read that fails removes its key.

Some fields only record what happened, and no function reads them: what was last asked for each key,
the last store before each `retrieve`, the records delivered, and whether files were deleted or lost
by a shrink, a clear or an error (`disturbed`).
-/

open List Function

namespace WebKit.NetworkCache

/-- What was last asked for a key. -/
inductive Request
  | stored (writeOperation : WriteOperation)
  | removed
  deriving DecidableEq

/-- A `ReadOperation`, with the last store of the key when `retrieve` was called, unless the key had
been removed since. -/
structure ReadOperation where
  key : Key
  storedBefore : Option ℕ
  deriving DecidableEq, Repr

/-- A record passed to a completion handler, with the write operation of the record. -/
structure Delivery where
  key : Key
  storedBefore : Option ℕ
  writer : ℕ
  deriving DecidableEq, Repr

structure StorageOrder where
  storage : Storage
  serialBackgroundIOQueue : List Key := []
  pendingReadOperations : List ReadOperation := []
  /-- With the writer of the file that was opened. -/
  activeReadOperations : List (ReadOperation × Option ℕ) := []
  requests : Key → Option Request := fun _ => none
  deliveries : List Delivery := []
  disturbed : Bool := false

namespace StorageOrder

variable (s : StorageOrder)

/-- Write operations with smaller ids were those of earlier processes. -/
def start (capacity firstWriteOperation : ℕ) (files : Path → Option File) : StorageOrder where
  storage := { Storage.create capacity files with nextWriteOperation := firstWriteOperation }

def lastStored (key : Key) : Option ℕ :=
  match s.requests key with
  | some (.stored writeOperation) => some writeOperation.id
  | _ => none

def request (key : Key) (request : Request) : StorageOrder :=
  { s with requests := update s.requests key (some request) }

def remove (key : Key) : StorageOrder :=
  { s.request key .removed with
    serialBackgroundIOQueue := s.serialBackgroundIOQueue ++ [key] }

/-- The task of `remove`. -/
def runRemoval (key : Key) (rest : List Key) : StorageOrder :=
  { s with
    serialBackgroundIOQueue := rest
    storage := s.storage.deleteFile (recordPathForKey key) }

/-- The completion handler gets a record or nothing. -/
def deliver (read : ReadOperation) (result : Option ℕ) : StorageOrder :=
  { s with
    deliveries := s.deliveries ++
      (result.map fun writer => ⟨read.key, read.storedBefore, writer⟩).toList }

/-- `retrieveFromMemory`: the active operations are a set, in no particular order. -/
def FindsInMemory (key : Key) (writeOperation : WriteOperation) : Prop :=
  match s.storage.pendingWriteOperations.find? (·.key = key) with
  | some pending => writeOperation = pending
  | none => writeOperation ∈ s.storage.activeWriteOperations ∧ writeOperation.key = key

def MayRetrieve (key : Key) : Prop := s.storage.capacity ≠ 0 ∧ s.storage.mayContain key = true

/-- `retrieve` when there is no write operation of the key. -/
def retrieveFromDisk (key : Key) : StorageOrder :=
  { s with
    pendingReadOperations := s.pendingReadOperations ++ [⟨key, s.lastStored key⟩] }

def dispatchReadOperation (read : ReadOperation) : StorageOrder :=
  { s with
    pendingReadOperations := s.pendingReadOperations.erase read
    activeReadOperations := s.activeReadOperations ++
      [(read, (s.storage.files (recordPathForKey read.key)).map File.writer)] }

/-- `success` is what the completion handler returns. -/
def finishReadOperation (read : ReadOperation) (opened result : Option ℕ) (success : Bool) :
    StorageOrder :=
  let s := { s with activeReadOperations := s.activeReadOperations.erase (read, opened) }
  let s := s.deliver read result
  if success then s else s.remove read.key

/-- A store, and what happens to the files, is recorded. -/
def afterStorage (event : Storage.Event) (storage : Storage) : StorageOrder :=
  match event with
  | .store key recordSize =>
    { s.request key (.stored ⟨s.storage.nextWriteOperation, key, recordSize⟩) with storage }
  | .writeFile _ error => { s with storage, disturbed := s.disturbed || error }
  | .shrinkFile _ => { s with storage, disturbed := true }
  | .deleteFile _ => { s with storage, disturbed := true }
  | _ => { s with storage }

inductive Event
  | storage (event : Storage.Event)
  | remove (key : Key)
  | runRemoval
  | retrieveNothing (key : Key)
  | retrieveFromMemory (key : Key) (writeOperation : WriteOperation)
  | retrieveFromDisk (key : Key)
  | dispatchReadOperation (read : ReadOperation)
  | finishReadOperation (read : ReadOperation) (opened result : Option ℕ) (success : Bool)

/-- The files that `clear` deletes are those of `Storage.Event.deleteFile`. -/
inductive Step (s : StorageOrder) : Event → StorageOrder → Prop
  | storage (event : Storage.Event) (storage : Storage) (hstep : s.storage.Step event storage) :
      Step s (.storage event) (s.afterStorage event storage)
  | remove (key : Key) : Step s (.remove key) (s.remove key)
  | runRemoval (key : Key) (rest : List Key) (hqueue : s.serialBackgroundIOQueue = key :: rest) :
      Step s .runRemoval (s.runRemoval key rest)
  | retrieveNothing (key : Key) (hnot : ¬s.MayRetrieve key) : Step s (.retrieveNothing key) s
  | retrieveFromMemory (key : Key) (writeOperation : WriteOperation) (hmay : s.MayRetrieve key)
      (hfinds : s.FindsInMemory key writeOperation) :
      Step s (.retrieveFromMemory key writeOperation)
        (s.deliver ⟨key, s.lastStored key⟩ (some writeOperation.id))
  | retrieveFromDisk (key : Key) (hmay : s.MayRetrieve key)
      (hnone : ∀ writeOperation, ¬s.FindsInMemory key writeOperation) :
      Step s (.retrieveFromDisk key) (s.retrieveFromDisk key)
  | dispatchReadOperation (read : ReadOperation) (hpending : read ∈ s.pendingReadOperations) :
      Step s (.dispatchReadOperation read) (s.dispatchReadOperation read)
  | finishReadOperation (read : ReadOperation) (opened result : Option ℕ) (success : Bool)
      (hactive : (read, opened) ∈ s.activeReadOperations)
      (hresult : result = none ∨ result = opened) :
      Step s (.finishReadOperation read opened result success)
        (s.finishReadOperation read opened result success)

/-- All background work has finished. -/
structure Idle (s : StorageOrder) : Prop where
  pendingWriteOperations : s.storage.pendingWriteOperations = []
  activeWriteOperations : s.storage.activeWriteOperations = []
  serialBackgroundIOQueue : s.serialBackgroundIOQueue = []
  pendingReadOperations : s.pendingReadOperations = []
  activeReadOperations : s.activeReadOperations = []
  traversal : s.storage.traversal = .none
  shrinking : s.storage.shrinking = .none

/-- The files are those of the last stores. A path that no key has been stored to or removed from
keeps the file of an earlier process, unless a synchronization found it empty. -/
structure Settled (s : StorageOrder) (files : Path → Option File) : Prop where
  stored : ∀ key writeOperation, s.requests key = some (.stored writeOperation) →
    s.storage.files (recordPathForKey key) =
      some ⟨writeOperation.id, writeOperation.recordSize⟩
  removed : ∀ key, s.requests key = some .removed →
    s.storage.files (recordPathForKey key) = none
  untouched : ∀ path, (∀ key, s.requests key ≠ none → recordPathForKey key ≠ path) →
    s.storage.files path = files path ∨ s.storage.files path = none

/-- No record is older than the last store before the `retrieve`, and the files are right when
everything has finished. -/
structure InOrder (s : StorageOrder) (files : Path → Option File) : Prop where
  deliveries : ∀ delivery ∈ s.deliveries, ∀ stored, delivery.storedBefore = some stored →
    stored ≤ delivery.writer
  settled : s.Idle → s.disturbed = false → s.Settled files

/-- No write operation uses the path of the key, and no other key has used it. -/
def Free (key : Key) : Prop :=
  (∀ writeOperation ∈ s.storage.pendingWriteOperations ++ s.storage.activeWriteOperations,
    recordPathForKey writeOperation.key ≠ recordPathForKey key) ∧
  ∀ other, s.requests other ≠ none → recordPathForKey other = recordPathForKey key → other = key

/-- A key is stored or removed while no write of it is pending or active, and stored while no
removal of it is outstanding; and a synchronization does not visit the empty file of a record that
is being written. -/
def OneAtATime : Event → Prop
  | .storage (.store key _) => s.storage.capacity ≠ 0 ∧ s.Free key ∧
    ∀ removed ∈ s.serialBackgroundIOQueue, recordPathForKey removed ≠ recordPathForKey key
  | .storage (.visitFile path) => ∀ file, s.storage.files path = some file → file.size = 0 →
    ∀ key writeOperation, s.requests key = some (.stored writeOperation) →
      recordPathForKey key ≠ path
  | .remove key => s.Free key
  | .finishReadOperation read _ _ success => success = false → s.Free read.key
  | _ => True

end StorageOrder

/-!
## What the steps of a `Storage` do to its files

`Effect` says what a step does to the write operations, to how far they have come, and to the files;
everything else is about the filter and the sizes. `NotBefore` and `Progress` are what a reader of a
file, and the key that the file is for, need to know of it.
-/

namespace Storage

variable {a b : Storage} {event : Event} {path : Path} {key : Key} {op : WriteOperation} {n : ℕ}

def operations (storage : Storage) : List WriteOperation :=
  storage.pendingWriteOperations ++ storage.activeWriteOperations

/-- Nothing has changed for the files and the operations that write them. -/
structure SameWrites (a b : Storage) : Prop where
  operations : b.operations.Perm a.operations
  writeStage : b.writeStage = a.writeStage
  files : b.files = a.files
  nextWriteOperation : b.nextWriteOperation = a.nextWriteOperation

theorem SameWrites.refl (a : Storage) : a.SameWrites a := ⟨List.Perm.refl _, rfl, rfl, rfl⟩

theorem SameWrites.trans {c : Storage} (h : a.SameWrites b) (h' : b.SameWrites c) :
    a.SameWrites c where
  operations := h'.operations.trans h.operations
  writeStage := h'.writeStage.trans h.writeStage
  files := h'.files.trans h.files
  nextWriteOperation := h'.nextWriteOperation.trans h.nextWriteOperation

theorem sameWrites_dispatchWriteOperations {pending : List WriteOperation}
    (hpending : a.pendingWriteOperations = pending) :
    a.SameWrites (a.dispatchWriteOperations pending) := by
  induction pending generalizing a with
  | nil =>
    unfold dispatchWriteOperations
    refine ⟨?_, rfl, rfl, rfl⟩
    unfold operations
    rw [hpending]
  | cons op rest ih =>
    unfold dispatchWriteOperations
    split
    · refine ⟨?_, rfl, rfl, rfl⟩
      unfold operations
      rw [hpending]
    · refine SameWrites.trans ?_ (ih rfl)
      refine ⟨?_, rfl, rfl, rfl⟩
      unfold operations
      rw [hpending]
      show (rest ++ (a.activeWriteOperations ++ [op])).Perm
        (op :: (rest ++ a.activeWriteOperations))
      rw [← append_assoc]
      exact perm_append_singleton _ _

theorem sameWrites_dispatchPendingWriteOperations (a : Storage) :
    a.SameWrites a.dispatchPendingWriteOperations :=
  sameWrites_dispatchWriteOperations rfl

theorem sameWrites_synchronize (a : Storage) : a.SameWrites a.synchronize := by
  unfold synchronize
  split
  · exact SameWrites.refl a
  · exact ⟨List.Perm.refl _, rfl, rfl, rfl⟩

theorem sameWrites_shrinkIfNeeded (a : Storage) (blobSize : ℕ) :
    a.SameWrites (a.shrinkIfNeeded blobSize) := by
  unfold shrinkIfNeeded shrink
  split
  · split
    · exact SameWrites.refl a
    · exact ⟨List.Perm.refl _, rfl, rfl, rfl⟩
  · exact SameWrites.refl a

theorem store_spec (hcapacity : a.capacity ≠ 0) (key : Key) (recordSize : ℕ) :
    (a.store key recordSize).operations.Perm
        (⟨a.nextWriteOperation, key, recordSize⟩ :: a.operations) ∧
      (a.store key recordSize).writeStage = update a.writeStage a.nextWriteOperation .dispatched ∧
      (a.store key recordSize).files = a.files ∧
      (a.store key recordSize).nextWriteOperation = a.nextWriteOperation + 1 := by
  unfold store
  rw [if_neg hcapacity]
  have h := sameWrites_dispatchPendingWriteOperations (Storage.addToRecordFilter { a with
      nextWriteOperation := a.nextWriteOperation + 1
      writeStage := update a.writeStage a.nextWriteOperation .dispatched
      pendingWriteOperations :=
        a.pendingWriteOperations ++ [⟨a.nextWriteOperation, key, recordSize⟩] } key)
  refine ⟨h.operations.trans ?_, h.writeStage, h.files, h.nextWriteOperation⟩
  show ((a.pendingWriteOperations ++ [_]) ++ a.activeWriteOperations).Perm
    (_ :: (a.pendingWriteOperations ++ a.activeWriteOperations))
  rw [append_assoc]
  exact perm_middle

theorem didWrite_spec (hactive : op ∈ a.activeWriteOperations) (blobSize : ℕ) :
    (a.operations.Nodup → (a.didWrite op blobSize).operations.Perm (a.operations.erase op)) ∧
      (a.didWrite op blobSize).writeStage = a.writeStage ∧
      (a.didWrite op blobSize).files = a.files ∧
      (a.didWrite op blobSize).nextWriteOperation = a.nextWriteOperation := by
  have h := (sameWrites_dispatchPendingWriteOperations { a with
      approximateRecordsSize := a.approximateRecordsSize + op.recordSize
      activeWriteOperations := a.activeWriteOperations.erase op }).trans
    (sameWrites_shrinkIfNeeded _ blobSize)
  refine ⟨fun hnodup => h.operations.trans ?_, h.writeStage, h.files, h.nextWriteOperation⟩
  have hpending : op ∉ a.pendingWriteOperations := fun hmem =>
    (disjoint_of_nodup_append hnodup) hmem hactive
  show (a.pendingWriteOperations ++ a.activeWriteOperations.erase op).Perm
    ((a.pendingWriteOperations ++ a.activeWriteOperations).erase op)
  rw [erase_append_right _ hpending]

/-- What a step does to the operations and the files. -/
inductive Effect (a : Storage) : Event → Storage → Prop
  | same {event : Event} {b : Storage} (hevent : ∀ key recordSize, event ≠ .store key recordSize)
      (h : a.SameWrites b) : Effect a event b
  | store {key : Key} {recordSize : ℕ} {b : Storage} (hcapacity : a.capacity ≠ 0)
      (operations : b.operations.Perm (⟨a.nextWriteOperation, key, recordSize⟩ :: a.operations))
      (writeStage : b.writeStage =
        update a.writeStage a.nextWriteOperation .dispatched)
      (files : b.files = a.files)
      (nextWriteOperation : b.nextWriteOperation = a.nextWriteOperation + 1) :
      Effect a (.store key recordSize) b
  | noStore {key : Key} {recordSize : ℕ} (hcapacity : a.capacity = 0) :
      Effect a (.store key recordSize) a
  | createFile (op : WriteOperation) (hmem : op ∈ a.operations)
      (hstage : a.writeStage op.id = .dispatched) : Effect a (.createFile op) (a.createFile op)
  | writeFile (op : WriteOperation) (error : Bool) (hmem : op ∈ a.operations)
      (hstage : a.writeStage op.id = .created) :
      Effect a (.writeFile op error) (a.writeFile op error)
  | didWrite {op : WriteOperation} {blobSize : ℕ} {b : Storage} (hmem : op ∈ a.operations)
      (hstage : a.writeStage op.id = .written)
      (operations : a.operations.Nodup → b.operations.Perm (a.operations.erase op))
      (writeStage : b.writeStage = a.writeStage) (files : b.files = a.files)
      (nextWriteOperation : b.nextWriteOperation = a.nextWriteOperation) :
      Effect a (.didWrite op blobSize) b
  | deleteFile (path : Path) : Effect a (.deleteFile path) (a.deleteFile path)
  | shrinkFile (path : Path) : Effect a (.shrinkFile path) (a.deleteFile path)
  | visitEmpty (path : Path) (file : File) (hfile : a.files path = some file)
      (hsize : file.size = 0) : Effect a (.visitFile path) (a.deleteFile path)

theorem Step.effect (h : Step a event b) : Effect a event b := by
  cases h with
  | store key recordSize =>
    by_cases hcapacity : a.capacity = 0
    · have heq : a.store key recordSize = a := by
        unfold Storage.store
        rw [if_pos hcapacity]
      rw [heq]
      exact .noStore hcapacity
    · obtain ⟨hops, hstage, hfiles, hnext⟩ := store_spec hcapacity key recordSize
      exact .store hcapacity hops hstage hfiles hnext
  | retrieve key => exact .same (fun _ _ => nofun) (SameWrites.refl a)
  | setCapacity capacity blobSize =>
    refine .same (fun _ _ => nofun) (SameWrites.trans ?_ (sameWrites_shrinkIfNeeded _ blobSize))
    exact ⟨List.Perm.refl _, rfl, rfl, rfl⟩
  | createFile op hactive hstage => exact .createFile op (mem_append_right _ hactive) hstage
  | writeFile op error hactive hstage =>
    exact .writeFile op error (mem_append_right _ hactive) hstage
  | didWrite op blobSize hactive hstage =>
    obtain ⟨hops, hwriteStage, hfiles, hnext⟩ := didWrite_spec hactive blobSize
    exact .didWrite (mem_append_right _ hactive) hstage hops hwriteStage hfiles hnext
  | deleteFile path => exact .deleteFile path
  | beginTraversal | endTraversal | didSynchronize =>
    exact .same (fun _ _ => nofun) ⟨List.Perm.refl _, rfl, rfl, rfl⟩
  | visitFile path =>
    unfold Storage.visitFile
    split
    · rename_i unvisited found recordsSize file htrav hfile
      split
      · rename_i hsize
        exact .visitEmpty path file hfile hsize
      · exact .same (fun _ _ => nofun) ⟨List.Perm.refl _, rfl, rfl, rfl⟩
    · exact .same (fun _ _ => nofun) (SameWrites.refl a)
  | shrinkFile path hshrinking => exact .shrinkFile path
  | endShrink hshrinking => exact .same (fun _ _ => nofun) ⟨List.Perm.refl _, rfl, rfl, rfl⟩
  | didShrink hshrinking =>
    refine .same (fun _ _ => nofun) (SameWrites.trans ?_ (sameWrites_synchronize _))
    exact ⟨List.Perm.refl _, rfl, rfl, rfl⟩

/-- The file at a path, and those that will replace it, belong to this write operation or to later
ones. -/
structure NotBefore (a : Storage) (path : Path) (n : ℕ) : Prop where
  le_next : n ≤ a.nextWriteOperation
  files : ∀ file, a.files path = some file → n ≤ file.writer
  operations : ∀ op ∈ a.operations, recordPathForKey op.key = path → n ≤ op.id

theorem files_writeFile {error : Bool} {file : File}
    (hfile : (a.writeFile op error).files path = some file) :
    ∃ old, a.files path = some old ∧ old.writer = file.writer := by
  unfold writeFile at hfile
  dsimp only at hfile
  split at hfile
  · rename_i hcond
    rw [Bool.and_eq_true, beq_iff_eq, Option.map_eq_some_iff] at hcond
    obtain ⟨-, old, hold, hwriter⟩ := hcond
    by_cases hpath : path = recordPathForKey op.key
    · rw [hpath, update_self] at hfile
      cases hfile
      exact ⟨old, hpath ▸ hold, hwriter⟩
    · rw [update_of_ne hpath] at hfile
      exact ⟨file, hfile, rfl⟩
  · exact ⟨file, hfile, rfl⟩

theorem files_deleteFile {deleted : Path} {file : File}
    (hfile : (a.deleteFile deleted).files path = some file) : a.files path = some file := by
  unfold deleteFile at hfile
  dsimp only at hfile
  by_cases hpath : path = deleted
  · rw [hpath, update_self] at hfile
    cases hfile
  · rwa [update_of_ne hpath] at hfile

theorem files_deleteFile_cases (a : Storage) (deleted path : Path) :
    (a.deleteFile deleted).files path = a.files path ∨
      (a.deleteFile deleted).files path = none := by
  by_cases hpath : path = deleted
  · rw [hpath]
    exact .inr (update_self _ _ _)
  · exact .inl (update_of_ne hpath _ _)

theorem NotBefore.deleteFile (h : a.NotBefore path n) (deleted : Path) :
    (a.deleteFile deleted).NotBefore path n where
  le_next := h.le_next
  files file hfile := h.files file (files_deleteFile hfile)
  operations := h.operations

theorem NotBefore.effect (h : a.NotBefore path n) (hnodup : a.operations.Nodup)
    (heffect : Effect a event b) : b.NotBefore path n := by
  cases heffect with
  | same _ hsame =>
    constructor
    · rw [hsame.nextWriteOperation]
      exact h.le_next
    · rw [hsame.files]
      exact h.files
    · intro op hmem
      exact h.operations op (hsame.operations.mem_iff.mp hmem)
  | store _ hops _ hfiles hnext =>
    constructor
    · rw [hnext]
      exact Nat.le_succ_of_le h.le_next
    · rw [hfiles]
      exact h.files
    · intro op hmem hpath
      rcases mem_cons.mp (hops.mem_iff.mp hmem) with rfl | hold
      · exact h.le_next
      · exact h.operations op hold hpath
  | noStore _ => exact h
  | createFile op hmem _ =>
    refine ⟨h.le_next, ?_, h.operations⟩
    intro file hfile
    unfold Storage.createFile at hfile
    dsimp only at hfile
    by_cases hpath : path = recordPathForKey op.key
    · rw [hpath, update_self] at hfile
      cases hfile
      exact h.operations op hmem hpath.symm
    · rw [update_of_ne hpath] at hfile
      exact h.files file hfile
  | writeFile op error _ _ =>
    refine ⟨h.le_next, ?_, h.operations⟩
    intro file hfile
    obtain ⟨old, hold, hwriter⟩ := files_writeFile hfile
    rw [← hwriter]
    exact h.files old hold
  | didWrite _ _ hops _ hfiles hnext =>
    constructor
    · rw [hnext]
      exact h.le_next
    · rw [hfiles]
      exact h.files
    · intro op hmem
      exact h.operations op (mem_of_mem_erase ((hops hnodup).mem_iff.mp hmem))
  | deleteFile deleted | shrinkFile deleted | visitEmpty deleted => exact h.deleteFile deleted

/-- The file of the operation has this size, unless something else has interfered. -/
def HasFile (a : Storage) (disturbed : Bool) (op : WriteOperation) (size : ℕ) : Prop :=
  a.files (recordPathForKey op.key) = some ⟨op.id, size⟩ ∨
    disturbed = true ∧ ∀ file, a.files (recordPathForKey op.key) = some file → file.writer = op.id

/-- The file of an operation that is the last request of its key. -/
def Progress (a : Storage) (disturbed : Bool) (op : WriteOperation) : Prop :=
  op ∈ a.operations ∧ a.writeStage op.id = .dispatched ∨
    op ∈ a.operations ∧ a.writeStage op.id = .created ∧ a.HasFile disturbed op 0 ∨
    (op ∈ a.operations → a.writeStage op.id = .written) ∧ a.HasFile disturbed op op.recordSize

theorem HasFile.congr {d d' : Bool} {size : ℕ} (h : a.HasFile d op size)
    (hfile : b.files (recordPathForKey op.key) = a.files (recordPathForKey op.key))
    (hd : d = true → d' = true) : b.HasFile d' op size := by
  unfold HasFile
  rw [hfile]
  rcases h with hsome | ⟨hdisturbed, hwriter⟩
  · exact .inl hsome
  · exact .inr ⟨hd hdisturbed, hwriter⟩

variable {d : Bool}

theorem HasFile.writer {size : ℕ} (h : a.HasFile d op size) :
    ∀ file, a.files (recordPathForKey op.key) = some file → file.writer = op.id := by
  intro file hfile
  rcases h with hsome | ⟨-, hwriter⟩
  · rw [hsome] at hfile
    cases hfile
    rfl
  · exact hwriter file hfile

theorem Progress.congr {d d' : Bool} (h : a.Progress d op)
    (hmem : op ∈ b.operations ↔ op ∈ a.operations)
    (hstage : b.writeStage op.id = a.writeStage op.id)
    (hfile : b.files (recordPathForKey op.key) = a.files (recordPathForKey op.key))
    (hd : d = true → d' = true) : b.Progress d' op := by
  unfold Progress
  rw [hmem, hstage]
  rcases h with hdisp | ⟨hop, hcreated, hhas⟩ | ⟨hwritten, hhas⟩
  · exact .inl hdisp
  · exact .inr (.inl ⟨hop, hcreated, hhas.congr hfile hd⟩)
  · exact .inr (.inr ⟨hwritten, hhas.congr hfile hd⟩)

theorem HasFile.deleteFile {size : ℕ} (h : a.HasFile d op size) (deleted : Path) :
    (a.deleteFile deleted).HasFile true op size :=
  .inr ⟨rfl, fun file hfile => h.writer file (files_deleteFile hfile)⟩

theorem Progress.deleteFile (h : a.Progress d op) (deleted : Path) :
    (a.deleteFile deleted).Progress true op := by
  rcases h with hdisp | ⟨hop, hcreated, hhas⟩ | ⟨hwritten, hhas⟩
  · exact .inl hdisp
  · exact .inr (.inl ⟨hop, hcreated, hhas.deleteFile deleted⟩)
  · exact .inr (.inr ⟨hwritten, hhas.deleteFile deleted⟩)

theorem Progress.createFile (hmem : op ∈ a.operations) : (a.createFile op).Progress d op := by
  refine .inr (.inl ⟨hmem, ?_, .inl ?_⟩)
  all_goals exact update_self _ _ _

theorem Progress.of_created (h : a.Progress d op) (hmem : op ∈ a.operations)
    (hstage : a.writeStage op.id = .created) : a.HasFile d op 0 := by
  rcases h with ⟨-, hdisp⟩ | ⟨-, -, hhas⟩ | ⟨hwritten, -⟩
  · rw [hstage] at hdisp
    cases hdisp
  · exact hhas
  · have hstage' := hwritten hmem
    rw [hstage] at hstage'
    cases hstage'

theorem Progress.of_written (h : a.Progress d op)
    (hstage : a.writeStage op.id = .written) : a.HasFile d op op.recordSize := by
  rcases h with ⟨-, hdisp⟩ | ⟨-, hcreated, -⟩ | ⟨-, hhas⟩
  · rw [hstage] at hdisp
    cases hdisp
  · rw [hstage] at hcreated
    cases hcreated
  · exact hhas

theorem Progress.writeFile (h : a.Progress d op) (hmem : op ∈ a.operations)
    (hstage : a.writeStage op.id = .created) (error : Bool) :
    (a.writeFile op error).Progress (d || error) op := by
  have hhas := h.of_created hmem hstage
  refine Or.inr (Or.inr ⟨fun _ => update_self _ _ _, ?_⟩)
  have hwriter : ∀ file, (a.writeFile op error).files (recordPathForKey op.key) = some file →
      file.writer = op.id := by
    intro file hfile
    obtain ⟨old, hold, heq⟩ := files_writeFile hfile
    rw [← heq]
    exact hhas.writer old hold
  cases error with
  | true => exact Or.inr ⟨Bool.or_true d, hwriter⟩
  | false =>
    rcases hhas with hsome | ⟨hdisturbed, -⟩
    · apply Or.inl
      have hcond : (!false && ((a.files (recordPathForKey op.key)).map File.writer ==
          some op.id)) = true := by
        rw [hsome, Bool.and_eq_true, beq_iff_eq]
        exact ⟨rfl, rfl⟩
      unfold Storage.writeFile
      dsimp only
      rw [if_pos hcond, update_self]
    · exact Or.inr ⟨by rw [hdisturbed]; rfl, hwriter⟩

end Storage

end WebKit.NetworkCache
