import WebKit.NetworkCache.CacheStorage

/-!
# The record filter has no false negatives, when no write is lost by a synchronization

While a synchronization is in progress, every record is either in the list of hashes added
meanwhile, or the traversal has found its file or still has to, or it belongs to a write
operation from before the synchronization (`Invariant`). The new filter lacks the last
kind. A run in which nothing is left of such an operation, or its file has been found, by
the time the filters are swapped keeps the filter complete (`record_filter_sound`).
-/

namespace WebKit.NetworkCache.Storage

open WTF Transition Function List List.Subset BloomFilter Storage

/-- The record is a file with content. -/
def OnDisk (storage : Storage) (path : Path) : Prop :=
  ∃ file, storage.files path = some file ∧ file.size ≠ 0

/-- The record is pending, being written or on disk. -/
def Live (storage : Storage) (path : Path) : Prop :=
  (∃ writeOperation ∈ storage.pendingWriteOperations ++ storage.activeWriteOperations,
    recordPathForKey writeOperation.key = path) ∨ storage.OnDisk path

/-- A record that the new filter will have, or that an operation from before the
synchronization is writing. -/
def Accounted (storage : Storage) (found : List Digest) (path : Path) : Prop :=
  path.hash ∈ storage.recordFilterHashesAddedDuringSynchronization ∨ path.hash ∈ found ∨
    ∃ writeOperation ∈ storage.operationsAtSynchronize, recordPathForKey writeOperation.key = path

/-- What is known of a file while the directories are traversed. -/
def Traversed (storage : Storage) : Traversal → Path → Prop
  | .none, _ | .queued, _ => True
  | .running unvisited found _, path => unvisited path = true ∨ storage.Accounted found path
  | .done found _, path => storage.Accounted found path

structure Invariant (storage : Storage) : Prop where
  filter : ∀ filter, storage.recordFilter = some filter →
    ∀ path, storage.Live path → filter.mayContain path.hash = true
  operations : storage.synchronizationInProgress = true →
    ∀ writeOperation ∈ storage.pendingWriteOperations ++ storage.activeWriteOperations,
      storage.Accounted [] (recordPathForKey writeOperation.key)
  traversed : ∀ path, storage.OnDisk path → storage.Traversed storage.traversal path
  idle : storage.synchronizationInProgress = false → storage.traversal = .none

variable {storage : Storage} {path : Path} {key : Key} {writeOperation : WriteOperation}
  {found : List Digest}

variable {storage' : Storage}

theorem Accounted.mono {found' : List Digest} (h : storage.Accounted found path)
    (hadded : storage.recordFilterHashesAddedDuringSynchronization ⊆
      storage'.recordFilterHashesAddedDuringSynchronization)
    (hfound : found ⊆ found')
    (hops : storage.operationsAtSynchronize ⊆ storage'.operationsAtSynchronize) :
    storage'.Accounted found' path := by
  rcases h with h | h | ⟨writeOperation, h, hpath⟩
  · exact .inl (hadded h)
  · exact .inr (.inl (hfound h))
  · exact .inr (.inr ⟨writeOperation, hops h, hpath⟩)

variable {traversal : Traversal}

theorem Traversed.mono (h : storage.Traversed traversal path)
    (hadded : storage.recordFilterHashesAddedDuringSynchronization ⊆
      storage'.recordFilterHashesAddedDuringSynchronization)
    (hops : storage.operationsAtSynchronize ⊆ storage'.operationsAtSynchronize) :
    storage'.Traversed traversal path := by
  cases traversal with
  | none | queued => trivial
  | running unvisited found recordsSize =>
    rcases h with h | h
    · exact .inl h
    · exact .inr (h.mono hadded (refl found) hops)
  | done found recordsSize => exact Accounted.mono h hadded (refl found) hops

/-! ## Main-thread functions -/

theorem mem_addToRecordFilter (h : storage.synchronizationInProgress = true) : key.hash ∈
      (storage.addToRecordFilter key).recordFilterHashesAddedDuringSynchronization := by
  simp [addToRecordFilter, h]

theorem subset_addToRecordFilter : storage.recordFilterHashesAddedDuringSynchronization ⊆
      (storage.addToRecordFilter key).recordFilterHashesAddedDuringSynchronization := by
  unfold addToRecordFilter
  split
  · exact subset_append_left _ _
  · exact refl _

section

variable {storage' : Storage} (h : storage.Invariant)
    (hfilter : storage'.recordFilter = storage.recordFilter)
    (hprogress : storage'.synchronizationInProgress = storage.synchronizationInProgress)
    (hadded : storage'.recordFilterHashesAddedDuringSynchronization =
      storage.recordFilterHashesAddedDuringSynchronization)
    (htraversal : storage'.traversal = storage.traversal)
    (hfiles : storage'.files = storage.files)
    (hbefore : storage'.operationsAtSynchronize = storage.operationsAtSynchronize)
include h hfilter hprogress hadded htraversal hfiles hbefore

theorem Invariant.of_subset
    (hops : storage'.pendingWriteOperations ++ storage'.activeWriteOperations ⊆
      storage.pendingWriteOperations ++ storage.activeWriteOperations) :
    storage'.Invariant := by
  have hdisk : ∀ path, storage'.OnDisk path → storage.OnDisk path := by
    rintro path ⟨file, hfile, hsize⟩
    exact ⟨file, hfiles ▸ hfile, hsize⟩
  refine ⟨fun filter hsome path hlive => ?_, fun hsync op hop => ?_, fun path hpath => ?_,
    fun hsync => ?_⟩
  · refine h.filter filter (hfilter ▸ hsome) path ?_
    rcases hlive with ⟨op, hop, rfl⟩ | hlive
    · exact .inl ⟨op, hops hop, rfl⟩
    · exact .inr (hdisk path hlive)
  · exact (h.operations (hprogress ▸ hsync) op (hops hop)).mono
      (hadded ▸ refl _) (refl []) (hbefore ▸ refl _)
  · rw [htraversal]
    exact (h.traversed path (hdisk path hpath)).mono (hadded ▸ refl _) (hbefore ▸ refl _)
  · exact htraversal.trans (h.idle (hprogress ▸ hsync))

/-- Adding a key keeps the invariant, also when it is the key of a new write operation. -/
theorem Invariant.addToRecordFilter (hops : ∀ writeOperation ∈
        storage'.pendingWriteOperations ++ storage'.activeWriteOperations,
      writeOperation ∈ storage.pendingWriteOperations ++ storage.activeWriteOperations ∨
        writeOperation.key = key) :
    (storage'.addToRecordFilter key).Invariant := by
  have hsub : storage.recordFilterHashesAddedDuringSynchronization ⊆
      (storage'.addToRecordFilter key).recordFilterHashesAddedDuringSynchronization :=
    hadded ▸ subset_addToRecordFilter
  have hdisk : ∀ path, (storage'.addToRecordFilter key).OnDisk path → storage.OnDisk path := by
    rintro path ⟨file, hfile, hsize⟩
    exact ⟨file, hfiles ▸ hfile, hsize⟩
  refine ⟨fun filter hsome path hlive => ?_, fun hsync op hop => ?_, fun path hpath => ?_,
    fun hsync => ?_⟩
  · cases hold : storage.recordFilter with
    | none => simp [Storage.addToRecordFilter, hfilter, hold] at hsome
    | some old =>
      obtain rfl : old.add key.hash = filter := by
        simpa [Storage.addToRecordFilter, hfilter, hold] using hsome
      rcases hlive with ⟨op, hop, rfl⟩ | hlive
      · rcases hops op hop with hop | hop
        · exact mayContain_add (h.filter old hold _ (.inl ⟨op, hop, rfl⟩))
        · rw [recordPathForKey, hop]
          exact mayContain_add_self
      · exact mayContain_add (h.filter old hold path (.inr (hdisk path hlive)))
  · have hsync' : storage'.synchronizationInProgress = true := hsync
    rcases hops op hop with hop | hop
    · exact (h.operations (hprogress ▸ hsync') op hop).mono hsub (refl []) (hbefore ▸ refl _)
    · rw [hop]
      exact .inl (mem_addToRecordFilter hsync')
  · have htraversed := h.traversed path (hdisk path hpath)
    rw [← htraversal] at htraversed
    exact htraversed.mono hsub (hbefore ▸ refl _)
  · have hsync' : storage'.synchronizationInProgress = false := hsync
    exact htraversal.trans (h.idle (hprogress ▸ hsync'))

end

theorem Invariant.dispatchWriteOperations {pending : List WriteOperation}
    (h : storage.Invariant) (hpend : storage.pendingWriteOperations = pending) :
    (storage.dispatchWriteOperations pending).Invariant := by
  induction pending generalizing storage with
  | nil =>
    rw [dispatchWriteOperations, ← hpend]
    exact h
  | cons writeOperation rest ih =>
    rw [dispatchWriteOperations]
    split
    · rw [← hpend]
      exact h
    · refine ih (h.addToRecordFilter rfl rfl rfl rfl rfl rfl fun op hop => ?_) rfl
      left
      grind

section

variable (h : storage.Invariant)
include h

theorem Invariant.dispatchPendingWriteOperations :
    storage.dispatchPendingWriteOperations.Invariant :=
  h.dispatchWriteOperations rfl

theorem Invariant.store (key : Key) (recordSize : ℕ) :
    (storage.store key recordSize).Invariant := by
  unfold Storage.store
  split
  · exact h
  · refine Invariant.dispatchPendingWriteOperations ?_
    refine h.addToRecordFilter rfl rfl rfl rfl rfl rfl fun op hop => ?_
    simp only [mem_append, mem_singleton] at hop ⊢
    rcases hop with (hop | rfl) | hop
    · exact .inl (.inl hop)
    · exact .inr rfl
    · exact .inl (.inr hop)

theorem Invariant.shrinkIfNeeded (blobSize : ℕ) :
    (storage.shrinkIfNeeded blobSize).Invariant := by
  unfold Storage.shrinkIfNeeded Storage.shrink
  split
  · split
    · exact h
    · exact h.of_subset rfl rfl rfl rfl rfl rfl (refl _)
  · exact h

theorem Invariant.didWrite (blobSize : ℕ) :
    (storage.didWrite writeOperation blobSize).Invariant := by
  refine Invariant.shrinkIfNeeded (Invariant.dispatchPendingWriteOperations ?_) blobSize
  refine h.of_subset rfl rfl rfl rfl rfl rfl fun op hop => ?_
  rcases mem_append.mp hop with hop | hop
  · exact mem_append_left _ hop
  · exact mem_append_right _ (mem_of_mem_erase hop)

theorem Invariant.synchronize : storage.synchronize.Invariant := by
  unfold Storage.synchronize
  split
  · exact h
  · refine ⟨h.filter, fun _ op hop => .inr (.inr ⟨op, hop, rfl⟩), fun _ _ => trivial, ?_⟩
    rintro ⟨⟩

end

theorem create_invariant (capacity : ℕ) (files : Path → Option File) :
    (create capacity files).Invariant := by
  refine Invariant.synchronize ⟨?_, ?_, fun _ _ => trivial, fun _ => rfl⟩
  · rintro filter ⟨⟩
  · rintro ⟨⟩

theorem Invariant.didShrink (h : storage.Invariant) : storage.didShrink.Invariant :=
  Invariant.synchronize (h.of_subset rfl rfl rfl rfl rfl rfl (refl _))

/-! ## Background tasks -/

theorem Traversed.forget {other : Path}
    (h : storage.Traversed traversal path) (hne : path ≠ other) :
    storage.Traversed (traversal.forget other) path := by
  cases traversal with
  | none | queued => trivial
  | running unvisited found recordsSize =>
    rcases h with h | h
    · exact .inl (by rw [update_of_ne hne]; exact h)
    · exact .inr h
  | done found recordsSize => exact h

theorem forget_eq_none (h : traversal = .none) : traversal.forget path = .none := by
  rw [h]
  rfl

section

variable (h : storage.Invariant)
include h

theorem Invariant.replaceFile (file : Option File)
    (hfile : ∀ f, file = some f → f.size = 0)
    (hfilter : storage'.recordFilter = storage.recordFilter)
    (hprogress : storage'.synchronizationInProgress = storage.synchronizationInProgress)
    (hadded : storage'.recordFilterHashesAddedDuringSynchronization =
      storage.recordFilterHashesAddedDuringSynchronization)
    (htraversal : storage'.traversal = storage.traversal.forget path)
    (hfiles : storage'.files = update storage.files path file)
    (hbefore : storage'.operationsAtSynchronize = storage.operationsAtSynchronize)
    (hpend : storage'.pendingWriteOperations = storage.pendingWriteOperations)
    (hactive : storage'.activeWriteOperations = storage.activeWriteOperations) :
    storage'.Invariant := by
  have hdisk : ∀ other, storage'.OnDisk other → other ≠ path ∧ storage.OnDisk other := by
    rintro other ⟨f, hf, hsize⟩
    rw [hfiles] at hf
    by_cases hother : other = path
    · subst hother
      rw [update_self] at hf
      exact absurd (hfile f hf) hsize
    · exact ⟨hother, f, by rwa [update_of_ne hother] at hf, hsize⟩
  refine ⟨fun filter hsome other hlive => ?_, fun hsync op hop => ?_, fun other hother => ?_,
    fun hsync => ?_⟩
  · refine h.filter filter (hfilter ▸ hsome) other ?_
    rcases hlive with ⟨op, hop, rfl⟩ | hlive
    · exact .inl ⟨op, by rwa [hpend, hactive] at hop, rfl⟩
    · exact .inr (hdisk other hlive).2
  · rw [hpend, hactive] at hop
    exact (h.operations (hprogress ▸ hsync) op hop).mono
      (hadded ▸ refl _) (refl []) (hbefore ▸ refl _)
  · obtain ⟨hne, hold⟩ := hdisk other hother
    rw [htraversal]
    exact ((h.traversed other hold).forget hne).mono (hadded ▸ refl _) (hbefore ▸ refl _)
  · exact htraversal.trans (forget_eq_none (h.idle (hprogress ▸ hsync)))

theorem Invariant.deleteFile (path : Path) :
    (storage.deleteFile path).Invariant :=
  h.replaceFile none (fun _ hf => (by cases hf)) rfl rfl rfl rfl rfl rfl rfl rfl

theorem Invariant.createFile :
    (storage.createFile writeOperation).Invariant := by
  refine h.replaceFile (some ⟨writeOperation.id, 0⟩) ?_ rfl rfl rfl rfl rfl rfl rfl rfl
  rintro f hf
  cases hf
  rfl

theorem Invariant.writeFile
    (hactive : writeOperation ∈ storage.activeWriteOperations) (error : Bool) :
    (storage.writeFile writeOperation error).Invariant := by
  have hmem : writeOperation ∈ storage.pendingWriteOperations ++ storage.activeWriteOperations :=
    mem_append_right _ hactive
  have hdisk : ∀ path, (storage.writeFile writeOperation error).OnDisk path →
      path = recordPathForKey writeOperation.key ∨ storage.OnDisk path := by
    rintro path ⟨file, hfile, hsize⟩
    by_cases hpath : path = recordPathForKey writeOperation.key
    · exact .inl hpath
    · refine .inr ⟨file, ?_, hsize⟩
      unfold Storage.writeFile at hfile
      dsimp only at hfile
      split at hfile
      · rwa [update_of_ne hpath] at hfile
      · exact hfile
  refine ⟨fun filter hsome path hlive => h.filter filter hsome path ?_, h.operations,
    fun path hpath => ?_, h.idle⟩
  · rcases hlive with hlive | hlive
    · exact .inl hlive
    · rcases hdisk path hlive with rfl | hlive
      · exact .inl ⟨writeOperation, hmem, rfl⟩
      · exact .inr hlive
  · rcases hdisk path hpath with rfl | hold
    · cases hprogress : storage.synchronizationInProgress with
      | false =>
        have hnone : (storage.writeFile writeOperation error).traversal = .none := h.idle hprogress
        rw [hnone]
        trivial
      | true =>
        have haccounted := h.operations hprogress writeOperation hmem
        have htraversed : ∀ traversal, storage.Traversed traversal
            (recordPathForKey writeOperation.key) := by
          intro traversal
          cases traversal with
          | none => trivial
          | queued => trivial
          | running unvisited found recordsSize =>
            exact .inr (haccounted.mono (refl _) (nil_subset found) (refl _))
          | done found recordsSize =>
            exact haccounted.mono (refl _) (nil_subset found) (refl _)
        exact htraversed _
    · exact h.traversed path hold

theorem Invariant.beginTraversal
    (htraversal : storage.traversal = .queued) : storage.beginTraversal.Invariant := by
  refine ⟨h.filter, h.operations, ?_, fun hsync => ?_⟩
  · rintro path ⟨file, hfile, -⟩
    exact .inl (Option.isSome_iff_exists.mpr ⟨file, hfile⟩)
  · exact absurd (htraversal.symm.trans (h.idle hsync)) (by rintro ⟨⟩)

theorem Invariant.visitFile (path : Path) :
    (storage.visitFile path).Invariant := by
  unfold Storage.visitFile
  split
  · next unvisited found recordsSize file htraversal hfile =>
    split
    · exact h.deleteFile path
    · refine ⟨h.filter, h.operations, fun other hother => ?_, fun hsync => ?_⟩
      · have hold := h.traversed other hother
        rw [htraversal] at hold
        by_cases hpath : other = path
        · exact .inr (.inr (.inl (mem_append_right _ (by rw [hpath]; simp))))
        · rcases hold with hold | hold
          · exact .inl (by rwa [update_of_ne hpath])
          · exact .inr (hold.mono (refl _) (subset_append_left _ _) (refl _))
      · exact absurd (htraversal.symm.trans (h.idle hsync)) (by rintro ⟨⟩)
  · exact h

end

theorem Invariant.endTraversal {unvisited : Path → Bool} {recordsSize : ℕ}
    (h : storage.Invariant) (htraversal : storage.traversal = .running unvisited found recordsSize)
    (hvisited : ∀ path, unvisited path = false) :
    ({ storage with traversal := .done found recordsSize } : Storage).Invariant := by
  refine ⟨h.filter, h.operations, fun path hpath => ?_, fun hsync => ?_⟩
  · have hold := h.traversed path hpath
    rw [htraversal] at hold
    exact hold.resolve_left (by rw [hvisited path]; exact Bool.noConfusion)
  · exact absurd (htraversal.symm.trans (h.idle hsync)) (by rintro ⟨⟩)

/-- A write operation from before the synchronization is not lost: it has been dispatched
since, the traversal has found its file, or nothing is left of it. -/
def NotLost (storage : Storage) (found : List Digest) (writeOperation : WriteOperation) : Prop :=
  writeOperation.key.hash ∈ storage.recordFilterHashesAddedDuringSynchronization ∨
    writeOperation.key.hash ∈ found ∨ ¬storage.Live (recordPathForKey writeOperation.key)

/-- The condition on the events: no write operation is lost when the filters are swapped. -/
def SwapsInTime (storage : Storage) : Event → Prop
  | .didSynchronize => ∀ found recordsSize, storage.traversal = .done found recordsSize →
      ∀ writeOperation ∈ storage.operationsAtSynchronize, storage.NotLost found writeOperation
  | _ => True

theorem Accounted.mayContain (h : storage.Accounted found path) (hlive : storage.Live path)
    (hlost : ∀ writeOperation ∈ storage.operationsAtSynchronize,
      storage.NotLost found writeOperation) :
    ((({} : ContentsFilter).addAll found).addAll
      storage.recordFilterHashesAddedDuringSynchronization).mayContain path.hash = true := by
  rcases h with h | h | ⟨op, hop, rfl⟩
  · exact mayContain_addAll h
  · exact mayContain_addAll_of_mayContain (mayContain_addAll h)
  · rcases hlost op hop with h | h | h
    · exact mayContain_addAll h
    · exact mayContain_addAll_of_mayContain (mayContain_addAll h)
    · exact absurd hlive h

theorem Invariant.didSynchronize {recordsSize : ℕ} (h : storage.Invariant)
    (htraversal : storage.traversal = .done found recordsSize)
    (hlost : ∀ writeOperation ∈ storage.operationsAtSynchronize,
      storage.NotLost found writeOperation) :
    (storage.didSynchronize found recordsSize).Invariant := by
  have hprogress : storage.synchronizationInProgress = true := by
    by_contra hsync
    have hnone := h.idle (Bool.not_eq_true _ ▸ hsync)
    rw [htraversal] at hnone
    cases hnone
  have haccounted : ∀ path, storage.Live path → storage.Accounted found path := by
    rintro path (⟨op, hop, rfl⟩ | hdisk)
    · exact (h.operations hprogress op hop).mono (refl _) (nil_subset found) (refl _)
    · have := h.traversed path hdisk
      rwa [htraversal] at this
  refine ⟨fun filter hsome path hlive => ?_, ?_, fun _ _ => trivial, fun _ => rfl⟩
  · cases hsome
    exact (haccounted path hlive).mayContain hlive hlost
  · rintro ⟨⟩

theorem Invariant.step {event : Event} (h : storage.Invariant)
    (hguard : storage.SwapsInTime event) (hstep : Step storage event storage') :
    storage'.Invariant := by
  cases hstep with
  | store key recordSize => exact h.store key recordSize
  | retrieve key => exact h
  | setCapacity capacity blobSize =>
    refine Invariant.shrinkIfNeeded ?_ blobSize
    exact h.of_subset rfl rfl rfl rfl rfl rfl (refl _)
  | createFile writeOperation hactive hstage => exact h.createFile
  | writeFile writeOperation error hactive hstage => exact h.writeFile hactive error
  | didWrite writeOperation blobSize hactive hstage => exact h.didWrite blobSize
  | deleteFile path | shrinkFile path => exact h.deleteFile path
  | beginTraversal htraversal => exact h.beginTraversal htraversal
  | visitFile path => exact h.visitFile path
  | endTraversal unvisited found recordsSize htraversal hvisited =>
    exact h.endTraversal htraversal hvisited
  | didSynchronize found recordsSize htraversal =>
    exact h.didSynchronize htraversal (hguard found recordsSize htraversal)
  | endShrink hshrinking =>
    exact h.of_subset rfl rfl rfl rfl rfl rfl (refl _)
  | didShrink hshrinking => exact h.didShrink

theorem Invariant.mayContain (h : storage.Invariant)
    (hlive : storage.Live (recordPathForKey key)) : storage.mayContain key = true := by
  unfold Storage.mayContain
  split
  · rfl
  · next filter hfilter => exact h.filter filter hfilter _ hlive

theorem retrieve_ne_notInFilter (h : storage.mayContain key = true) :
    storage.retrieve key ≠ .notInFilter := by
  unfold retrieve
  split
  · exact Retrieval.noConfusion
  · rw [h, Bool.not_true, if_neg Bool.false_ne_true]
    split
    · exact Retrieval.noConfusion
    · split <;> exact Retrieval.noConfusion

/-- In a run that loses no write operation, a record that is pending, being written or on
disk is never reported missing by the filter. -/
theorem record_filter_sound {capacity : ℕ} {files : Path → Option File} {events : List Event}
    (hrun : Run (guarded Step SwapsInTime) (create capacity files) events storage)
    (hlive : storage.Live (recordPathForKey key)) :
    storage.mayContain key = true ∧ storage.retrieve key ≠ .notInFilter := by
  have h : storage.Invariant := hrun.preserves
    (fun _ _ _ h hstep => h.step hstep.1 hstep.2) (create_invariant capacity files)
  exact ⟨h.mayContain hlive, retrieve_ne_notInFilter (h.mayContain hlive)⟩

/-- A record that has just been stored. -/
theorem record_filter_sound_store :
    ((create 1 fun _ => none).store ⟨0, 0, 0⟩ 1).retrieve ⟨0, 0, 0⟩ ≠ .notInFilter := by
  have hrun : Run (guarded Step SwapsInTime) (create 1 fun _ => none) [.store ⟨0, 0, 0⟩ 1]
      ((create 1 fun _ => none).store ⟨0, 0, 0⟩ 1) := .single ⟨trivial, .store ⟨0, 0, 0⟩ 1⟩
  have hlive : ((create 1 fun _ => none).store ⟨0, 0, 0⟩ 1).Live (recordPathForKey ⟨0, 0, 0⟩) :=
    .inl ⟨⟨0, ⟨0, 0, 0⟩, 1⟩, by decide, rfl⟩
  exact (record_filter_sound hrun hlive).2

def firstWrite : WriteOperation := ⟨0, ⟨0, 0, 0⟩, 10⟩

def secondWrite : WriteOperation := ⟨1, ⟨0, 1, 1⟩, 10⟩

/-- Two records are stored after the first synchronization. The write of the first makes
the cache shrink and synchronize again while the second is active. -/
def synchronizingAgain : Storage :=
  let storage := ((create 1 fun _ => none).beginTraversal).didSynchronize [] 0
  let storage := (storage.store firstWrite.key 10).store secondWrite.key 10
  let storage := (storage.createFile firstWrite).writeFile firstWrite false
  ((({ storage.didWrite firstWrite 0 with shrinking := .done }).didShrink).beginTraversal).visitFile
    (recordPathForKey firstWrite.key)

theorem run_synchronizingAgain : Run Step (create 1 fun _ => none)
      [.beginTraversal, .endTraversal, .didSynchronize, .store firstWrite.key 10,
        .store secondWrite.key 10, .createFile firstWrite, .writeFile firstWrite false,
        .didWrite firstWrite 0, .endShrink, .didShrink, .beginTraversal,
        .visitFile (recordPathForKey firstWrite.key)] synchronizingAgain :=
  .cons (.beginTraversal rfl) <| .cons (.endTraversal _ _ _ rfl fun _ => rfl) <|
    .cons (.didSynchronize [] 0 rfl) <| .cons (.store _ _) <| .cons (.store _ _) <|
    .cons (.createFile firstWrite (by decide) rfl) <|
    .cons (.writeFile firstWrite false (by decide) rfl) <|
    .cons (.didWrite firstWrite 0 (by decide) rfl) <| .cons (.endShrink rfl) <|
    .cons (.didShrink rfl) <| .cons (.beginTraversal rfl) <| .cons (.visitFile _) <| .nil _

theorem visited_synchronizingAgain (path : Path) :
    update (fun path => (synchronizingAgain.files path).isSome)
      (recordPathForKey firstWrite.key) false path = false := by
  by_cases hpath : path = recordPathForKey firstWrite.key
  · rw [hpath, update_self]
  · have hfiles : synchronizingAgain.files path = update (update
        (fun _ => none) (recordPathForKey firstWrite.key) (some ⟨0, 0⟩))
        (recordPathForKey firstWrite.key) (some ⟨0, 10⟩) path := rfl
    rw [update_of_ne hpath, hfiles, update_of_ne hpath, update_of_ne hpath]
    rfl

/-- The filters are swapped before the second record is written, and the filter denies it. -/
theorem not_record_filter_sound :
    ¬∀ (capacity : ℕ) (files : Path → Option File) (events : List Event) (storage : Storage)
      (key : Key), Run Step (create capacity files) events storage →
        storage.Live (recordPathForKey key) →
          storage.mayContain key = true ∧ storage.retrieve key ≠ .notInFilter := by
  intro h
  have hrun := (run_synchronizingAgain.snoc
    (.endTraversal _ [firstWrite.key.hash] 10 rfl visited_synchronizingAgain)).snoc
    (.didSynchronize [firstWrite.key.hash] 10 rfl)
  have hmay := (h _ _ _ _ secondWrite.key hrun (.inl ⟨secondWrite, by decide, rfl⟩)).1
  revert hmay
  decide

end WebKit.NetworkCache.Storage
