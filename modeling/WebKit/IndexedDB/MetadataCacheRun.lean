import WebKit.IndexedDB.MetadataCacheSteps

/-!
# Runs that keep the cached metadata

The cached metadata stays the stored one as long as nothing happens in the backing store that
the cache does not follow (`Followed`): a success of an index operation, the end of a
version-change transaction that takes changes with it, and a failure that leaves changes behind
or that other requests about the same part do not wait for.
-/

namespace WebKit.IndexedDB

open Transition Function List DatabaseTask UniqueIDBDatabase MainThreadTask Option Frames Prod
open DatabaseMetadata
open DatabaseTask (queuedAt)

variable {task : DatabaseTask}

namespace DatabaseTask

variable {part : SchemaPart} {tasks : List DatabaseTask} {requestID : ℕ}
  {operation : DatabaseOperation}

theorem queuedAt_cons_operation (h : operation.part = some part) :
    queuedAt part (.operation requestID operation :: tasks) =
      (requestID, operation) :: queuedAt part tasks := by
  unfold queuedAt
  have hreq : request (.operation requestID operation) = some (requestID, operation) := rfl
  rw [filterMap_cons_some hreq, filter_cons_of_pos]
  exact decide_eq_true h

theorem queuedAt_cons_other
    (h : ∀ id operation, task = .operation id operation → operation.part ≠ some part) :
    queuedAt part (task :: tasks) = queuedAt part tasks := by
  unfold queuedAt
  cases task with
  | operation requestID operation =>
    have hreq : request (.operation requestID operation) = some (requestID, operation) := rfl
    rw [filterMap_cons_some hreq, filter_cons_of_neg]
    exact fun hpart => h requestID operation rfl (of_decide_eq_true hpart)
  | _ => rw [filterMap_cons_none rfl]

end DatabaseTask

variable {operation : DatabaseOperation}

namespace UniqueIDBDatabase

variable {s t : UniqueIDBDatabase} {part : SchemaPart} {c m : DatabaseMetadata}
  {task : DatabaseTask} {tasks : List DatabaseTask} {success : Bool}
  {metadata : Option DatabaseMetadata}

/-! ## A part of the cache over a task of the database thread -/

theorem FailedAt.of_perform {id : ℕ} (h : s.Requests) (hpost : s.posting = [])
    (hdb : s.databaseTasks = task :: tasks)
    (hfailed : FailedAt part { s with
      databaseTasks := tasks
      posting := task.completions s.inMemory success metadata } id) :
    FailedAt part s id ∨ success = false ∧ ∃ operation, task = .operation id operation ∧
        operation.part = some part := by
  obtain ⟨undo, hpend, hpart, hmem⟩ := hfailed
  rw [completing_perform hpost] at hmem
  rcases mem_append.mp hmem with hold | hnew
  · exact .inl ⟨undo, hpend, hpart, hold⟩
  · obtain ⟨operation, rfl, hres⟩ := of_mem_completions hnew
    obtain ⟨undo', hpend', hpart'⟩ := h.queuedUndo id operation (hdb ▸ mem_cons_self ..)
    rw [← h.undo_unique hpend hpend', hpart] at hpart'
    refine .inr ⟨?_, operation, rfl, hpart'.symm⟩
    exact (hres (by rw [← hpart']; nofun)).symm

theorem FailedAt.perform {id : ℕ} (hpost : s.posting = []) (hfailed : FailedAt part s id) :
    FailedAt part { s with
      databaseTasks := tasks
      posting := task.completions s.inMemory success metadata } id := by
  obtain ⟨undo, hpend, hpart, hmem⟩ := hfailed
  refine ⟨undo, hpend, hpart, ?_⟩
  rw [completing_perform hpost]
  exact mem_append_left _ hmem

namespace PartKept

theorem congr_stored {c' : DatabaseMetadata} (hkept : PartKept part s c m)
    (h : AgreeAt part c c') : PartKept part s c' m := by
  cases hkept with
  | explained failed explains => exact .explained failed (explains.congr_stored h)
  | failed requestID undo pending about completing only queued agree =>
    exact .failed requestID undo pending about completing only queued (agree.trans h)

theorem congr_cached {m' : DatabaseMetadata} (hkept : PartKept part s c m)
    (h : AgreeAt part m m') : PartKept part s c m' := by
  cases hkept with
  | explained failed explains => exact .explained failed (explains.congr_cached h)
  | failed requestID undo pending about completing only queued agree =>
    exact .failed requestID undo pending about completing only queued
      ((undo_congr h.symm).trans agree)

theorem perform_other (hkept : PartKept part s c m) (h : s.Requests) (hpost : s.posting = [])
    (hdb : s.databaseTasks = task :: tasks)
    (hother : ∀ id operation, task = .operation id operation → operation.part ≠ some part) :
    PartKept part { s with
      databaseTasks := tasks
      posting := task.completions s.inMemory success metadata } c m := by
  refine hkept.congr (fun id => ⟨fun hfailed => ?_, FailedAt.perform hpost⟩) rfl ?_
  · rcases FailedAt.of_perform h hpost hdb hfailed with hold | ⟨-, operation, heq, hpart⟩
    · exact hold
    · exact absurd hpart (hother id operation heq)
  · rw [hdb]
    exact (queuedAt_cons_other hother).symm

variable {requestID : ℕ} {operation : DatabaseOperation}

/-- The next request about the part is one that the stored metadata allows. -/
theorem of_queued (hkept : PartKept part s c m)
    (hdb : s.databaseTasks = .operation requestID operation :: tasks)
    (hpart : operation.part = some part) :
    (∀ id, ¬ FailedAt part s id) ∧ c.Allows operation ∧ operation.Plain ∧
      (requestID, c.undoOf operation) ∈ s.pendingDatabaseTasks ∧
      Explains part s.pendingDatabaseTasks (c.edit operation) (queuedAt part tasks) m := by
  cases hkept with
  | explained failed explains =>
    rw [hdb, queuedAt_cons_operation hpart] at explains
    obtain ⟨⟨-, hallows, hplain, hpend⟩, hrest⟩ := explains
    exact ⟨failed, hallows, hplain, hpend, hrest⟩
  | failed requestID undo pending about completing only queued agree =>
    rw [hdb, queuedAt_cons_operation hpart] at queued
    cases queued

theorem perform_success (hkept : PartKept part s c m) (h : s.Requests) (hpost : s.posting = [])
    (hdb : s.databaseTasks = .operation requestID operation :: tasks)
    (hpart : operation.part = some part) :
    PartKept part { s with
      databaseTasks := tasks
      posting := completions s.inMemory true metadata
        (.operation requestID operation) } (c.edit operation) m := by
  obtain ⟨failed, -, -, -, hrest⟩ := hkept.of_queued hdb hpart
  refine .explained (fun id hfailed => ?_) hrest
  rcases FailedAt.of_perform h hpost hdb hfailed with hold | ⟨hfalse, -⟩
  · exact failed id hold
  · cases hfalse

theorem perform_failure (hkept : PartKept part s c m) (h : s.Requests) (hpost : s.posting = [])
    (hdb : s.databaseTasks = .operation requestID operation :: tasks)
    (hpart : operation.part = some part) (hkeyed : KeyedStores c.objectStores)
    (hqueued : queuedAt part tasks = []) :
    PartKept part { s with
      databaseTasks := tasks
      posting := completions s.inMemory false metadata (.operation requestID operation) } c m := by
  obtain ⟨failed, hallows, -, hpend, hrest⟩ := hkept.of_queued hdb hpart
  rw [hqueued] at hrest
  obtain ⟨hundo, habout⟩ := undo_edit hkeyed hallows hpart
  refine .failed requestID _ hpend habout ?_ ?_ hqueued ((undo_congr hrest.symm).trans hundo)
  · apply mem_append_right
    cases operation <;> first | exact mem_singleton_self _ | cases hpart
  · intro id hfailed
    rcases FailedAt.of_perform h hpost hdb hfailed with hold | ⟨-, operation', heq, -⟩
    · exact absurd hold (failed id)
    · cases heq
      rfl

end PartKept

theorem FailedAt.pop {id : ℕ} {completion : MainThreadTask} {mainTasks : List MainThreadTask}
    (hmain : s.mainThreadTasks = completion :: mainTasks) (hreqs : completion.requestIDs = []) :
    FailedAt part { s with mainThreadTasks := mainTasks } id ↔ FailedAt part s id := by
  unfold FailedAt
  rw [completing_pop hmain]
  constructor
  · rintro ⟨undo, hpend, hpart, hmem⟩
    exact ⟨undo, hpend, hpart, mem_cons_of_mem _ hmem⟩
  · rintro ⟨undo, hpend, hpart, hmem⟩
    refine ⟨undo, hpend, hpart, ?_⟩
    rcases mem_cons.mp hmem with rfl | hrest
    · cases hreqs
    · exact hrest

theorem FailedAt.of_complete {id requestID : ℕ} {mainTasks : List MainThreadTask}
    (hmain : s.mainThreadTasks = .didCompleteRequest requestID success :: mainTasks)
    (hcomp : t.completing = completing { s with mainThreadTasks := mainTasks })
    (hpend : t.pendingDatabaseTasks =
      s.pendingDatabaseTasks.filter fun request => request.1 ≠ requestID) :
    FailedAt part t id ↔ FailedAt part s id ∧ id ≠ requestID := by
  unfold FailedAt
  rw [hpend, hcomp, completing_pop hmain]
  constructor
  · rintro ⟨undo, hmem, hpart, hfailed⟩
    obtain ⟨hmem, hne⟩ := mem_filter.mp hmem
    exact ⟨⟨undo, hmem, hpart, mem_cons_of_mem _ hfailed⟩, by simpa using hne⟩
  · rintro ⟨⟨undo, hmem, hpart, hfailed⟩, hne⟩
    refine ⟨undo, mem_filter.mpr ⟨hmem, by simpa using hne⟩, hpart, ?_⟩
    rcases mem_cons.mp hfailed with heq | hrest
    · cases heq
      exact absurd rfl hne
    · exact hrest

namespace PartKept

variable {requestID : ℕ} {mainTasks : List MainThreadTask}

/-- The completion of a request that has not failed about the part. -/
theorem complete_other (hkept : PartKept part s c m) (h : s.Requests)
    (hmain : s.mainThreadTasks = .didCompleteRequest requestID success :: mainTasks)
    (hnot : ¬ FailedAt part s requestID)
    (hcomp : t.completing = completing { s with mainThreadTasks := mainTasks })
    (hpend : t.pendingDatabaseTasks =
      s.pendingDatabaseTasks.filter fun request => request.1 ≠ requestID)
    (hdb : t.databaseTasks = s.databaseTasks) : PartKept part t c m := by
  have hcompleted : requestID ∈ s.completing.flatMap MainThreadTask.requestIDs := by
    rw [completing_pop hmain]
    exact mem_cons_self ..
  cases hkept with
  | explained failed explains =>
    refine .explained (fun id hid => failed id
      ((FailedAt.of_complete hmain hcomp hpend).mp hid).1) ?_
    rw [hpend, hdb]
    refine explains.of_pending fun undo request hreq hmem => mem_filter.mpr ⟨hmem, ?_⟩
    have hqueued := mem_requestIDs_of_operation (mem_queuedAt.mp hreq).1
    have hne : request.1 ≠ requestID := fun heq => h.disjoint _ hqueued (heq ▸ hcompleted)
    simpa using hne
  | failed id undo pending about completing only queued agree =>
    have hne : id ≠ requestID := by
      rintro rfl
      exact hnot ⟨undo, pending, about, completing⟩
    obtain ⟨-, -, -, hfailed⟩ := (FailedAt.of_complete hmain hcomp hpend).mpr
      ⟨⟨undo, pending, about, completing⟩, hne⟩
    refine .failed id undo (hpend ▸ mem_filter.mpr ⟨pending, by simpa using hne⟩) about
      hfailed (fun other hother =>
        only other ((FailedAt.of_complete hmain hcomp hpend).mp hother).1) ?_ agree
    rw [hdb]
    exact queued

theorem complete_failed (hkept : PartKept part s c m) (h : s.Requests) {undo : MetadataUndo}
    (hmain : s.mainThreadTasks = .didCompleteRequest requestID success :: mainTasks)
    (hundo : (requestID, undo) ∈ s.pendingDatabaseTasks) (hfailed : FailedAt part s requestID)
    (hcomp : t.completing = completing { s with mainThreadTasks := mainTasks })
    (hpend : t.pendingDatabaseTasks =
      s.pendingDatabaseTasks.filter fun request => request.1 ≠ requestID)
    (hdb : t.databaseTasks = s.databaseTasks) : PartKept part t c (m.undo undo) := by
  cases hkept with
  | explained failed explains => exact absurd hfailed (failed requestID)
  | failed id undo' pending about completing only queued agree =>
    cases only requestID hfailed
    cases h.undo_unique hundo pending
    refine .explained (fun other hother => ?_) ?_
    · obtain ⟨hold, hne⟩ := (FailedAt.of_complete hmain hcomp hpend).mp hother
      exact hne (only other hold)
    · rw [hdb, queued]
      exact agree.symm

end PartKept

theorem undoOf_part_of_none (h : operation.part = none) : (m.undoOf operation).part = none := by
  cases operation <;> first | rfl | cases h

theorem PartKept.undoOf_part (hkept : PartKept part s c m)
    (hkeyed : KeyedStores c.objectStores) (hallows : m.Allows operation)
    (hpart : operation.part = some part) (hfailed : ∀ id, ¬ FailedAt part s id) :
    (m.undoOf operation).part = some part := by
  cases hkept with
  | explained failed explains =>
    obtain ⟨c', hkeyed', hagree⟩ := explains.exists_keyed hkeyed
    rw [← undoOf_congr hpart hagree]
    exact (undo_edit hkeyed' (allows_congr hpart hagree.symm hallows) hpart).2
  | failed requestID undo pending about completing =>
    exact absurd ⟨undo, pending, about, completing⟩ (hfailed requestID)

theorem FailedAt.of_request {undo : MetadataUndo} {id : ℕ} (h : s.Requests)
    (hfailed : FailedAt part { s with
      metadata := metadata
      pendingDatabaseTasks := s.pendingDatabaseTasks ++ [(s.nextRequestID, undo)]
      databaseTasks := s.databaseTasks ++ [.operation s.nextRequestID operation]
      nextRequestID := s.nextRequestID + 1 } id) : FailedAt part s id := by
  obtain ⟨undo', hpend, hpart, hmem⟩ := hfailed
  rcases mem_append.mp hpend with hold | hnew
  · exact ⟨undo', hold, hpart, hmem⟩
  · cases mem_singleton.mp hnew
    exact absurd (h.completingLt _ (mem_requestIDs_of_completion hmem)) (lt_irrefl _)

theorem PartKept.request (hkept : PartKept part s c m)
    (h : s.Requests) (hallows : operation.part = some part → m.Allows operation)
    (hplain : operation.Plain)
    (hfailed : operation.part = some part → ∀ id, ¬ FailedAt part s id) :
    PartKept part { s with
      metadata := metadata
      pendingDatabaseTasks := s.pendingDatabaseTasks ++ [(s.nextRequestID, m.undoOf operation)]
      databaseTasks := s.databaseTasks ++ [.operation s.nextRequestID operation]
      nextRequestID := s.nextRequestID + 1 } c (m.edit operation) := by
  cases hkept with
  | explained failed explains =>
    refine .explained (fun id hid => failed id (hid.of_request h)) ?_
    have hexplains := explains.of_pending fun _ _ _ hmem =>
      mem_append_left [(s.nextRequestID, m.undoOf operation)] hmem
    rw [queuedAt_append]
    by_cases hpart : operation.part = some part
    · rw [queuedAt_cons_operation hpart]
      exact hexplains.snoc hpart (hallows hpart) hplain (mem_append_right _ (mem_singleton_self _))
    · rw [queuedAt_cons_other]
      · rw [show queuedAt part [] = [] from rfl, append_nil]
        exact hexplains.congr_cached (edit_other hpart).symm
      · rintro id operation' heq
        cases heq
        exact hpart
  | failed requestID undo pending about completing only queued agree =>
    have hpart : operation.part ≠ some part :=
      fun hpart => hfailed hpart requestID ⟨undo, pending, about, completing⟩
    refine .failed requestID undo (mem_append_left _ pending) about completing
      (fun id hid => only id (hid.of_request h)) ?_ ((undo_congr (edit_other hpart)).trans agree)
    rw [queuedAt_append, queued, queuedAt_cons_other]
    · rfl
    · rintro id operation' heq
      cases heq
      exact hpart

end UniqueIDBDatabase

/-! ## The backing store -/

namespace DatabaseOperation

variable {operation : DatabaseOperation}

theorem part_eq_none (h : operation.schemaTransaction = none) : operation.part = none := by
  cases operation <;> first | rfl | cases h

theorem schemaTransaction_eq_none (h : operation.part = none) :
    operation.schemaTransaction = none := by
  cases operation <;> first | rfl | cases h

theorem readsMetadata_of_part {part : SchemaPart} (h : operation.part = some part) :
    operation.readsMetadata = true := by
  cases operation <;> first | rfl | cases h

end DatabaseOperation

namespace SchemaStore

variable {s : SchemaStore} {transaction : IDBIdentifier} {statements : ℕ}

/-- A transaction other than a version change leaves the tables as it found them. -/
def Unchanged (s : SchemaStore) : Prop :=
  ∀ transaction, s.inProgress = some transaction →
    s.transactions transaction ≠ some .versionChange → s.schema = s.atBegin

/-- The operation ends the transaction in progress and takes its changes back. -/
def Discards (s : SchemaStore) (transaction : IDBIdentifier) (operation : TransactionOperation) :
    Prop :=
  s.inProgress = some transaction ∧ s.transactions transaction = some .versionChange ∧
    operation ∈ [.beginTransaction, .resetTransaction, .rollbackTransaction]

theorem endSQLiteTransaction_eq (h : s.inProgress = some transaction → s.schema = s.atBegin) :
    ∃ inProgress, s.endSQLiteTransaction transaction = { s with inProgress := inProgress } ∧
      inProgress ≠ some transaction ∧
      ∀ other, inProgress = some other → s.inProgress = some other := by
  unfold endSQLiteTransaction
  split
  · rename_i heq
    exact ⟨none, by rw [← h heq], nofun, nofun⟩
  · rename_i hne
    exact ⟨s.inProgress, rfl, hne, fun _ => id⟩

/-- A transaction operation that discards no changes leaves the tables as they are. -/
theorem performTransactionOperation_unchanged (h : s.Unchanged) {operation : TransactionOperation}
    (hdiscards : s.Discards transaction operation → s.schema = s.atBegin) :
    (s.performTransactionOperation statements transaction operation).2.opened = s.opened ∧
      (s.performTransactionOperation statements transaction operation).2.schema = s.schema ∧
      (s.performTransactionOperation statements transaction operation).2.Unchanged := by
  have hend : operation ∈ [.beginTransaction, .resetTransaction, .rollbackTransaction] →
      s.inProgress = some transaction → s.schema = s.atBegin := by
    intro hmem heq
    by_cases hmode : s.transactions transaction = some .versionChange
    · exact hdiscards ⟨heq, hmode, hmem⟩
    · exact h transaction heq hmode
  have hended : ∀ inProgress : Option IDBIdentifier,
      (∀ other, inProgress = some other → s.inProgress = some other) →
      Unchanged { s with inProgress := inProgress } :=
    fun _ hold other heq hmode => h other (hold other heq) hmode
  unfold performTransactionOperation
  cases operation with
  | openTransaction mode =>
    simp only
    split
    · exact ⟨rfl, rfl, h⟩
    · rename_i hnone
      refine ⟨rfl, rfl, fun other heq hmode => h other heq ?_⟩
      by_cases hother : other = transaction
      · subst hother
        rw [hnone]
        nofun
      · change update s.transactions transaction (some mode) other ≠ _ at hmode
        rwa [update_of_ne hother] at hmode
  | beginTransaction =>
    simp only
    split
    · exact ⟨rfl, rfl, h⟩
    · obtain ⟨inProgress, heq, -, hold⟩ := endSQLiteTransaction_eq (hend (.head _))
      rw [heq]
      split
      · exact ⟨rfl, rfl, hended _ hold⟩
      · exact ⟨rfl, rfl, fun _ _ _ => rfl⟩
  | commitTransaction =>
    simp only
    split
    · exact ⟨rfl, rfl, h⟩
    · exact ⟨rfl, rfl, nofun⟩
  | resetTransaction =>
    simp only
    split
    · exact ⟨rfl, rfl, h⟩
    · obtain ⟨inProgress, heq, hne, hold⟩ := endSQLiteTransaction_eq (hend (.tail _ (.head _)))
      rw [heq]
      refine ⟨rfl, rfl, fun other hother hmode => h other (hold other hother) ?_⟩
      have hother' : other ≠ transaction := by
        rintro rfl
        exact hne hother
      change update s.transactions transaction none other ≠ _ at hmode
      rwa [update_of_ne hother'] at hmode
  | rollbackTransaction =>
    simp only
    split
    · exact ⟨rfl, rfl, h⟩
    · obtain ⟨inProgress, heq, -, hold⟩ :=
        endSQLiteTransaction_eq (hend (.tail _ (.tail _ (.head _))))
      rw [heq]
      exact ⟨rfl, rfl, hended _ hold⟩

theorem performOperation_of_part_none
    (h : operation.part = none) : (s.performOperation statements operation).2 = s := by
  unfold performOperation
  rw [DatabaseOperation.schemaTransaction_eq_none h]

/-- A schema operation fails at once, or runs its statements in the version change in
progress. -/
theorem performOperation_of_part {part : SchemaPart} (h : operation.part = some part) :
    s.performOperation statements operation = (false, s) ∨
      ∃ transaction schema, s.transactions transaction = some .versionChange ∧
        s.inProgress = some transaction ∧ s.schema = some schema ∧
        s.performOperation statements operation =
          ((runStatements operation.statements statements schema).1,
            { s with
              schema := some (runStatements operation.statements statements schema).2 }) := by
  unfold performOperation
  split
  · rename_i hnone
    rw [DatabaseOperation.part_eq_none hnone] at h
    cases h
  · exact .inl rfl
  · rename_i transaction schema _ hsch
    split
    · exact .inl rfl
    · rename_i hcond
      simp only [Bool.or_eq_true, decide_eq_true_eq, not_or, not_not] at hcond
      exact .inr ⟨transaction, schema, hcond.1, hcond.2, hsch, rfl⟩

end SchemaStore

namespace StoredDatabase

open UniqueIDBDatabase

variable {s t : StoredDatabase}

/-- What happens in the backing store is what the cache expects. -/
def Followed (s : StoredDatabase) (e : StoredEvent) : Prop :=
  match e.event with
  | .requestOperation operation =>
    ∀ part, operation.part = some part → ∀ id, ¬ FailedAt part s.database id
  | .performNextDatabaseTask _ _ =>
    match s.database.databaseTasks with
    | .transactionOperation transaction operation :: _ =>
      s.store.Discards transaction operation → s.store.schema = s.store.atBegin
    | .operation _ operation :: tasks =>
      ∀ part, operation.part = some part →
        match s.store.performOperation e.statements operation with
        | (true, _) => operation.isIndexOperation = false
        | (false, store) => store.schema = s.store.schema ∧ queuedAt part tasks = []
    | _ => True
  | _ => True

structure Cached (s : StoredDatabase) : Prop where
  requests : s.database.Requests
  opens : s.database.completing.countP isOpen ≤ 1
  unopened : s.store.opened = false → s.database.metadata = none ∧ s.store.inProgress = none ∧
    ∀ task ∈ s.database.completing, task.isOpen = false
  unread : s.database.metadata = none → ∀ part,
    queuedAt part s.database.databaseTasks = [] ∧ ∀ id, ¬ FailedAt part s.database id
  opening : ∀ read, .didOpenBackingStoreAndReadMetadata (some read) ∈ s.database.completing →
    s.database.metadata = none ∧
      ∃ c, s.storedMetadata = some c ∧ ∀ part, AgreeAt part c read
  read : ∀ m, s.database.metadata = some m →
    ∃ c, s.storedMetadata = some c ∧ ∀ part, PartKept part s.database c m
  unchanged : s.store.Unchanged

def Kept (s : StoredDatabase) : Prop := s.database.acceptingNewRequests = true → s.Cached

theorem keyedStores_storedMetadata {c : DatabaseMetadata} (h : s.storedMetadata = some c) :
    KeyedStores c.objectStores := by
  unfold storedMetadata at h
  split at h
  · cases h
  · unfold Schema.extractExistingMetadata at h
    split at h
    · cases h
    · rename_i objectStores hstores
      cases h
      exact keyedStores_objectStores hstores

variable {database : UniqueIDBDatabase}

theorem Cached.of_frame (h : s.Cached)
    (hframe : Frame s.database database) : Cached { s with database := database } where
  requests := hframe.requests h.requests
  opens := hframe.completing ▸ h.opens
  unopened := by
    intro hopened
    rw [hframe.metadata, hframe.completing]
    exact h.unopened hopened
  unread := by
    intro hnone part
    rw [hframe.metadata] at hnone
    rw [hframe.queuedAt]
    exact ⟨(h.unread hnone part).1,
      fun id hid => (h.unread hnone part).2 id (hframe.failedAt.mp hid)⟩
  opening := by
    rw [hframe.completing, hframe.metadata]
    exact h.opening
  read := by
    intro m hm
    rw [hframe.metadata] at hm
    obtain ⟨c, hstored, hparts⟩ := h.read m hm
    exact ⟨c, hstored, fun part => hframe.partKept (hparts part)⟩
  unchanged := h.unchanged

theorem Cached.frames (h : s.Cached)
    (hframes : Frames s.database database) : Kept { s with database := database } :=
  fun hacc => h.of_frame (hframes hacc)

variable {tasks : List MainThreadTask}

/-- A completion that is not about a request or the opening goes. -/
theorem Cached.pop (h : s.Cached) {task : MainThreadTask}
    (hmain : s.database.mainThreadTasks = task :: tasks) (hreqs : task.requestIDs = [])
    (hopen : task.isOpen = false) :
    Cached { s with database := { s.database with mainThreadTasks := tasks } } := by
  have hcomp := completing_pop hmain
  have hsub : ∀ other ∈ completing { s.database with mainThreadTasks := tasks },
      other ∈ s.database.completing := by
    intro other hother
    rw [hcomp]
    exact mem_cons_of_mem _ hother
  have hfailed : ∀ part id, FailedAt part { s.database with mainThreadTasks := tasks } id ↔
      FailedAt part s.database id := fun part id => FailedAt.pop hmain hreqs
  constructor
  case requests =>
    exact h.requests.shrink rfl rfl hsub (List.Sublist.refl _) fun _ _ _ hmem => hmem
  case opens =>
    have hopens := h.opens
    rw [hcomp, countP_cons_of_neg (by rw [hopen]; nofun)] at hopens
    exact hopens
  case unopened =>
    intro hopened
    obtain ⟨hmeta, hprog, hnone⟩ := h.unopened hopened
    exact ⟨hmeta, hprog, fun other hother => hnone other (hsub other hother)⟩
  case unread =>
    exact fun hnone part => ⟨(h.unread hnone part).1,
      fun id hid => (h.unread hnone part).2 id ((hfailed part id).mp hid)⟩
  case opening => exact fun read hmem => h.opening read (hsub _ hmem)
  case read =>
    intro m hm
    obtain ⟨c, hstored, hparts⟩ := h.read m hm
    exact ⟨c, hstored, fun part => (hparts part).congr (hfailed part) rfl rfl⟩
  case unchanged => exact h.unchanged

theorem Cached.requestOperation (h : s.Cached) (hacc : s.database.acceptingNewRequests = true) (hallowed : s.database.Allowed (.requestOperation operation))
    (hplain : operation.Plain)
    (hfailed : ∀ part, operation.part = some part → ∀ id, ¬ FailedAt part s.database id) :
    Cached { s with
      database := s.database.withNextRequestID fun s requestID =>
        s.requestOperation requestID operation } := by
  have hallows : ∀ m part, s.database.metadata = some m → operation.part = some part →
      m.Allows operation := by
    intro m part hm hpart
    obtain ⟨m', hm', hallows⟩ := hallowed hacc (operation.readsMetadata_of_part hpart)
    cases hm.symm.trans hm'
    exact hallows
  have hundo : (s.database.undoOf operation).part = operation.part := by
    unfold UniqueIDBDatabase.undoOf
    cases hpart : operation.part with
    | none =>
      cases s.database.metadata with
      | none => rfl
      | some m => exact undoOf_part_of_none hpart
    | some part =>
      obtain ⟨m, hm, hallows⟩ := hallowed hacc (operation.readsMetadata_of_part hpart)
      obtain ⟨c, hstored, hparts⟩ := h.read m hm
      rw [hm]
      exact (hparts part).undoOf_part (keyedStores_storedMetadata hstored) hallows hpart
        (hfailed part hpart)
  have heq : (s.database.withNextRequestID fun s requestID =>
      s.requestOperation requestID operation) =
      { s.database with
        metadata := s.database.metadata.map fun metadata => metadata.edit operation
        pendingDatabaseTasks := s.database.pendingDatabaseTasks ++
          [(s.database.nextRequestID, s.database.undoOf operation)]
        databaseTasks := s.database.databaseTasks ++ [.operation s.database.nextRequestID operation]
        nextRequestID := s.database.nextRequestID + 1 } :=
    @requestOperation_of_accepting
      { s.database with nextRequestID := s.database.nextRequestID + 1 } hacc _ operation
  rw [heq]
  constructor
  case requests => exact h.requests.request hundo
  case opens => exact h.opens
  case unopened =>
    intro hopened
    obtain ⟨hmeta, hrest⟩ := h.unopened hopened
    exact ⟨by rw [hmeta]; rfl, hrest⟩
  case unread =>
    intro hnone part
    have hnone' : s.database.metadata = none := map_eq_none_iff.mp hnone
    refine ⟨?_, fun id hid => (h.unread hnone' part).2 id (hid.of_request h.requests)⟩
    rw [queuedAt_append, (h.unread hnone' part).1, queuedAt_cons_other]
    · rfl
    · rintro id operation' heq hpart
      cases heq
      obtain ⟨m, hm, -⟩ := hallowed hacc (operation.readsMetadata_of_part hpart)
      rw [hnone'] at hm
      cases hm
  case opening =>
    intro read hmem
    obtain ⟨hmeta, hrest⟩ := h.opening read hmem
    exact ⟨by rw [hmeta]; rfl, hrest⟩
  case read =>
    intro m' hm'
    obtain ⟨m, hm, rfl⟩ := map_eq_some_iff.mp hm'
    obtain ⟨c, hstored, hparts⟩ := h.read m hm
    have hundoOf : s.database.undoOf operation = m.undoOf operation := by
      unfold UniqueIDBDatabase.undoOf
      rw [hm]
    rw [hundoOf]
    exact ⟨c, hstored, fun part => (hparts part).request h.requests (hallows m part hm) hplain
      (hfailed part)⟩
  case unchanged => exact h.unchanged

variable {metadata : Option DatabaseMetadata}

theorem isOpen_completions {inMemory success : Bool} (h : task ≠ .openBackingStoreAndReadMetadata) :
    ∀ completion ∈ (task.completions inMemory success metadata).map fst,
      completion.isOpen = false := by
  cases task with
  | openBackingStoreAndReadMetadata => exact absurd rfl h
  | transactionOperation transaction operation =>
    cases operation <;> simp [completions, isOpen]
  | operation requestID operation =>
    cases operation <;> cases success <;>
      simp [completions, isOpen]
  | shutdownBackingStore type => simp [completions, isOpen]

variable {store : SchemaStore} {success : Bool}

theorem Cached.perform (h : s.Cached) {tasks : List DatabaseTask}
    (hpost : s.database.posting = []) (hdb : s.database.databaseTasks = task :: tasks)
    (hnone : ∀ completion ∈ (task.completions s.database.inMemory success metadata).map fst,
        completion.isOpen = false)
    (hopened : store.opened = false → store = s.store) (hsame : store.Unchanged)
    (hunread : s.database.metadata = none →
      (∀ id operation, task = .operation id operation → operation.part = none) ∧
        store.schema = s.store.schema)
    (hread : ∀ m c, s.database.metadata = some m → s.storedMetadata = some c →
      (∀ part, PartKept part s.database c m) →
      ∃ c', storedMetadata { s with store := store } = some c' ∧
        ∀ part, PartKept part { s.database with
          databaseTasks := tasks
          posting := task.completions s.database.inMemory success metadata } c' m) :
    Cached
      { s with
        database :=
          { s.database with
            databaseTasks := tasks
            posting := task.completions s.database.inMemory success metadata }
        store := store } := by
  have hcomp := @completing_perform s.database tasks
    (task.completions s.database.inMemory success metadata) hpost
  constructor
  case requests => exact h.requests.perform hpost hdb success metadata
  case opens =>
    have hzero : ((task.completions s.database.inMemory success metadata).map fst).countP
        isOpen = 0 := by
      rw [countP_eq_zero]
      exact fun other hother => Bool.not_eq_true _ ▸ hnone other hother
    rw [hcomp, countP_append, hzero]
    exact h.opens
  case unopened =>
    intro hfalse
    have hstore : store = s.store := hopened hfalse
    obtain ⟨hmeta, hprog, hold⟩ := h.unopened (hstore ▸ hfalse)
    refine ⟨hmeta, hstore ▸ hprog, ?_⟩
    rw [hcomp]
    exact fun other hother => (mem_append.mp hother).elim (hold other) (hnone other)
  case unread =>
    intro hmeta part
    obtain ⟨hother, -⟩ := hunread hmeta
    obtain ⟨hqueued, hfailed⟩ := h.unread hmeta part
    have hnot : ∀ id operation, task = .operation id operation → operation.part ≠ some part := by
      intro id operation heq hpart
      rw [hother id operation heq] at hpart
      cases hpart
    constructor
    · rw [hdb, queuedAt_cons_other hnot] at hqueued
      exact hqueued
    · intro id hid
      rcases FailedAt.of_perform h.requests hpost hdb hid with hold | ⟨-, operation, heq, hpart⟩
      · exact hfailed id hold
      · exact hnot id operation heq hpart
  case opening =>
    intro read hmem
    rw [hcomp] at hmem
    rcases mem_append.mp hmem with hold | hnew
    · obtain ⟨hmeta, c, hstored, hagree⟩ := h.opening read hold
      refine ⟨hmeta, c, ?_, hagree⟩
      unfold storedMetadata at hstored ⊢
      simp only [(hunread hmeta).2]
      exact hstored
    · cases hnone _ hnew
  case read =>
    intro m hm
    obtain ⟨c, hstored, hparts⟩ := h.read m hm
    exact hread m c hm hstored hparts
  case unchanged => exact hsame

variable {statements : ℕ}

theorem Cached.performOpen (h : s.Cached) {tasks : List DatabaseTask}
    (hpost : s.database.posting = [])
    (hdb : s.database.databaseTasks = .openBackingStoreAndReadMetadata :: tasks)
    (hperf : s.store.perform s.database.inMemory s.databaseName statements
      .openBackingStoreAndReadMetadata = some (success, metadata, store)) :
    Cached
      { s with
        database :=
          { s.database with
            databaseTasks := tasks
            posting := DatabaseTask.completions s.database.inMemory success metadata
              .openBackingStoreAndReadMetadata }
        store := store } := by
  simp only [SchemaStore.perform] at hperf
  split at hperf
  · rename_i hinMemory
    cases hperf
    have hnil : DatabaseTask.completions s.database.inMemory false none
        .openBackingStoreAndReadMetadata = [] := by
      rw [hinMemory]
      rfl
    refine h.perform hpost hdb ?_ (fun _ => rfl) h.unchanged (fun _ => ⟨nofun, rfl⟩) ?_
    · rw [hnil]
      nofun
    · exact fun m c _ hstored hparts => ⟨c, hstored, fun part =>
        (hparts part).perform_other h.requests hpost hdb nofun⟩
  rename_i hinMemory
  split at hperf
  · cases hperf
  rename_i hopened
  obtain ⟨hmeta, hprog, hnone⟩ := h.unopened (Bool.not_eq_true _ ▸ hopened)
  have hcomp : completing { s.database with
      databaseTasks := tasks
      posting := DatabaseTask.completions s.database.inMemory success metadata
        .openBackingStoreAndReadMetadata } =
      s.database.completing ++ [.didOpenBackingStoreAndReadMetadata metadata] := by
    have hfalse : s.database.inMemory = false := by simpa using hinMemory
    rw [completing_perform hpost, hfalse]
    rfl
  -- what is read is what is stored afterwards
  have hstore : store.opened = true ∧ store.inProgress = none ∧ ∀ read, metadata = some read → ∃ c,
        storedMetadata { s with store := store } = some c ∧ ∀ part, AgreeAt part c read := by
    split at hperf
    · cases hperf
      exact ⟨rfl, hprog, nofun⟩
    split at hperf
    · cases hperf
    rename_i read schema hread
    cases hperf
    refine ⟨rfl, hprog, ?_⟩
    rintro _ ⟨⟩
    unfold getOrEstablishMetadata at hread
    split at hread
    · cases hread
      exact ⟨_, rfl, fun part => by cases part <;> rfl⟩
    · split at hread
      · cases hread
      · rename_i hextract
        cases hread
        exact ⟨_, hextract, fun part => AgreeAt.refl part _⟩
  obtain ⟨hopened', hprog', hread⟩ := hstore
  constructor
  case requests => exact h.requests.perform hpost hdb success metadata
  case opens =>
    have hzero : s.database.completing.countP MainThreadTask.isOpen = 0 := by
      rw [countP_eq_zero]
      exact fun other hother => Bool.not_eq_true _ ▸ hnone other hother
    rw [hcomp, countP_append, hzero]
    exact le_rfl
  case unopened =>
    intro hfalse
    rw [hopened'] at hfalse
    cases hfalse
  case unread =>
    intro _ part
    obtain ⟨hqueued, hfailed⟩ := h.unread hmeta part
    have hnot : ∀ id operation, .openBackingStoreAndReadMetadata =
        DatabaseTask.operation id operation → operation.part ≠ some part := by
      intro id operation heq
      cases heq
    constructor
    · rw [hdb, DatabaseTask.queuedAt_cons_other hnot] at hqueued
      exact hqueued
    · intro id hid
      rcases FailedAt.of_perform h.requests hpost hdb hid with hold | ⟨-, _, heq, -⟩
      · exact hfailed id hold
      · cases heq
  case opening =>
    intro read hmem
    refine ⟨hmeta, ?_⟩
    rw [hcomp] at hmem
    rcases mem_append.mp hmem with hold | hnew
    · cases hnone _ hold
    · cases mem_singleton.mp hnew
      exact hread read rfl
  case read =>
    intro m hm
    rw [hmeta] at hm
    cases hm
  case unchanged =>
    intro transaction heq
    rw [hprog'] at heq
    cases heq

theorem storedMetadata_congr (h : store.schema = s.store.schema) :
    storedMetadata { s with store := store } = s.storedMetadata := by
  unfold storedMetadata
  rw [h]

/-- A schema operation that succeeds stores what the cache shows. -/
theorem storedMetadata_runStatements {schema schema' : Schema}
    {part : SchemaPart} {c : DatabaseMetadata}
    (hsch : s.store.schema = some schema) (hstored : s.storedMetadata = some c)
    (hpart : operation.part = some part) (hindex : operation.isIndexOperation = false)
    (hplain : operation.Plain) (hallows : c.Allows operation)
    (hrun : runStatements operation.statements statements schema = (true, schema'))
    (hsch' : store.schema = some schema') :
    ∃ c', storedMetadata { s with store := store } = some c' ∧
      ∀ part, AgreeAt part (c.edit operation) c' := by
  unfold storedMetadata at hstored ⊢
  simp only [hsch, hsch'] at hstored ⊢
  unfold Schema.extractExistingMetadata at hstored ⊢
  split at hstored
  · cases hstored
  rename_i objectStores hstores
  cases hstored
  obtain ⟨hvers, hobjectStores⟩ :=
    runStatements_eq_edit hpart hindex hplain hallows rfl hstores hrun
  rw [hobjectStores]
  refine ⟨_, rfl, fun part => ?_⟩
  cases part with
  | version => exact hvers.symm
  | objectStore id => rfl

theorem Cached.performOperation (h : s.Cached) {requestID : ℕ}
    {tasks : List DatabaseTask} (hpost : s.database.posting = [])
    (hdb : s.database.databaseTasks = .operation requestID operation :: tasks)
    (hopened : s.store.opened = true)
    (hfoll : ∀ part, operation.part = some part →
      match s.store.performOperation statements operation with
      | (true, _) => operation.isIndexOperation = false
      | (false, store) => store.schema = s.store.schema ∧ queuedAt part tasks = []) :
    Cached
      { s with
        database :=
          { s.database with
            databaseTasks := tasks
            posting := DatabaseTask.completions s.database.inMemory
              (s.store.performOperation statements operation).1 metadata
              (.operation requestID operation) }
        store := (s.store.performOperation statements operation).2 } := by
  have hnone : ∀ completion ∈ (DatabaseTask.completions s.database.inMemory
      (s.store.performOperation statements operation).1 metadata
      (.operation requestID operation)).map Prod.fst, completion.isOpen = false :=
    isOpen_completions nofun
  have hother : ∀ part, operation.part ≠ some part → ∀ id operation',
      DatabaseTask.operation requestID operation = .operation id operation' →
        operation'.part ≠ some part := by
    rintro part hpart id operation' heq
    cases heq
    exact hpart
  cases hpart : operation.part with
  | none =>
    -- an operation on records
    rw [SchemaStore.performOperation_of_part_none hpart]
    refine h.perform hpost hdb hnone (fun _ => rfl) h.unchanged ?_ ?_
    · refine fun _ => ⟨?_, rfl⟩
      rintro id operation' heq
      cases heq
      exact hpart
    · intro m c _ hstored hparts
      exact ⟨c, hstored, fun part => (hparts part).perform_other h.requests hpost hdb
        (hother part (by rw [hpart]; nofun))⟩
  | some part =>
    have hqueued := hfoll part hpart
    have hmeta : s.database.metadata ≠ none := by
      intro hmeta
      have hnil := (h.unread hmeta part).1
      rw [hdb, DatabaseTask.queuedAt_cons_operation hpart] at hnil
      cases hnil
    have hopened' : (s.store.performOperation statements operation).2.opened = true := by
      rcases SchemaStore.performOperation_of_part hpart with heq | ⟨_, _, _, _, _, heq⟩
      all_goals
        rw [heq]
        exact hopened
    have hsame : (s.store.performOperation statements operation).2.Unchanged := by
      rcases SchemaStore.performOperation_of_part hpart with
        heq | ⟨transaction, _, hmode, hprog, _, heq⟩
      · rw [heq]
        exact h.unchanged
      · rw [heq]
        intro other hother hmode'
        cases hprog.symm.trans hother
        exact absurd hmode hmode'
    refine h.perform hpost hdb hnone ?_ hsame (fun hnil => absurd hnil hmeta) ?_
    · intro hfalse
      rw [hopened'] at hfalse
      cases hfalse
    intro m c _ hstored hparts
    cases hres : s.store.performOperation statements operation with
    | mk success store =>
      rw [hres] at hqueued
      cases success with
      | false =>
        obtain ⟨hsch, hqueued⟩ := hqueued
        refine ⟨c, (storedMetadata_congr hsch).trans hstored, fun other => ?_⟩
        by_cases heq : operation.part = some other
        · cases hpart.symm.trans heq
          exact (hparts part).perform_failure h.requests hpost hdb hpart
            (keyedStores_storedMetadata hstored) hqueued
        · exact (hparts other).perform_other h.requests hpost hdb (hother other heq)
      | true =>
        obtain ⟨-, hallows, hplain, -, -⟩ := (hparts part).of_queued hdb hpart
        rcases SchemaStore.performOperation_of_part hpart with heq | ⟨_, schema, _, _, hsch, heq⟩
        · cases hres.symm.trans heq
        have hran := hres.symm.trans heq
        obtain ⟨hrun, hstore⟩ := Prod.mk.inj hran
        obtain ⟨c', hstored', hagree⟩ := storedMetadata_runStatements hsch hstored hpart hqueued
          hplain hallows (Prod.ext hrun.symm rfl) (congrArg SchemaStore.schema hstore)
        refine ⟨c', hstored', fun other => PartKept.congr_stored ?_ (hagree other)⟩
        by_cases heq : operation.part = some other
        · cases hpart.symm.trans heq
          exact (hparts part).perform_success h.requests hpost hdb hpart
        · exact ((hparts other).perform_other h.requests hpost hdb
            (hother other heq)).congr_stored (edit_other heq).symm

theorem Cached.performTransactionOperation (h : s.Cached) {transaction : IDBIdentifier}
    {operation : TransactionOperation} {tasks : List DatabaseTask}
    (hpost : s.database.posting = [])
    (hdb : s.database.databaseTasks = .transactionOperation transaction operation :: tasks)
    (hopened : s.store.opened = true)
    (hfoll : s.store.Discards transaction operation → s.store.schema = s.store.atBegin) :
    Cached
      { s with
        database :=
          { s.database with
            databaseTasks := tasks
            posting := completions s.database.inMemory
              (s.store.performTransactionOperation statements transaction operation).1 metadata
              (.transactionOperation transaction operation) }
        store := (s.store.performTransactionOperation statements transaction operation).2 } := by
  obtain ⟨hopened', hsch, hsame⟩ :=
    SchemaStore.performTransactionOperation_unchanged h.unchanged hfoll
  refine h.perform hpost hdb (isOpen_completions nofun) ?_ hsame (fun _ => ⟨nofun, hsch⟩) ?_
  · intro hfalse
    rw [hopened', hopened] at hfalse
    cases hfalse
  · intro m c _ hstored hparts
    exact ⟨c, (storedMetadata_congr hsch).trans hstored, fun part =>
      (hparts part).perform_other h.requests hpost hdb nofun⟩

theorem didOpenBackingStoreAndReadMetadata_metadata (database : UniqueIDBDatabase)
    (metadata : Option DatabaseMetadata) :
    (database.didOpenBackingStoreAndReadMetadata metadata).metadata = match metadata with
      | none => database.metadata
      | some metadata => some metadata := by
  obtain ⟨answers, hfold⟩ := foldl_answer_metadata database.pendingMetadataRequests
    { database with
      didGetMetadataFromBackingStore := true
      metadata := match metadata with
        | none => database.metadata
        | some metadata => some metadata
      pendingMetadataRequests := [] }
  exact congrArg UniqueIDBDatabase.metadata hfold

theorem Cached.didOpenBackingStoreAndReadMetadata (h : s.Cached)
    (hmain : s.database.mainThreadTasks = .didOpenBackingStoreAndReadMetadata metadata :: tasks) :
    Cached { s with
      database := didOpenBackingStoreAndReadMetadata
        { s.database with mainThreadTasks := tasks } metadata } := by
  have hmeta := didOpenBackingStoreAndReadMetadata_metadata
    { s.database with mainThreadTasks := tasks } metadata
  obtain ⟨read, answers, heq⟩ :=
    @didOpenBackingStoreAndReadMetadata_eq { s.database with mainThreadTasks := tasks } metadata
  rw [heq] at hmeta ⊢
  have hcomp := completing_pop hmain
  have hclosed : ∀ task ∈ completing { s.database with mainThreadTasks := tasks },
      task.isOpen = false := by
    have hopens := h.opens
    rw [hcomp, countP_cons_of_pos rfl] at hopens
    have hzero := countP_eq_zero.mp (Nat.le_zero.mp (Nat.le_of_succ_le_succ hopens))
    exact fun task htask => Bool.not_eq_true _ ▸ hzero task htask
  have hsub : ∀ other ∈ completing { s.database with mainThreadTasks := tasks },
      other ∈ s.database.completing := by
    intro other hother
    rw [hcomp]
    exact mem_cons_of_mem _ hother
  have hfailed : ∀ part id, FailedAt part { s.database with mainThreadTasks := tasks } id ↔
      FailedAt part s.database id := fun part id => FailedAt.pop hmain rfl
  constructor
  case requests =>
    exact h.requests.shrink rfl rfl hsub (List.Sublist.refl _) fun _ _ _ hmem => hmem
  case opens =>
    have hzero : (completing { s.database with mainThreadTasks := tasks }).countP isOpen = 0 := by
      rw [countP_eq_zero]
      exact fun other hother => Bool.not_eq_true _ ▸ hclosed other hother
    exact hzero.trans_le (Nat.zero_le 1)
  case unopened =>
    intro hopened
    have hfalse := (h.unopened hopened).2.2 (.didOpenBackingStoreAndReadMetadata metadata) <| by
      rw [hcomp]
      exact mem_cons_self ..
    cases hfalse
  case unread =>
    intro hnone part
    have hnone' : s.database.metadata = none := by
      have hread : read = none := hnone
      rw [hread] at hmeta
      cases metadata with
      | none => exact hmeta.symm
      | some metadata => cases hmeta
    obtain ⟨hqueued, hnot⟩ := h.unread hnone' part
    exact ⟨hqueued, fun id hid => hnot id ((hfailed part id).mp hid)⟩
  case opening =>
    intro read hmem
    cases hclosed _ hmem
  case read =>
    intro m hm
    have hread : read = some m := hm
    rw [hread] at hmeta
    cases metadata with
    | none =>
      obtain ⟨c, hstored, hparts⟩ := h.read m hmeta.symm
      exact ⟨c, hstored, fun part => (hparts part).congr (hfailed part) rfl rfl⟩
    | some metadata =>
      cases hmeta
      obtain ⟨hnone, c, hstored, hagree⟩ := h.opening m <| by
        rw [hcomp]
        exact mem_cons_self ..
      refine ⟨c, hstored, fun part => ?_⟩
      obtain ⟨hqueued, hnot⟩ := h.unread hnone part
      refine .explained (fun id hid => hnot id ((hfailed part id).mp hid)) ?_
      rw [hqueued]
      exact hagree part
  case unchanged => exact h.unchanged

/-- The completion of a request: the part of a failure is taken back, the others stay. -/
theorem Cached.complete (h : s.Cached) {requestID : ℕ}
    (hmain : s.database.mainThreadTasks = .didCompleteRequest requestID success :: tasks)
    (hcomp : database.completing = completing { s.database with mainThreadTasks := tasks })
    (hpend : database.pendingDatabaseTasks =
      s.database.pendingDatabaseTasks.filter fun request => request.1 ≠ requestID)
    (hdb : database.databaseTasks = s.database.databaseTasks)
    (hnext : database.nextRequestID = s.database.nextRequestID)
    (hnone : database.metadata = none ↔ s.database.metadata = none)
    (hread : ∀ m', database.metadata = some m' → ∃ m, s.database.metadata = some m ∧ ∀ part,
      (∃ undo, (requestID, undo) ∈ s.database.pendingDatabaseTasks ∧
        FailedAt part s.database requestID ∧ m' = m.undo undo) ∨
      ¬ FailedAt part s.database requestID ∧ AgreeAt part m m') :
    Cached { s with database := database } := by
  have hpop := completing_pop hmain
  have hsub : ∀ other ∈ database.completing, other ∈ s.database.completing := by
    intro other hother
    rw [hpop]
    exact mem_cons_of_mem _ (hcomp ▸ hother)
  constructor
  case requests =>
    refine h.requests.shrink hdb hnext hsub (hpend ▸ filter_sublist) ?_
    intro id hid undo hmem
    rw [hpend]
    refine mem_filter.mpr ⟨hmem, ?_⟩
    have hne : id ≠ requestID := by
      rintro rfl
      refine h.requests.disjoint id hid ?_
      rw [hpop]
      exact mem_cons_self ..
    simpa using hne
  case opens =>
    have hopens := h.opens
    rw [hpop, countP_cons_of_neg Bool.false_ne_true] at hopens
    exact hcomp ▸ hopens
  case unopened =>
    intro hopened
    obtain ⟨hmeta, hprog, hold⟩ := h.unopened hopened
    exact ⟨hnone.mpr hmeta, hprog, fun other hother => hold other (hsub other hother)⟩
  case unread =>
    intro hmeta part
    obtain ⟨hqueued, hnot⟩ := h.unread (hnone.mp hmeta) part
    exact ⟨(congrArg (queuedAt part) hdb).trans hqueued,
      fun id hid => hnot id ((FailedAt.of_complete hmain hcomp hpend).mp hid).1⟩
  case opening =>
    intro read hmem
    obtain ⟨hmeta, hstored⟩ := h.opening read (hsub _ hmem)
    exact ⟨hnone.mpr hmeta, hstored⟩
  case read =>
    intro m' hm'
    obtain ⟨m, hm, hcases⟩ := hread m' hm'
    obtain ⟨c, hstored, hparts⟩ := h.read m hm
    refine ⟨c, hstored, fun part => ?_⟩
    rcases hcases part with ⟨undo, hundo, hfailed, rfl⟩ | ⟨hnot, hagree⟩
    · exact (hparts part).complete_failed h.requests hmain hundo hfailed hcomp hpend hdb
    · exact ((hparts part).complete_other h.requests hmain hnot hcomp hpend hdb).congr_cached hagree
  case unchanged => exact h.unchanged

theorem Cached.didCompleteRequest (h : s.Cached) {requestID : ℕ}
    (hmain : s.database.mainThreadTasks = .didCompleteRequest requestID success :: tasks) :
    Cached { s with
      database := didCompleteRequest
        { s.database with mainThreadTasks := tasks } requestID success } := by
  unfold UniqueIDBDatabase.didCompleteRequest
  cases hfind : s.database.pendingDatabaseTasks.find? fun request => request.1 = requestID with
  | none =>
    have hother : ∀ request ∈ s.database.pendingDatabaseTasks, request.1 ≠ requestID := by
      simpa using find?_eq_none.mp hfind
    refine h.complete hmain rfl ?_ rfl rfl Iff.rfl ?_
    · symm
      rw [filter_eq_self]
      exact fun request hmem => by simpa using hother request hmem
    · intro m hm
      refine ⟨m, hm, fun part => .inr ⟨?_, AgreeAt.refl part m⟩⟩
      rintro ⟨undo, hpend, -⟩
      exact hother _ hpend rfl
  | some request =>
    have hmem := mem_of_find?_eq_some hfind
    have hid : request.1 = requestID := by simpa using find?_some hfind
    have hcomp : .didCompleteRequest requestID success ∈ s.database.completing := by
      rw [completing_pop hmain]
      exact mem_cons_self ..
    cases success with
    | true =>
      refine h.complete hmain rfl rfl rfl rfl Iff.rfl ?_
      intro m hm
      refine ⟨m, hm, fun part => .inr ⟨?_, AgreeAt.refl part m⟩⟩
      rintro ⟨undo, hpend, hpart, hfailed⟩
      rw [h.requests.onceEach requestID undo hpend hcomp hfailed] at hpart
      cases hpart
    | false =>
      refine h.complete hmain rfl rfl rfl rfl map_eq_none_iff ?_
      intro m' hm'
      obtain ⟨m, hm, rfl⟩ := map_eq_some_iff.mp hm'
      refine ⟨m, hm, fun part => ?_⟩
      have hpend : (requestID, request.2) ∈ s.database.pendingDatabaseTasks := hid ▸ hmem
      by_cases hpart : request.2.part = some part
      · exact .inl ⟨request.2, hpend, ⟨request.2, hpend, hpart, hcomp⟩, rfl⟩
      · refine .inr ⟨?_, (undo_other hpart).symm⟩
        rintro ⟨undo, hundo, hpart', -⟩
        rw [h.requests.undo_unique hundo hpend] at hpart'
        exact hpart hpart'

theorem Cached.performMainThreadTask (h : s.Cached) {task : MainThreadTask} (hmain : s.database.mainThreadTasks = task :: tasks) :
    Kept { s with
      database := performMainThreadTask { s.database with mainThreadTasks := tasks } task } := by
  cases task with
  | didOpenBackingStoreAndReadMetadata metadata =>
    exact fun _ => h.didOpenBackingStoreAndReadMetadata hmain
  | didEstablishTransaction _ success | didResetTransaction _ success =>
    apply (h.pop hmain rfl rfl).frames
    cases success <;> exact of_same rfl rfl rfl rfl le_rfl rfl rfl
  | didCompleteTransactionOperation transaction success =>
    exact (h.pop hmain rfl rfl).frames (didCompleteTransactionOperation _ _ _)
  | didCompleteRequest requestID success => exact fun _ => h.didCompleteRequest hmain
  | didShutdownBackingStore type =>
    have hfalse := h.requests.noShutdownCompleting (.didShutdownBackingStore type) <| by
      rw [completing_pop hmain]
      exact mem_cons_self ..
    cases hfalse

/-! ## Runs -/

theorem exists_apply {e : StoredEvent} (h : s.apply e = some t) :
    ∃ event, s.database.apply event = some t.database := by
  unfold apply at h
  split at h
  · split at h
    · cases h
    · split at h
      · cases h
      · obtain ⟨database, happly, rfl⟩ := map_eq_some_iff.mp h
        exact ⟨_, happly⟩
  · obtain ⟨database, happly, rfl⟩ := map_eq_some_iff.mp h
    exact ⟨_, happly⟩

theorem Cached.performNextDatabaseTask (h : s.Cached)
    (hfoll : s.Followed ⟨.performNextDatabaseTask success metadata, statements⟩)
    (happly : s.apply ⟨.performNextDatabaseTask success metadata, statements⟩ = some t) :
    t.Cached := by
  simp only [apply] at happly
  simp only [Followed] at hfoll
  split at happly
  · cases happly
  rename_i task tasks hdb
  rw [hdb] at hfoll
  split at happly
  · cases happly
  rename_i result read store hperf
  obtain ⟨database, happl, rfl⟩ := map_eq_some_iff.mp happly
  simp only [UniqueIDBDatabase.apply] at happl
  split at happl
  case h_2 => cases happl
  rename_i task' tasks' hpost hdb'
  cases hdb.symm.trans hdb'
  cases happl
  cases task with
  | openBackingStoreAndReadMetadata => exact h.performOpen hpost hdb hperf
  | transactionOperation transaction operation =>
    simp only [SchemaStore.perform] at hperf
    split at hperf
    · cases hperf
    rename_i hopened
    cases hperf
    exact h.performTransactionOperation hpost hdb (by simpa using hopened) hfoll
  | operation requestID operation =>
    simp only [SchemaStore.perform] at hperf
    split at hperf
    · cases hperf
    rename_i hopened
    cases hperf
    exact h.performOperation hpost hdb (by simpa using hopened) hfoll
  | shutdownBackingStore type =>
    cases h.requests.noShutdownQueued (.shutdownBackingStore type) (hdb ▸ mem_cons_self ..)

theorem kept_step {e : StoredEvent} (h : s.Kept) (hfoll : s.Followed e)
    (hstep : s.Step e t) : t.Kept := by
  obtain ⟨hallowed, hfrontEnd, happly⟩ := hstep
  cases hacc : s.database.acceptingNewRequests with
  | false =>
    obtain ⟨event, hevent⟩ := exists_apply happly
    intro hacc'
    rw [apply_not_accepting hacc hevent] at hacc'
    cases hacc'
  | true =>
    have hcached := h hacc
    obtain ⟨event, statements⟩ := e
    have hnext : Frames s.database
        { s.database with nextRequestID := s.database.nextRequestID + 1 } :=
      of_same rfl rfl rfl rfl (Nat.le_succ _) rfl rfl
    cases event with
    | registerConnection connection =>
      obtain ⟨database, happl, rfl⟩ := map_eq_some_iff.mp happly
      simp only [UniqueIDBDatabase.apply] at happl
      split at happl <;> cases happl
      exact hcached.frames (Frames.of_same rfl rfl rfl rfl le_rfl rfl rfl)
    | unregisterConnection connection =>
      obtain ⟨database, happl, rfl⟩ := map_eq_some_iff.mp happly
      simp only [UniqueIDBDatabase.apply] at happl
      split at happl <;> cases happl
      exact hcached.frames (Frames.unregisterConnection _ connection)
    | getOrEstablishIDBDatabaseMetadata =>
      cases happly
      exact hcached.frames (hnext.trans (getOrEstablishIDBDatabaseMetadata _ _))
    | transactionOperation transaction operation =>
      cases happly
      exact hcached.frames (hnext.trans (transactionOperation _ _ transaction operation))
    | requestOperation operation =>
      cases happly
      exact fun _ => hcached.requestOperation hacc hallowed hfrontEnd hfoll
    | deleteDatabase =>
      cases happly
      exact hcached.frames (hnext.trans (deleteDatabase _ _))
    | performNextDatabaseTask success metadata =>
      exact fun _ => hcached.performNextDatabaseTask hfoll happly
    | postMainThreadTask =>
      obtain ⟨database, happl, rfl⟩ := Option.map_eq_some_iff.mp happly
      simp only [UniqueIDBDatabase.apply] at happl
      split at happl
      · cases happl
      · rename_i task type posting hpost
        rw [if_neg (by simp [hacc])] at happl
        cases happl
        exact hcached.frames (of_same rfl rfl rfl (completing_post hpost) le_rfl rfl rfl)
    | performNextMainThreadTask =>
      obtain ⟨database, happl, rfl⟩ := Option.map_eq_some_iff.mp happly
      simp only [UniqueIDBDatabase.apply] at happl
      split at happl
      · cases happl
      · rename_i task tasks hmain
        cases happl
        exact hcached.performMainThreadTask hmain
    | callOnMainThread =>
      obtain ⟨database, happl, rfl⟩ := map_eq_some_iff.mp happly
      simp only [UniqueIDBDatabase.apply] at happl
      split at happl <;> cases happl
      exact hcached.frames (Frames.of_same rfl rfl rfl rfl le_rfl rfl rfl)

theorem kept_create (inMemory : Bool) (connection : ℕ) (databaseName : String)
    (schema : Option Schema) : Kept (create inMemory connection databaseName schema) := by
  refine fun _ => ⟨⟨nofun, nofun, nodup_nil, nofun, nodup_nil, nofun, nofun, nofun,
    nofun, nofun⟩, Nat.zero_le 1, fun _ => ⟨rfl, rfl, nofun⟩, fun _ part => ⟨rfl, ?_⟩, nofun,
    nofun, nofun⟩
  rintro id ⟨undo, hpend, -⟩
  cases hpend

/-- The cached metadata is the stored one. -/
def MetadataStored (s : StoredDatabase) : Prop :=
  ∀ m, s.database.metadata = some m → ∃ stored, s.storedMetadata = some stored ∧
    m.version = stored.version ∧ m.objectStores = stored.objectStores

theorem Cached.metadataStored (h : s.Cached) (hidle : s.Idle) : s.MetadataStored := by
  obtain ⟨hdb, hpost, hmain⟩ := hidle
  have hcomp : s.database.completing = [] := by
    unfold completing
    rw [hmain, hpost]
    rfl
  intro m hm
  obtain ⟨c, hstored, hparts⟩ := h.read m hm
  have hagree : ∀ part, AgreeAt part c m := by
    intro part
    cases hparts part with
    | explained failed explains =>
      rw [hdb] at explains
      exact explains
    | failed requestID undo pending about completing =>
      rw [hcomp] at completing
      cases completing
  refine ⟨c, hstored, (hagree .version).symm, ?_⟩
  funext id
  exact (hagree (.objectStore id)).symm

/-- An object store, and an index of it. -/
def booksMetadata : ObjectStoreMetadata where
  name := "books"
  id := 1
  keyPath := .null
  autoIncrement := false
  maxIndexId := 0
  indexes := fun _ => none

def titlesMetadata : IndexMetadata where
  name := "titles"
  id := 5
  keyPath := .string "title"
  unique := false
  multiEntry := false

end StoredDatabase

end WebKit.IndexedDB
