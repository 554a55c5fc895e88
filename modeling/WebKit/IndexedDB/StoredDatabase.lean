import WebKit.IndexedDB.UniqueIDBDatabase

/-!
# The stored metadata

The tables `IDBDatabaseInfo`, `ObjectStoreInfo` and `IndexInfo`, how `extractExistingMetadata`
reads them, and the statements with which the schema operations change them. A statement that
fails leaves the tables as they are, and its operation reports a failure: what the statements
before it did stays.
-/

open List Function

namespace WebKit.IndexedDB

structure Schema where
  version : ℕ
  objectStoreInfo : List ObjectStoreInfoRow
  indexInfo : List IndexInfoRow

/-! ## Reading -/

def ObjectStoreInfoRow.metadata (row : ObjectStoreInfoRow) : ObjectStoreMetadata where
  name := row.name
  id := row.id
  keyPath := row.keyPath
  autoIncrement := row.autoInc
  maxIndexId := row.maxIndexID
  indexes := fun _ => none

abbrev ObjectStoreMap := ℤ → Option ObjectStoreMetadata

/-- The loop over `ObjectStoreInfo`. -/
def readObjectStores (rows : List ObjectStoreInfoRow) (objectStores : ObjectStoreMap) :
    ObjectStoreMap :=
  rows.foldl (fun objectStores row =>
    update objectStores row.id (some row.metadata)) objectStores

/-- A row of `IndexInfo`; its object store has to be there. -/
def readIndex (objectStores : ObjectStoreMap) (row : IndexInfoRow) : Option ObjectStoreMap :=
  match objectStores row.objectStoreID with
  | none => none
  | some objectStore =>
    some (update objectStores row.objectStoreID
      (some { objectStore with
        indexes := update objectStore.indexes row.metadata.id (some row.metadata) }))

/-- The loop over `IndexInfo`. -/
def readIndexes : List IndexInfoRow → ObjectStoreMap → Option ObjectStoreMap
  | [], objectStores => some objectStores
  | row :: rows, objectStores =>
    match readIndex objectStores row with
    | none => none
    | some objectStores => readIndexes rows objectStores

namespace Schema

variable (schema : Schema)

def objectStores : Option ObjectStoreMap :=
  readIndexes schema.indexInfo (readObjectStores schema.objectStoreInfo fun _ => none)

def extractExistingMetadata (databaseName : String) : Option DatabaseMetadata :=
  match schema.objectStores with
  | none => none
  | some objectStores =>
    some
      { name := databaseName
        id := 0
        version := schema.version
        maxObjectStoreId := 0
        objectStores := objectStores }

/-- `IDBDatabaseMetadata::NoIntVersion`. -/
def noIntVersion : ℕ := 9223372036854775807

/-- The tables that `createAndPopulateInitialMetadata` makes. -/
def initial : Schema where
  version := noIntVersion
  objectStoreInfo := []
  indexInfo := []

def initialMetadata (databaseName : String) : DatabaseMetadata where
  name := databaseName
  id := 0
  version := noIntVersion
  maxObjectStoreId := 1
  objectStores := fun _ => none

end Schema

/-- What the database is opened with: when the metadata cannot be read from tables that exist,
they cannot be created either, and there is no metadata to go on with. -/
def getOrEstablishMetadata (databaseName : String) :
    Option Schema → Option (DatabaseMetadata × Schema)
  | none => some (Schema.initialMetadata databaseName, .initial)
  | some schema =>
    match schema.extractExistingMetadata databaseName with
    | none => none
    | some metadata => some (metadata, schema)

/-- The statements of a schema operation, by what they do to the tables of the metadata. -/
def DatabaseOperation.statements : DatabaseOperation → List (Schema → Option Schema)
  | .changeDatabaseVersion _ newVersion => [fun schema => some { schema with version := newVersion }]
  | .createObjectStore _ metadata =>
    [fun schema =>
      if schema.objectStoreInfo.any fun row => row.id = metadata.id || row.name = metadata.name
      then none
      else
        some
          { schema with
            objectStoreInfo :=
              schema.objectStoreInfo ++
                [⟨metadata.id, metadata.name, metadata.keyPath, metadata.autoIncrement,
                  metadata.maxIndexId⟩] },
      -- `KeyGenerators`
      some]
  | .deleteObjectStore _ objectStoreID =>
    [fun schema =>
      some
        { schema with
          objectStoreInfo := schema.objectStoreInfo.filter fun row => row.id ≠ objectStoreID },
      -- `KeyGenerators` and `Records`
      some, some,
      fun schema =>
      some
        { schema with
          indexInfo := schema.indexInfo.filter fun row => row.objectStoreID ≠ objectStoreID },
      -- `IndexRecords`
      some]
  | .createIndex _ objectStoreID metadata =>
    [fun schema => some { schema with indexInfo := schema.indexInfo ++ [⟨objectStoreID, metadata⟩] },
      -- the index records of the records that there are
      some]
  | .deleteIndex _ objectStoreID indexID =>
    [fun schema =>
      some
        { schema with
          indexInfo := schema.indexInfo.filter fun row =>
            ¬(row.metadata.id = indexID ∧ row.objectStoreID = objectStoreID) },
      -- `IndexRecords`
      some]
  | _ => []

/-- The statements are run until one fails; at most this many go through. -/
def runStatements : List (Schema → Option Schema) → ℕ → Schema → Bool × Schema
  | [], _, schema => (true, schema)
  | _ :: _, 0, schema => (false, schema)
  | statement :: statements, n + 1, schema =>
    match statement schema with
    | none => (false, schema)
    | some schema => runStatements statements n schema

/-! ## What reading gives -/

variable {objectStores objectStores' : ObjectStoreMap} {objectStoreID : ℤ}

theorem readObjectStores_append (rows : List ObjectStoreInfoRow) (row : ObjectStoreInfoRow) :
    readObjectStores (rows ++ [row]) objectStores =
      update (readObjectStores rows objectStores) row.id (some row.metadata) := by
  unfold readObjectStores
  rw [foldl_append]
  rfl

theorem readObjectStores_filter (rows : List ObjectStoreInfoRow) :
    readObjectStores (rows.filter fun row => row.id ≠ objectStoreID)
        (update objectStores objectStoreID none) =
      update (readObjectStores rows objectStores) objectStoreID none := by
  unfold readObjectStores
  induction rows generalizing objectStores with
  | nil => rfl
  | cons row rows ih =>
    by_cases hid : row.id = objectStoreID
    · rw [filter_cons_of_neg (by simpa using hid), foldl_cons, ← ih, hid, update_idem]
    · rw [filter_cons_of_pos (by simpa using hid), foldl_cons, foldl_cons, ← ih, update_comm hid]

variable {value : Option ObjectStoreMetadata}

theorem readIndex_update {row : IndexInfoRow} (hne : row.objectStoreID ≠ objectStoreID) :
    readIndex (update objectStores objectStoreID value) row =
      (readIndex objectStores row).map fun objectStores =>
        update objectStores objectStoreID value := by
  unfold readIndex
  rw [update_of_ne hne]
  cases objectStores row.objectStoreID with
  | none => rfl
  | some objectStore =>
    rw [Option.map_some, update_comm hne]

variable {rows : List IndexInfoRow}

theorem readIndexes_update (hne : ∀ row ∈ rows, row.objectStoreID ≠ objectStoreID)
    (hread : readIndexes rows objectStores = some objectStores') :
    readIndexes rows (update objectStores objectStoreID value) =
      some (update objectStores' objectStoreID value) := by
  induction rows generalizing objectStores with
  | nil =>
    cases hread
    rfl
  | cons row rows ih =>
    unfold readIndexes at hread ⊢
    rw [readIndex_update (hne row (mem_cons_self ..))]
    cases hrow : readIndex objectStores row with
    | none =>
      rw [hrow] at hread
      cases hread
    | some next =>
      rw [hrow] at hread
      exact ih (fun row hmem => hne row (mem_cons_of_mem _ hmem)) hread

theorem readIndexes_filter (hread : readIndexes rows objectStores = some objectStores') :
    readIndexes (rows.filter fun row => row.objectStoreID ≠ objectStoreID)
        (update objectStores objectStoreID none) =
      some (update objectStores' objectStoreID none) := by
  induction rows generalizing objectStores with
  | nil =>
    cases hread
    rfl
  | cons row rows ih =>
    unfold readIndexes at hread
    cases hrow : readIndex objectStores row with
    | none =>
      rw [hrow] at hread
      cases hread
    | some next =>
      rw [hrow] at hread
      by_cases hid : row.objectStoreID = objectStoreID
      · rw [filter_cons_of_neg (by simpa using hid)]
        have hnext : update next objectStoreID none = update objectStores objectStoreID none := by
          unfold readIndex at hrow
          split at hrow
          · cases hrow
          · cases hrow
            rw [hid, update_idem]
        rw [← hnext]
        exact ih hread
      · rw [filter_cons_of_pos (by simpa using hid)]
        unfold readIndexes
        rw [readIndex_update hid, hrow]
        exact ih hread

theorem isSome_of_readIndex {row : IndexInfoRow} {id : ℤ}
    (hread : readIndex objectStores row = some objectStores')
    (hsome : (objectStores id).isSome ∨ row.objectStoreID = id) : (objectStores' id).isSome := by
  unfold readIndex at hread
  split at hread
  · cases hread
  · cases hread
    by_cases hid : id = row.objectStoreID
    · rw [hid, update_self]
      rfl
    · rw [update_of_ne hid]
      exact hsome.elim (fun h => h) fun h => absurd h.symm hid

theorem isSome_of_readIndexes {id : ℤ} (hread : readIndexes rows objectStores = some objectStores')
    (hsome : (objectStores id).isSome ∨ ∃ row ∈ rows, row.objectStoreID = id) :
    (objectStores' id).isSome := by
  induction rows generalizing objectStores with
  | nil =>
    cases hread
    exact hsome.elim (fun h => h) fun ⟨row, hmem, _⟩ => by cases hmem
  | cons row rows ih =>
    unfold readIndexes at hread
    cases hrow : readIndex objectStores row with
    | none =>
      rw [hrow] at hread
      cases hread
    | some next =>
      rw [hrow] at hread
      apply ih hread
      rcases hsome with hsome | ⟨other, hmem, hid⟩
      · exact .inl (isSome_of_readIndex hrow (.inl hsome))
      · rcases mem_cons.mp hmem with rfl | hmem
        · exact .inl (isSome_of_readIndex hrow (.inr hid))
        · exact .inr ⟨other, hmem, hid⟩

/-- What is stored is stored under its id. -/
def KeyedStores (objectStores : ObjectStoreMap) : Prop :=
  ∀ id objectStore, objectStores id = some objectStore → objectStore.id = id ∧
    ∀ indexID index, objectStore.indexes indexID = some index → index.id = indexID

theorem KeyedStores.update (h : KeyedStores objectStores) {id : ℤ}
    (hvalue : ∀ objectStore, value = some objectStore → objectStore.id = id ∧
      ∀ indexID index, objectStore.indexes indexID = some index → index.id = indexID) :
    KeyedStores (update objectStores id value) := by
  intro id' objectStore hget
  by_cases hid : id' = id
  · subst hid
    rw [update_self] at hget
    exact hvalue objectStore hget
  · rw [update_of_ne hid] at hget
    exact h id' objectStore hget

theorem keyedStores_readObjectStores (rows : List ObjectStoreInfoRow)
    (h : KeyedStores objectStores) : KeyedStores (readObjectStores rows objectStores) := by
  induction rows generalizing objectStores with
  | nil => exact h
  | cons row rows ih =>
    apply ih
    apply h.update
    intro objectStore heq
    cases heq
    exact ⟨rfl, nofun⟩

theorem keyedStores_readIndexes (h : KeyedStores objectStores)
    (hread : readIndexes rows objectStores = some objectStores') : KeyedStores objectStores' := by
  induction rows generalizing objectStores with
  | nil =>
    cases hread
    exact h
  | cons row rows ih =>
    unfold readIndexes at hread
    cases hrow : readIndex objectStores row with
    | none =>
      rw [hrow] at hread
      cases hread
    | some next =>
      rw [hrow] at hread
      refine ih ?_ hread
      unfold readIndex at hrow
      split at hrow
      · cases hrow
      rename_i objectStore hget
      cases hrow
      apply h.update
      intro objectStore' heq
      cases heq
      refine ⟨(h _ _ hget).1, fun indexID index hindex => ?_⟩
      by_cases hid : indexID = row.metadata.id
      · subst hid
        simp only [update_self, Option.some.injEq] at hindex
        rw [← hindex]
      · simp only [update_of_ne hid] at hindex
        exact (h _ _ hget).2 indexID index hindex

/-!
## The database with its stored metadata

The backing store with the tables of the metadata and its transactions, of which one at a time
is in progress in SQLite. A task of the database thread has a number of SQL statements that go
through; the first statement after these fails. Apart from that a task does in the backing
store what the source says, as far as the metadata depends on it.
-/

/-- The part of the metadata that a schema operation changes. -/
inductive SchemaPart
  | version
  | objectStore (id : ℤ)
  deriving DecidableEq

namespace DatabaseOperation

def part : DatabaseOperation → Option SchemaPart
  | .changeDatabaseVersion _ _ => some .version
  | .createObjectStore _ metadata => some (.objectStore metadata.id)
  | .deleteObjectStore _ objectStoreID => some (.objectStore objectStoreID)
  | .createIndex _ objectStoreID _ => some (.objectStore objectStoreID)
  | .deleteIndex _ objectStoreID _ => some (.objectStore objectStoreID)
  | _ => none

/-- The transaction that a schema operation needs in progress. -/
def schemaTransaction : DatabaseOperation → Option IDBIdentifier
  | .changeDatabaseVersion transaction _ => some transaction
  | .createObjectStore transaction _ => some transaction
  | .deleteObjectStore transaction _ => some transaction
  | .createIndex transaction _ _ => some transaction
  | .deleteIndex transaction _ _ => some transaction
  | _ => none

def isIndexOperation : DatabaseOperation → Bool
  | .createIndex _ _ _ | .deleteIndex _ _ _ => true
  | _ => false

/-- The metadata of a new object store has no indexes. -/
def Plain : DatabaseOperation → Prop
  | .createObjectStore _ metadata => metadata.indexes = fun _ => none
  | _ => True

end DatabaseOperation

structure SchemaStore where
  /-- `m_backingStore` is there. -/
  opened : Bool
  schema : Option Schema
  transactions : IDBIdentifier → Option TransactionMode
  /-- The transaction that SQLite has in progress. -/
  inProgress : Option IDBIdentifier
  /-- What the tables were when it began. -/
  atBegin : Option Schema

namespace SchemaStore

variable (s : SchemaStore)

/-- The `SQLiteTransaction` of a transaction is destroyed, or rolled back. -/
def endSQLiteTransaction (transaction : IDBIdentifier) : SchemaStore :=
  if s.inProgress = some transaction then { s with schema := s.atBegin, inProgress := none }
  else s

def performTransactionOperation (statements : ℕ) (transaction : IDBIdentifier) :
    TransactionOperation → Bool × SchemaStore
  | .openTransaction mode =>
    match s.transactions transaction with
    | some _ => (false, s)
    | none =>
      (true, { s with transactions := update s.transactions transaction (some mode) })
  | .beginTransaction =>
    match s.transactions transaction with
    | none => (false, s)
    | some _ =>
      let s := s.endSQLiteTransaction transaction
      if s.inProgress.isSome || statements = 0 then (false, s)
      else (true, { s with inProgress := some transaction, atBegin := s.schema })
  | .commitTransaction =>
    if s.inProgress ≠ some transaction || statements = 0 then (false, s)
    else (true, { s with inProgress := none })
  | .resetTransaction =>
    match s.transactions transaction with
    | none => (false, s)
    | some _ =>
      let s := s.endSQLiteTransaction transaction
      (true, { s with transactions := update s.transactions transaction none })
  | .rollbackTransaction =>
    if s.inProgress ≠ some transaction then (false, s)
    else (true, s.endSQLiteTransaction transaction)

/-- The operations on records have any result. -/
def performOperation (statements : ℕ) (operation : DatabaseOperation) : Bool × SchemaStore :=
  match operation.schemaTransaction, s.schema with
  | none, _ => (decide (0 < statements), s)
  | some _, none => (false, s)
  | some transaction, some schema =>
    if s.transactions transaction ≠ some .versionChange || s.inProgress ≠ some transaction then
      (false, s)
    else
      let result := runStatements operation.statements statements schema
      (result.1, { s with schema := some result.2 })

/-- A task: its result, the metadata it reads, and the backing store afterwards. There is no
step where the source asserts that the backing store is there, or is not. -/
def perform (inMemory : Bool) (databaseName : String) (statements : ℕ) :
    DatabaseTask → Option (Bool × Option DatabaseMetadata × SchemaStore)
  | .openBackingStoreAndReadMetadata =>
    if inMemory then some (false, none, s)
    else if s.opened then none
    else if statements = 0 then some (false, none, { s with opened := true })
    else
      match getOrEstablishMetadata databaseName s.schema with
      | none => none
      | some (metadata, schema) =>
        some (true, some metadata, { s with opened := true, schema := some schema })
  | .transactionOperation transaction operation =>
    if !s.opened then none
    else
      let result := s.performTransactionOperation statements transaction operation
      some (result.1, none, result.2)
  | .operation _ operation =>
    if !s.opened then none
    else
      let result := s.performOperation statements operation
      some (result.1, none, result.2)
  | .shutdownBackingStore type =>
    some (false, none,
      { opened := false
        schema :=
          match type with
          | .deleteShutdown => none
          | .normalShutdown => if s.inProgress.isSome then s.atBegin else s.schema
        transactions := fun _ => none
        inProgress := none
        atBegin := none })

end SchemaStore

structure StoredDatabase where
  database : UniqueIDBDatabase
  databaseName : String
  store : SchemaStore

namespace StoredDatabase

open UniqueIDBDatabase

/-- What happens next, with the statements that go through when a database task is performed. -/
structure StoredEvent where
  event : UniqueIDBDatabase.Event
  statements : ℕ

variable (s : StoredDatabase)

def apply (e : StoredEvent) : Option StoredDatabase :=
  match e.event with
  | .performNextDatabaseTask _ _ =>
    match s.database.databaseTasks with
    | [] => none
    | task :: _ =>
      match s.store.perform s.database.inMemory s.databaseName e.statements task with
      | none => none
      | some (success, metadata, store) =>
        (s.database.apply (.performNextDatabaseTask success metadata)).map fun database =>
          { s with database := database, store := store }
  | event => (s.database.apply event).map fun database => { s with database := database }

/-- The front-end creates object stores without indexes. -/
def FromFrontEnd : UniqueIDBDatabase.Event → Prop
  | .requestOperation operation => operation.Plain
  | _ => True

def Step (s : StoredDatabase) (e : StoredEvent) (t : StoredDatabase) : Prop :=
  s.database.Allowed e.event ∧ FromFrontEnd e.event ∧ s.apply e = some t

/-- A database whose file has these tables, or none yet. -/
def create (inMemory : Bool) (connection : ℕ) (databaseName : String) (schema : Option Schema) :
    StoredDatabase where
  database := .create inMemory connection
  databaseName := databaseName
  store :=
    { opened := false
      schema := schema
      transactions := fun _ => none
      inProgress := none
      atBegin := none }

def Idle : Prop :=
  s.database.databaseTasks = [] ∧ s.database.posting = [] ∧ s.database.mainThreadTasks = []

def VersionChangeInProgress : Prop :=
  ∃ transaction, s.store.inProgress = some transaction ∧
    s.store.transactions transaction = some .versionChange

/-- What `extractExistingMetadata` would read. -/
def storedMetadata : Option DatabaseMetadata :=
  match s.store.schema with
  | none => none
  | some schema => schema.extractExistingMetadata s.databaseName

end StoredDatabase

end WebKit.IndexedDB
