import WebKit.IndexedDB.SQLiteIDBCursor

/-!
# The backing store

The operations of `UniqueIDBDatabaseBackingStoreSQLite` on object stores, indexes and records,
and `UniqueIDBDatabase::putRecordInBackingStore`. Each returns the tables it leaves when it
reports success. The statements themselves do not fail, apart from the constraints of the
tables. What the script engine does, to deserialize a value and to look up a key path in it, is
the parameter `createIDBKeyFromScriptValueAndKeyPath`.
-/

namespace WebKit.IndexedDB

open Enumeration

namespace Key

mutual

def isValid : Key → Bool
  | .invalid => false
  | .array a => isValidArray a
  | _ => true

def isValidArray : List Key → Bool
  | [] => true
  | a :: as => isValid a && isValidArray as

end

/-- The elements of `IDBKey::createMultiEntryArray`: the valid ones, each once. -/
def createMultiEntryArray (array : List Key) : List Key :=
  array.foldl (fun result key =>
    if !key.isValid then result
    else if result.any fun other => key.compare other = .eq then result
    else result ++ [key]) []

end Key

def generateIndexKeysForValue
    (createIDBKeyFromScriptValueAndKeyPath : Value → KeyPath → Option Key)
    (indexMetadata : IndexMetadata) (value : Value) : List Key :=
  match createIDBKeyFromScriptValueAndKeyPath value indexMetadata.keyPath with
  | none => []
  | some indexKey =>
    match indexMetadata.multiEntry, indexKey with
    | true, .array array => Key.createMultiEntryArray array
    | _, indexKey => if !indexKey.isValid then [] else [indexKey]

inductive TransactionMode
  | readOnly
  | readWrite
  | versionChange
  deriving DecidableEq

/-- What the backing store's operations ask of a transaction. -/
structure SQLiteIDBTransaction where
  mode : TransactionMode
  inProgress : Bool

/-- An established transaction in progress, in version-change mode. -/
def SQLiteIDBTransaction.canChangeVersion : Option SQLiteIDBTransaction → Bool
  | none => false
  | some transaction => transaction.inProgress && transaction.mode = .versionChange

/-- An established transaction in progress that is not read-only. -/
def SQLiteIDBTransaction.canWrite : Option SQLiteIDBTransaction → Bool
  | none => false
  | some transaction => transaction.inProgress && transaction.mode ≠ .readOnly

def SQLiteIDBTransaction.canRead : Option SQLiteIDBTransaction → Bool
  | none => false
  | some transaction => transaction.inProgress

namespace Tables

variable (serialize : Option Key → List UInt8)
  (createIDBKeyFromScriptValueAndKeyPath : Value → KeyPath → Option Key) (supply : RowidSupply)
  (transaction : Option SQLiteIDBTransaction) (objectStoreID indexID : ℤ)
  (tables : Tables Value)

def createObjectStore (metadata : ObjectStoreMetadata) : Option (Tables Value) :=
  if !SQLiteIDBTransaction.canChangeVersion transaction then none
  else if tables.objectStoreInfo.any fun row => row.id = metadata.id || row.name = metadata.name
  then none
  else
    some
      { tables with
        objectStoreInfo :=
          tables.objectStoreInfo ++
            [⟨metadata.id, metadata.name, metadata.keyPath, metadata.autoIncrement,
              metadata.maxIndexId⟩]
        keyGenerators :=
          tables.keyGenerators.filter (fun row => row.objectStoreID ≠ metadata.id) ++
            [⟨metadata.id, 0⟩] }

def deleteObjectStore : Option (Tables Value) :=
  if !SQLiteIDBTransaction.canChangeVersion transaction then none
  else
    some
      { objectStoreInfo := tables.objectStoreInfo.filter fun row => row.id ≠ objectStoreID
        keyGenerators := tables.keyGenerators.filter fun row => row.objectStoreID ≠ objectStoreID
        records := tables.records.filter fun row => row.objectStoreID ≠ objectStoreID
        indexInfo := tables.indexInfo.filter fun row => row.objectStoreID ≠ objectStoreID
        indexRecords := tables.indexRecords.filter fun row => row.objectStoreID ≠ objectStoreID }

def clearObjectStore : Option (Tables Value) :=
  if !SQLiteIDBTransaction.canWrite transaction then none
  else
    some
      { tables with
        records := tables.records.filter fun row => row.objectStoreID ≠ objectStoreID
        indexRecords := tables.indexRecords.filter fun row => row.objectStoreID ≠ objectStoreID }

def uncheckedPutIndexRecord (keyValue indexKey : KeyData) : Tables Value :=
  { tables with
    indexRecords :=
      tables.indexRecords ++
        [⟨supply.choose (tables.indexRecords.map (·.rowid)), indexID, objectStoreID,
          indexKey.encode, keyValue.encode⟩] }

/-- `uncheckedPutIndexRecord` for each of the index keys. -/
def putIndexRecords (keyValue : KeyData) (indexKeys : List Key) : Tables Value :=
  indexKeys.foldl (fun tables indexKey =>
    tables.uncheckedPutIndexRecord supply objectStoreID indexID keyValue (.ofKey indexKey)) tables

/-- The loop of `createIndex` over the records that exist. -/
def populateIndex (metadata : IndexMetadata) :
    ℕ → Tables Value → SQLiteIDBCursor Value → Option (Tables Value)
  | 0, _, _ => none
  | fuel + 1, tables, cursor =>
    if cursor.currentKey.isNull then some tables
    else
      let indexKeys :=
        match cursor.currentValueBuffer with
        | .value value =>
          generateIndexKeysForValue createIDBKeyFromScriptValueAndKeyPath metadata value
        | _ => []
      let tables :=
        tables.putIndexRecords supply objectStoreID metadata.id cursor.currentKey indexKeys
      match cursor.advance serialize tables 1 with
      | (true, cursor) => populateIndex metadata fuel tables cursor
      | (false, _) => none

def createIndex (metadata : IndexMetadata) : Option (Tables Value) :=
  if !SQLiteIDBTransaction.canChangeVersion transaction then none
  else
    let tables := { tables with indexInfo := tables.indexInfo ++ [⟨objectStoreID, metadata⟩] }
    match SQLiteIDBCursor.maybeCreate serialize tables objectStoreID invalidId .next {} with
    | none => none
    | some cursor =>
      tables.populateIndex serialize createIDBKeyFromScriptValueAndKeyPath supply objectStoreID
        metadata ((cursor.statement.remaining serialize tables).length + 2) cursor

def deleteIndex : Option (Tables Value) :=
  if !SQLiteIDBTransaction.canChangeVersion transaction then none
  else
    some
      { tables with
        indexInfo := tables.indexInfo.filter fun row =>
          ¬ (row.metadata.id = indexID ∧ row.objectStoreID = objectStoreID)
        indexRecords := tables.indexRecords.filter fun row =>
          ¬ (row.indexID = indexID ∧ row.objectStoreID = objectStoreID) }

def generateKeyNumber : Option ℤ :=
  if !SQLiteIDBTransaction.canWrite transaction then none
  else
    match tables.keyGenerators.find? fun row => row.objectStoreID = objectStoreID with
    | none => none
    | some row =>
      if row.currentKey < 0 ∨ row.currentKey > 2 ^ 53 then none else some (row.currentKey + 1)

def updateKeyGeneratorNumber (keyNumber : ℤ) : Option (Tables Value) :=
  if !SQLiteIDBTransaction.canWrite transaction then none
  else
    some
      { tables with
        keyGenerators :=
          tables.keyGenerators.filter (fun row => row.objectStoreID ≠ objectStoreID) ++
            [⟨objectStoreID, keyNumber⟩] }

def keyExistsInObjectStore (keyData : KeyData) : Option Bool :=
  if !SQLiteIDBTransaction.canRead transaction then none
  else
    some (tables.records.any fun row =>
      row.objectStoreID = objectStoreID && idbKeyCollate row.key keyData.encode = .eq)

/-- A record goes by the collation of its key, its index records by the text of the key. -/
def deleteRecord (keyData : KeyData) : Tables Value :=
  { tables with
    records := tables.records.filter fun row =>
      ¬ (row.objectStoreID = objectStoreID ∧ idbKeyCollate row.key keyData.encode = .eq)
    indexRecords := tables.indexRecords.filter fun row =>
      ¬ (row.objectStoreID = objectStoreID ∧ row.value = keyData.encode) }

/-- `RecordsIndex` lets no two records of an object store have equal keys. -/
def putRecord (keyData : KeyData) (value : Value) : Option (Tables Value) :=
  if !SQLiteIDBTransaction.canWrite transaction then none
  else if tables.records.any fun row =>
    row.objectStoreID = objectStoreID && idbKeyCollate row.key keyData.encode = .eq then none
  else
    some
      { tables with
        records :=
          tables.records ++
            [⟨supply.choose (tables.records.map (·.rowid)), objectStoreID, keyData.encode,
              value⟩] }

/-- The loop of `deleteRange` that collects the keys. -/
def collectKeys : ℕ → SQLiteIDBCursor Value → List KeyData
  | 0, _ => []
  | fuel + 1, cursor =>
    cursor.currentKey ::
      match cursor.advance serialize tables 1 with
      | (true, cursor) => collectKeys fuel cursor
      | (false, _) => []

def deleteRange (keyRange : KeyRangeData) : Option (Tables Value) :=
  if !SQLiteIDBTransaction.canWrite transaction then none
  else if keyRange.isExactlyOneKey then some (tables.deleteRecord objectStoreID keyRange.lowerKey)
  else
    match SQLiteIDBCursor.maybeCreate serialize tables objectStoreID invalidId .next keyRange with
    | none => none
    | some cursor =>
      let keys := tables.collectKeys serialize
        ((cursor.statement.remaining serialize tables).length + 2) cursor
      some (keys.foldl (fun tables key => tables.deleteRecord objectStoreID key) tables)

end Tables

inductive PutMode
  | addOrUpdate
  | addOnly
  | cursorUpdate
  deriving DecidableEq

namespace Tables

variable (supply : RowidSupply) (transaction : Option SQLiteIDBTransaction) (tables : Tables Value)

/-- The key to put, and the number that the key generator gave. -/
def putKey (objectStoreMetadata : ObjectStoreMetadata) (inputKeyData : KeyData)
    (putMode : PutMode) : Option (KeyData × ℤ) :=
  if putMode ≠ .cursorUpdate ∧ objectStoreMetadata.autoIncrement ∧ inputKeyData.isNull then
    (tables.generateKeyNumber transaction objectStoreMetadata.id).map fun keyNumber =>
      ({ type := .number, numberValue := .ofNat keyNumber.toNat, isNull := false }, keyNumber)
  else some (inputKeyData, 0)

/-- With `addOnly` a key that exists is refused. -/
def mayPut (objectStoreID : ℤ) (key : KeyData) : PutMode → Bool
  | .addOnly => tables.keyExistsInObjectStore transaction objectStoreID key = some false
  | _ => true

def putRecordInBackingStore (objectStoreMetadata : ObjectStoreMetadata) (inputKeyData : KeyData)
    (value : Value) (putMode : PutMode) (indexIDs : List ℤ) (indexKeys : List (List Key)) :
    Option (Tables Value) :=
  match tables.putKey transaction objectStoreMetadata inputKeyData putMode with
  | none => none
  | some (key, keyNumber) =>
    if !tables.mayPut transaction objectStoreMetadata.id key putMode then none
    -- `deleteRecord` fails without a transaction that can write.
    else if !SQLiteIDBTransaction.canWrite transaction then none
    else
      match (tables.deleteRecord objectStoreMetadata.id key).putRecord supply transaction
        objectStoreMetadata.id key value with
      | none => none
      | some tables =>
        let tables := (indexIDs.zip indexKeys).foldl (fun tables entry =>
          tables.putIndexRecords supply objectStoreMetadata.id entry.1 key entry.2) tables
        if putMode ≠ .cursorUpdate ∧ objectStoreMetadata.autoIncrement ∧ key.type = .number then
          tables.updateKeyGeneratorNumber transaction objectStoreMetadata.id keyNumber
        else some tables

end Tables

end WebKit.IndexedDB
