import WebKit.IndexedDB.DatabaseMetadata
import WebKit.IndexedDB.KeyData

/-!
# The tables of the backing store

The rows of the SQLite tables, and the statements of the cursors. A text in a key column is
represented by the key it encodes; the columns `key` compare with `idbKeyCollate`, the column
`value` of `IndexRecords`, which holds the text of a primary key, compares bytes. A statement
iterates over the rows that satisfied its `WHERE` clause when it was first stepped after it was
prepared or reset.
-/

namespace WebKit.IndexedDB

open Enumeration

structure ObjectStoreInfoRow where
  id : ℤ
  name : String
  keyPath : KeyPath
  autoInc : Bool
  maxIndexID : ℤ

/-- A row of `IndexInfo`. -/
structure IndexInfoRow where
  objectStoreID : ℤ
  metadata : IndexMetadata
  deriving DecidableEq

structure KeyGeneratorRow where
  objectStoreID : ℤ
  currentKey : ℤ

/-- A row of `Records`. -/
structure RecordRow (Value : Type) where
  rowid : ℕ
  objectStoreID : ℤ
  key : Option Key
  value : Value

/-- A row of `IndexRecords`. -/
structure IndexRecordRow where
  rowid : ℕ
  indexID : ℤ
  objectStoreID : ℤ
  key : Option Key
  value : Option Key

structure Tables (Value : Type) where
  objectStoreInfo : List ObjectStoreInfoRow
  indexInfo : List IndexInfoRow
  keyGenerators : List KeyGeneratorRow
  records : List (RecordRow Value)
  indexRecords : List IndexRecordRow

/-- How SQLite picks the rowid of a new row: any that is not in use. -/
structure RowidSupply where
  choose : List ℕ → ℕ
  fresh : ∀ used, choose used ∉ used

/-- `IDBKeyRangeData`. -/
structure KeyRangeData where
  isNull : Bool := true
  lowerKey : KeyData := {}
  upperKey : KeyData := {}
  lowerOpen : Bool := false
  upperOpen : Bool := false

def KeyRangeData.isExactlyOneKey (range : KeyRangeData) : Bool :=
  if range.isNull || range.lowerOpen || range.upperOpen then false
  else range.lowerKey.compare range.upperKey = .eq

inductive CursorDirection
  | next
  | nextNoDuplicate
  | prev
  | prevNoDuplicate
  deriving DecidableEq

inductive CursorTable
  | records
  | indexRecords

/-- The text of a cursor's statement: its table, its comparisons with the bounds, and its
`ORDER BY` clause. -/
structure CursorStatementText where
  table : CursorTable
  lowerClosed : Bool
  upperClosed : Bool
  keyDescending : Bool
  valueDescending : Bool

def CursorDirection.isPrev : CursorDirection → Bool
  | .prev | .prevNoDuplicate => true
  | _ => false

def buildIndexStatement (keyRange : KeyRangeData) (cursorDirection : CursorDirection) :
    CursorStatementText where
  table := .indexRecords
  lowerClosed := !keyRange.lowerKey.isNull && !keyRange.lowerOpen
  upperClosed := !keyRange.upperKey.isNull && !keyRange.upperOpen
  keyDescending := cursorDirection.isPrev
  valueDescending := cursorDirection = .prev

def buildObjectStoreStatement (keyRange : KeyRangeData) (cursorDirection : CursorDirection) :
    CursorStatementText where
  table := .records
  lowerClosed := !keyRange.lowerKey.isNull && !keyRange.lowerOpen
  upperClosed := !keyRange.upperKey.isNull && !keyRange.upperOpen
  keyDescending := cursorDirection.isPrev
  valueDescending := false

/-- The contents of `m_currentValueBuffer`: the value of a record, or the text of a key. -/
inductive ValueBuffer (Value : Type)
  | empty
  | value (value : Value)
  | key (text : Option Key)

/-- A row that a cursor's statement returns. -/
structure FetchedRow (Value : Type) where
  rowid : ℕ
  key : Option Key
  value : ValueBuffer Value

/-- `ORDER BY`, ascending or descending. -/
def orderBy (descending : Bool) (comparison : Ordering) : Ordering :=
  if descending then comparison.swap else comparison

/-- The comparison of two byte strings with `memcmp`, a proper part first. -/
def compareBytes (a b : List UInt8) : Ordering :=
  List.compareLex (fun x y => compareInt x.toNat y.toNat) a b

namespace CursorStatementText

variable {Value : Type} (text : CursorStatementText) (serialize : Option Key → List UInt8)

/-- The comparisons of a key column with the bound texts. -/
def inRange (lower upper key : Option Key) : Bool :=
  (if text.lowerClosed then (idbKeyCollate key lower).isGE
    else idbKeyCollate key lower = .gt) &&
  (if text.upperClosed then (idbKeyCollate key upper).isLE
    else idbKeyCollate key upper = .lt)

def compareRecords (a b : RecordRow Value) : Ordering :=
  orderBy text.keyDescending (idbKeyCollate a.key b.key)

def compareIndexRecords (a b : IndexRecordRow) : Ordering :=
  (orderBy text.keyDescending (idbKeyCollate a.key b.key)).then
    (orderBy text.valueDescending (compareBytes (serialize a.value) (serialize b.value)))

def selectRecords (tables : Tables Value) (boundID : ℤ) (lower upper : Option Key) :
    List (RecordRow Value) :=
  (tables.records.filter fun row =>
    row.objectStoreID = boundID && text.inRange lower upper row.key).insertionSort
      fun a b => (text.compareRecords a b).isLE

def selectIndexRecords (tables : Tables Value) (boundID : ℤ) (lower upper : Option Key) :
    List IndexRecordRow :=
  (tables.indexRecords.filter fun row =>
    row.indexID = boundID && text.inRange lower upper row.key).insertionSort
      fun a b => (text.compareIndexRecords serialize a b).isLE

/-- The rows that satisfy the `WHERE` clause, in the order of the statement. -/
def select (tables : Tables Value) (boundID : ℤ) (lower upper : Option Key) :
    List (FetchedRow Value) :=
  match text.table with
  | .records =>
    (text.selectRecords tables boundID lower upper).map fun row =>
      ⟨row.rowid, row.key, .value row.value⟩
  | .indexRecords =>
    (text.selectIndexRecords serialize tables boundID lower upper).map fun row =>
      ⟨row.rowid, row.key, .key row.value⟩

end CursorStatementText

/-!
## The cursors of the backing store

`SQLiteIDBCursor`, over an object store (`indexID` is `invalidId`) or over an index. The
statements themselves do not fail. Every loop ends when the statement has no more rows, so a
count of the rows to come bounds its iterations.
-/

open Enumeration

variable {Value : Type}

/-- A prepared statement: its text, its bound arguments, and the rows to come once it has been
stepped. -/
structure CursorStatement (Value : Type) where
  text : CursorStatementText
  boundID : ℤ
  lower : Option Key
  upper : Option Key
  rows : Option (List (FetchedRow Value))

namespace CursorStatement

variable (statement : CursorStatement Value)

def reset : CursorStatement Value := { statement with rows := none }

/-- The rows that the next steps return. -/
def remaining (serialize : Option Key → List UInt8) (tables : Tables Value) :
    List (FetchedRow Value) :=
  statement.rows.getD
    (statement.text.select serialize tables statement.boundID statement.lower statement.upper)

/-- `step`: a row (`SQLITE_ROW`), or none (`SQLITE_DONE`). -/
def step (serialize : Option Key → List UInt8) (tables : Tables Value) :
    Option (FetchedRow Value) × CursorStatement Value :=
  match statement.remaining serialize tables with
  | [] => (none, { statement with rows := some [] })
  | row :: rows => (some row, { statement with rows := some rows })

end CursorStatement

inductive AdvanceResult
  | success
  | failure
  | shouldAdvanceAgain
  deriving DecidableEq

structure SQLiteIDBCursor (Value : Type) where
  objectStoreID : ℤ
  indexID : ℤ
  cursorDirection : CursorDirection
  keyRange : KeyRangeData
  currentLowerKey : KeyData
  currentUpperKey : KeyData
  statement : CursorStatement Value
  currentRecordID : ℤ
  currentKey : KeyData
  currentPrimaryKey : KeyData
  currentValueBuffer : ValueBuffer Value
  statementNeedsReset : Bool
  completed : Bool
  errored : Bool

namespace SQLiteIDBCursor

variable (serialize : Option Key → List UInt8) (tables : Tables Value)
  (cursor : SQLiteIDBCursor Value)

def bindArguments : SQLiteIDBCursor Value :=
  { cursor with
    statement :=
      { cursor.statement with
        lower := cursor.currentLowerKey.encode
        upper := cursor.currentUpperKey.encode } }

def objectStoreRecordsChanged : SQLiteIDBCursor Value :=
  { cursor with statementNeedsReset := true }

def resetAndRebindStatement : SQLiteIDBCursor Value :=
  let cursor := { cursor with statementNeedsReset := false }
  if cursor.currentKey.isNull then cursor
  else
    let cursor :=
      if cursor.cursorDirection = .next ∨ cursor.cursorDirection = .nextNoDuplicate then
        { cursor with currentLowerKey := cursor.currentKey }
      else { cursor with currentUpperKey := cursor.currentKey }
    bindArguments { cursor with statement := cursor.statement.reset }

/-- `SELECT value FROM Records WHERE key = ? and objectStoreID = ?`. -/
def objectStoreStatement (key : Option Key) : Option (RecordRow Value) :=
  tables.records.find? fun row =>
    idbKeyCollate row.key key = .eq && row.objectStoreID = cursor.objectStoreID

def internalAdvanceOnce : AdvanceResult × SQLiteIDBCursor Value :=
  if cursor.completed then (.failure, cursor)
  else
    match cursor.statement.step serialize tables with
    | (none, statement) =>
      (.success,
        { cursor with
          statement := statement
          completed := true
          currentKey := {}
          currentPrimaryKey := {}
          currentValueBuffer := .empty })
    | (some row, statement) =>
      let cursor := { cursor with statement := statement }
      -- The statement was reset, and starts with the record that was delivered last.
      if (row.rowid : ℤ) = cursor.currentRecordID then (.shouldAdvanceAgain, cursor)
      else
        let cursor :=
          { cursor with
            currentRecordID := row.rowid
            currentKey := KeyData.decode row.key cursor.currentKey
            currentValueBuffer := row.value }
        if cursor.indexID = invalidId then
          (.success, { cursor with currentPrimaryKey := cursor.currentKey })
        else
          match row.value with
          | .key primaryKey =>
            let cursor :=
              { cursor with
                currentPrimaryKey := KeyData.decode primaryKey cursor.currentPrimaryKey }
            match cursor.objectStoreStatement tables primaryKey with
            | some record =>
              (.success, { cursor with currentValueBuffer := .value record.value })
            -- The record has been removed from the object store.
            | none => (.shouldAdvanceAgain, cursor)
          | _ => (.failure, { cursor with completed := true, errored := true })

/-- The loop of `advanceOnce`. -/
def advanceUntilDelivered : ℕ → SQLiteIDBCursor Value → Bool × SQLiteIDBCursor Value
  | 0, cursor => (false, cursor)
  | fuel + 1, cursor =>
    match cursor.internalAdvanceOnce serialize tables with
    | (.shouldAdvanceAgain, cursor) => advanceUntilDelivered fuel cursor
    | (.success, cursor) => (true, cursor)
    | (.failure, cursor) => (false, cursor)

def advanceOnce : Bool × SQLiteIDBCursor Value :=
  let cursor := if cursor.statementNeedsReset then cursor.resetAndRebindStatement else cursor
  advanceUntilDelivered serialize tables
    ((cursor.statement.remaining serialize tables).length + 1) cursor

/-- The loop of `advanceUnique`, for the key at its start. -/
def advanceUntilDifferent (currentKey : KeyData) :
    ℕ → SQLiteIDBCursor Value → Bool × SQLiteIDBCursor Value
  | 0, cursor => (false, cursor)
  | fuel + 1, cursor =>
    if cursor.completed then (false, cursor)
    else
      match cursor.advanceOnce serialize tables with
      | (false, cursor) => (false, cursor)
      | (true, cursor) =>
        if currentKey.compare cursor.currentKey ≠ .eq then (true, cursor)
        else advanceUntilDifferent currentKey fuel cursor

def advanceUnique : Bool × SQLiteIDBCursor Value :=
  let reset := if cursor.statementNeedsReset then cursor.resetAndRebindStatement else cursor
  advanceUntilDifferent serialize tables cursor.currentKey
    ((reset.statement.remaining serialize tables).length + 2) cursor

def isUnique : Bool :=
  cursor.cursorDirection = .nextNoDuplicate ∨ cursor.cursorDirection = .prevNoDuplicate

def advance : ℕ → SQLiteIDBCursor Value → Bool × SQLiteIDBCursor Value
  | 0, cursor => (true, cursor)
  | count + 1, cursor =>
    match if cursor.isUnique then cursor.advanceUnique serialize tables
      else cursor.advanceOnce serialize tables with
    | (false, cursor) => (false, cursor)
    | (true, cursor) => advance count cursor

/-- The loop of `iterate`. -/
def advanceUntilTarget (targetKey : KeyData) :
    ℕ → Bool → SQLiteIDBCursor Value → Bool × SQLiteIDBCursor Value
  | 0, result, cursor => (result, cursor)
  | fuel + 1, result, cursor =>
    if cursor.completed then (result, cursor)
    else if !result then (false, cursor)
    else if (if cursor.cursorDirection = .next ∨ cursor.cursorDirection = .nextNoDuplicate then
        (cursor.currentKey.compare targetKey).isGE
      else (cursor.currentKey.compare targetKey).isLE) then (result, cursor)
    else
      match advance serialize tables 1 cursor with
      | (result, cursor) => advanceUntilTarget targetKey fuel result cursor

def iterate (targetKey : KeyData) : Bool × SQLiteIDBCursor Value :=
  match advance serialize tables 1 cursor with
  | (result, cursor) =>
    if targetKey.isNull || !result then (result, cursor)
    else
      advanceUntilTarget serialize tables targetKey
        ((cursor.statement.remaining serialize tables).length + 2) result cursor

/-- The constructor and `establishStatement`. -/
def establishStatement (objectStoreID indexID : ℤ) (cursorDirection : CursorDirection)
    (keyRange : KeyRangeData) : SQLiteIDBCursor Value :=
  let currentLowerKey := if keyRange.lowerKey.isNull then .minimum else keyRange.lowerKey
  let currentUpperKey := if keyRange.upperKey.isNull then .maximum else keyRange.upperKey
  bindArguments
    { objectStoreID := objectStoreID
      indexID := indexID
      cursorDirection := cursorDirection
      keyRange := keyRange
      currentLowerKey := currentLowerKey
      currentUpperKey := currentUpperKey
      statement :=
        { text :=
            if indexID ≠ invalidId then buildIndexStatement keyRange cursorDirection
            else buildObjectStoreStatement keyRange cursorDirection
          boundID := if indexID ≠ invalidId then indexID else objectStoreID
          lower := none
          upper := none
          rows := none }
      currentRecordID := -1
      currentKey := {}
      currentPrimaryKey := {}
      currentValueBuffer := .empty
      statementNeedsReset := false
      completed := false
      errored := false }

def maybeCreate (objectStoreID indexID : ℤ) (cursorDirection : CursorDirection)
    (keyRange : KeyRangeData) : Option (SQLiteIDBCursor Value) :=
  match advance serialize tables 1
    (establishStatement objectStoreID indexID cursorDirection keyRange) with
  | (true, cursor) => some cursor
  | (false, _) => none

end SQLiteIDBCursor

end WebKit.IndexedDB
