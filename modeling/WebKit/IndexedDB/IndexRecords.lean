import WebKit.Enumeration.Derived
import WebKit.IndexedDB.BackingStore

/-!
# Steps of a cursor over an object store

A cursor that moves through the records of an object store delivers each row of its statement,
and then an end without a key. All rows are read into the same key object.
-/

open List

namespace WebKit.IndexedDB

open KeyData List.Pairwise RecordRow

variable {Value : Type}

def RecordRow.fetched (row : RecordRow Value) : FetchedRow Value :=
  ⟨row.rowid, row.key, .value row.value⟩

/-- The keys that a cursor delivers when it reads these rows into an object. -/
def deliveries (result : KeyData) :
    List (RecordRow Value) → List (KeyData × RecordRow Value)
  | [] => []
  | row :: rows =>
    let result := decode row.key result
    (result, row) :: deliveries result rows

namespace SQLiteIDBCursor

variable {serialize : Option Key → List UInt8} {tables : Tables Value}
  {cursor : SQLiteIDBCursor Value} {row : RecordRow Value} {rows : List (RecordRow Value)}

/-- A cursor over the records of an object store that has these rows to come. -/
structure OverRecords (cursor : SQLiteIDBCursor Value) (serialize : Option Key → List UInt8)
    (tables : Tables Value) (rows : List (RecordRow Value)) : Prop where
  indexID : cursor.indexID = invalidId
  direction : cursor.cursorDirection = .next
  steady : cursor.statementNeedsReset = false
  running : cursor.completed = false
  remaining : cursor.statement.remaining serialize tables = rows.map fetched

/-- The cursor after the end. -/
def atEnd (cursor : SQLiteIDBCursor Value) : SQLiteIDBCursor Value :=
  { cursor with
    statement := { cursor.statement with rows := some [] }
    completed := true
    currentKey := {}
    currentPrimaryKey := {}
    currentValueBuffer := .empty }

/-- The cursor at a row of its object store. -/
def atRecord (cursor : SQLiteIDBCursor Value) (row : RecordRow Value)
    (rows : List (RecordRow Value)) : SQLiteIDBCursor Value :=
  { cursor with
    statement := { cursor.statement with rows := some (rows.map fetched) }
    currentRecordID := row.rowid
    currentKey := decode row.key cursor.currentKey
    currentPrimaryKey := decode row.key cursor.currentKey
    currentValueBuffer := .value row.value }

theorem advance_one_of_next (h : cursor.cursorDirection = .next) :
    advance serialize tables 1 cursor = cursor.advanceOnce serialize tables := by
  have hunique : cursor.isUnique = false := by simp [isUnique, h]
  rw [advance, hunique]
  rcases cursor.advanceOnce serialize tables with ⟨advanced, cursor'⟩
  cases advanced
  all_goals simp [advance]

theorem step_nil {statement : CursorStatement Value}
    (h : statement.remaining serialize tables = []) :
    statement.step serialize tables = (none, { statement with rows := some [] }) := by
  rw [CursorStatement.step, h]

theorem step_cons {statement : CursorStatement Value} {fetched : FetchedRow Value}
    {rest : List (FetchedRow Value)}
    (h : statement.remaining serialize tables = fetched :: rest) :
    statement.step serialize tables = (some fetched, { statement with rows := some rest }) := by
  rw [CursorStatement.step, h]

theorem internalAdvanceOnce_nil (hrunning : cursor.completed = false)
    (h : cursor.statement.remaining serialize tables = []) :
    cursor.internalAdvanceOnce serialize tables = (.success, cursor.atEnd) := by
  unfold internalAdvanceOnce
  rw [if_neg (by rw [hrunning]; exact Bool.false_ne_true), step_nil h]
  rfl

theorem advance_completed (hdir : cursor.cursorDirection = .next)
    (hsteady : cursor.statementNeedsReset = false) (h : cursor.completed = true) :
    advance serialize tables 1 cursor = (false, cursor) := by
  have hinternal : cursor.internalAdvanceOnce serialize tables = (.failure, cursor) := by
    unfold internalAdvanceOnce
    rw [if_pos h]
  rw [advance_one_of_next hdir, advanceOnce, hsteady, if_neg Bool.false_ne_true,
    advanceUntilDelivered, hinternal]

namespace OverRecords

theorem internalAdvanceOnce_cons (h : cursor.OverRecords serialize tables (row :: rows))
    (hid : (row.rowid : ℤ) ≠ cursor.currentRecordID) :
    cursor.internalAdvanceOnce serialize tables = (.success, cursor.atRecord row rows) := by
  unfold internalAdvanceOnce
  rw [if_neg (by rw [h.running]; exact Bool.false_ne_true), step_cons h.remaining]
  exact (if_neg hid).trans (if_pos h.indexID)

theorem advance_nil (h : cursor.OverRecords serialize tables []) :
    advance serialize tables 1 cursor = (true, cursor.atEnd) := by
  rw [advance_one_of_next h.direction, advanceOnce, h.steady, if_neg Bool.false_ne_true,
    advanceUntilDelivered, internalAdvanceOnce_nil h.running h.remaining]

theorem advance_cons (h : cursor.OverRecords serialize tables (row :: rows))
    (hid : (row.rowid : ℤ) ≠ cursor.currentRecordID) :
    advance serialize tables 1 cursor = (true, cursor.atRecord row rows) := by
  rw [advance_one_of_next h.direction, advanceOnce, h.steady, if_neg Bool.false_ne_true,
    advanceUntilDelivered, h.internalAdvanceOnce_cons hid]

theorem atRecord (h : cursor.OverRecords serialize tables (row :: rows))
    (tables' : Tables Value) : (cursor.atRecord row rows).OverRecords serialize tables' rows where
  indexID := h.indexID
  direction := h.direction
  steady := h.steady
  running := h.running
  remaining := rfl

end OverRecords

variable (serialize tables) in
theorem overRecords_establishStatement (objectStoreID : ℤ) (keyRange : KeyRangeData) :
    (establishStatement objectStoreID invalidId .next keyRange).OverRecords serialize tables
      ((buildObjectStoreStatement keyRange .next).selectRecords tables objectStoreID
        (if keyRange.lowerKey.isNull then minimum else keyRange.lowerKey).encode
        (if keyRange.upperKey.isNull then maximum else keyRange.upperKey).encode) where
  indexID := rfl
  direction := rfl
  steady := rfl
  running := rfl
  remaining := rfl

end SQLiteIDBCursor

/-!
## Index records match records

What `IndexRecords` should hold follows from `Records` and `IndexInfo`: for every record and
every index of its object store, one entry for each index key of the record's value. The
operations keep `IndexRecords` at these entries (`Tables.Indexed`) as long as they find the
index records of a record: they delete a record by the collation of its key, and its index
records by the text of the key.
-/

open Enumeration

variable {Value : Type}

/-- A row of `IndexRecords` without its rowid. -/
@[ext]
structure IndexEntry where
  indexID : ℤ
  objectStoreID : ℤ
  key : Option Key
  value : Option Key

def IndexRecordRow.entry (row : IndexRecordRow) : IndexEntry :=
  ⟨row.indexID, row.objectStoreID, row.key, row.value⟩

section Entries

variable (keyOnPath : Value → KeyPath → Option Key)

/-- The entries of a record in one index. -/
def entriesFor (metadata : IndexMetadata) (record : RecordRow Value) : List IndexEntry :=
  (generateIndexKeysForValue keyOnPath metadata record.value).map fun key =>
    ⟨metadata.id, record.objectStoreID, some key, record.key⟩

/-- The entries of a record in the indexes of its object store. -/
def entriesOf (indexInfo : List IndexInfoRow) (record : RecordRow Value) : List IndexEntry :=
  (indexInfo.filter fun info => info.objectStoreID = record.objectStoreID).flatMap fun info =>
    entriesFor keyOnPath info.metadata record

end Entries

namespace Key

/-- The keys of records: no key has the type of a bound. -/
def IsRecordKey (key : Key) : Prop :=
  key.isValid = true ∧ key ≠ .min ∧ key ≠ .max

theorem compare_self (key : Key) : key.compare key = .eq := Std.ReflCmp.compare_self

theorem compare_eq_symm {a b : Key} (h : a.compare b = .eq) : b.compare a = .eq :=
  Std.OrientedCmp.eq_symm h

theorem compare_eq_trans {a b c : Key} (hab : a.compare b = .eq) (hbc : b.compare c = .eq) :
    a.compare c = .eq := Std.TransCmp.eq_trans hab hbc

theorem pairwise_createMultiEntryArray (array : List Key) :
    (createMultiEntryArray array).Pairwise fun a b => a.compare b ≠ .eq := by
  suffices h : ∀ result : List Key, result.Pairwise (fun a b => a.compare b ≠ .eq) →
      (array.foldl (fun result key =>
        if !key.isValid then result
        else if result.any fun other => key.compare other = .eq then result
        else result ++ [key]) result).Pairwise fun a b => a.compare b ≠ .eq from
    h [] nil
  induction array with
  | nil => exact fun result hres => hres
  | cons key array ih =>
    intro result hres
    rw [foldl_cons]
    apply ih
    split
    · exact hres
    split
    · exact hres
    · rename_i hnone
      rw [pairwise_append]
      refine ⟨hres, pairwise_singleton _ _, ?_⟩
      intro other hother key' hkey' heq
      rw [mem_singleton.mp hkey'] at heq
      apply hnone
      rw [any_eq_true]
      exact ⟨other, hother, decide_eq_true (compare_eq_symm heq)⟩

section

variable {key : Key} (h : key.IsRecordKey)
include h

theorem IsRecordKey.compare_invalid :
    key.compare .invalid = .gt := by
  obtain ⟨hvalid, -, -⟩ := h
  cases key with
  | invalid => exact absurd hvalid (by simp [isValid])
  | _ => simp [compare]

theorem IsRecordKey.compare_min : key.compare .min = .gt := by
  obtain ⟨hvalid, hmin, -⟩ := h
  cases key with
  | invalid => exact absurd hvalid (by simp [isValid])
  | min => exact absurd rfl hmin
  | _ => simp [compare, type, KeyType.value]

theorem IsRecordKey.compare_max : key.compare .max = .lt := by
  obtain ⟨hvalid, -, hmax⟩ := h
  cases key with
  | invalid => exact absurd hvalid (by simp [isValid])
  | max => exact absurd rfl hmax
  | _ => simp [compare, type, KeyType.value]

end

end Key

theorem pairwise_generateIndexKeysForValue (keyOnPath : Value → KeyPath → Option Key)
    (metadata : IndexMetadata) (value : Value) :
    (generateIndexKeysForValue keyOnPath metadata value).Pairwise fun a b => a.compare b ≠ .eq := by
  unfold generateIndexKeysForValue
  split
  · exact nil
  · split
    · exact Key.pairwise_createMultiEntryArray _
    · split
      · exact nil
      · exact pairwise_singleton _ _

namespace Tables

/-- Records are in their indexes, and nothing else is. -/
structure Indexed (keyOnPath : Value → KeyPath → Option Key) (tables : Tables Value) : Prop where
  entries : (tables.indexRecords.map IndexRecordRow.entry).Perm
    (tables.records.flatMap (entriesOf keyOnPath tables.indexInfo))
  distinctKeys : tables.records.Pairwise fun a b =>
    a.objectStoreID = b.objectStoreID → idbKeyCollate a.key b.key ≠ .eq
  distinctIndexes : tables.indexInfo.Pairwise fun a b =>
    a.objectStoreID = b.objectStoreID → a.metadata.id ≠ b.metadata.id
  keyed : ∀ record ∈ tables.records, ∃ key, record.key = some key ∧ key.IsRecordKey
  distinctRowids : (tables.records.map RecordRow.rowid).Nodup

variable {keyOnPath : Value → KeyPath → Option Key} {supply : RowidSupply}
  {transaction : Option SQLiteIDBTransaction} {tables tables' : Tables Value} {objectStoreID indexID : ℤ} {text : Option Key}

/-- Deleting what equals this text takes the index records of each record it deletes. -/
def DeletesByText (keyOnPath : Value → KeyPath → Option Key) (tables : Tables Value)
    (objectStoreID : ℤ) (text : Option Key) : Prop :=
  ∀ record ∈ tables.records, record.objectStoreID = objectStoreID →
    idbKeyCollate record.key text = .eq → entriesOf keyOnPath tables.indexInfo record ≠ [] →
    record.key = text

variable {record : RecordRow Value} {entry : IndexEntry}

theorem mem_entriesFor {metadata : IndexMetadata} : entry ∈ entriesFor keyOnPath metadata record ↔
      ∃ key ∈ generateIndexKeysForValue keyOnPath metadata record.value,
        entry = ⟨metadata.id, record.objectStoreID, some key, record.key⟩ := by
  unfold entriesFor
  rw [mem_map]
  constructor
  all_goals
    rintro ⟨key, hkey, rfl⟩
    exact ⟨key, hkey, rfl⟩

variable {indexInfo : List IndexInfoRow}

theorem mem_entriesOf : entry ∈ entriesOf keyOnPath indexInfo record ↔
      ∃ info ∈ indexInfo, info.objectStoreID = record.objectStoreID ∧
        entry ∈ entriesFor keyOnPath info.metadata record := by
  unfold entriesOf
  rw [mem_flatMap]
  constructor
  · rintro ⟨info, hinfo, hentry⟩
    obtain ⟨hmem, hstore⟩ := mem_filter.mp hinfo
    exact ⟨info, hmem, of_decide_eq_true hstore, hentry⟩
  · rintro ⟨info, hmem, hstore, hentry⟩
    exact ⟨info, mem_filter.mpr ⟨hmem, decide_eq_true hstore⟩, hentry⟩

theorem fields_of_mem_entriesOf (h : entry ∈ entriesOf keyOnPath indexInfo record) :
    entry.objectStoreID = record.objectStoreID ∧ entry.value = record.key := by
  obtain ⟨info, -, -, hentry⟩ := mem_entriesOf.mp h
  obtain ⟨key, -, rfl⟩ := mem_entriesFor.mp hentry
  exact ⟨rfl, rfl⟩

theorem map_entry_filter (l : List IndexRecordRow) (q : IndexEntry → Bool) :
    (l.filter fun row => q row.entry).map IndexRecordRow.entry =
      (l.map IndexRecordRow.entry).filter q := by
  rw [filter_map]
  rfl

section

variable (h : tables.Indexed keyOnPath)
include h

theorem Indexed.filter (p : RecordRow Value → Bool) (q : IndexEntry → Bool)
    (hpq : ∀ record ∈ tables.records, ∀ entry ∈ entriesOf keyOnPath tables.indexInfo record,
      q entry = p record) :
    Indexed keyOnPath
      { tables with
        records := tables.records.filter p
        indexRecords := tables.indexRecords.filter fun row => q row.entry } where
  entries := by
    rw [map_entry_filter, ← filter_flatMap_eq p q hpq]
    exact h.entries.filter q
  distinctKeys := h.distinctKeys.filter p
  distinctIndexes := h.distinctIndexes
  keyed := fun record hrec => h.keyed record (mem_of_mem_filter hrec)
  distinctRowids := h.distinctRowids.sublist (filter_sublist.map _)

theorem Indexed.deleteRecord {keyData : KeyData}
    (htext : tables.DeletesByText keyOnPath objectStoreID keyData.encode) :
    (tables.deleteRecord objectStoreID keyData).Indexed keyOnPath := by
  refine h.filter _ (fun entry =>
    ¬ (entry.objectStoreID = objectStoreID ∧ entry.value = keyData.encode)) ?_
  intro record hrec entry hentry
  obtain ⟨hstore, hvalue⟩ := fields_of_mem_entriesOf hentry
  rw [hstore, hvalue, decide_eq_decide, not_iff_not]
  refine and_congr_right fun hid => ?_
  constructor
  · intro hkey
    obtain ⟨key, hsome, -⟩ := h.keyed record hrec
    rw [← hkey, hsome, idbKeyCollate_some]
    exact Key.compare_self key
  · intro hcollate
    exact htext record hrec hid hcollate (ne_nil_of_mem hentry)

theorem Indexed.clearObjectStore
    (hclear : tables.clearObjectStore transaction objectStoreID = some tables') :
    tables'.Indexed keyOnPath := by
  unfold Tables.clearObjectStore at hclear
  split at hclear
  · cases hclear
  cases hclear
  refine h.filter _ (fun entry => entry.objectStoreID ≠ objectStoreID) ?_
  intro record _ entry hentry
  rw [(fields_of_mem_entriesOf hentry).1]

theorem Indexed.filterIndexes (p : IndexInfoRow → Bool) (q : IndexEntry → Bool)
    (hpq : ∀ info ∈ tables.indexInfo, ∀ record ∈ tables.records,
      info.objectStoreID = record.objectStoreID →
      ∀ entry ∈ entriesFor keyOnPath info.metadata record, q entry = p info) :
    Indexed keyOnPath
      { tables with
        indexInfo := tables.indexInfo.filter p
        indexRecords := tables.indexRecords.filter fun row => q row.entry } where
  entries := by
    rw [map_entry_filter]
    refine (h.entries.filter q).trans (List.Perm.of_eq ?_)
    rw [filter_flatMap]
    refine flatMap_congr fun record hrec => ?_
    unfold entriesOf
    rw [filter_flatMap_eq p q, filter_filter, filter_filter]
    · congr 1
      exact filter_congr fun info _ => Bool.and_comm _ _
    · intro info hinfo entry hentry
      obtain ⟨hmem, hstore⟩ := mem_filter.mp hinfo
      exact hpq info hmem record hrec (of_decide_eq_true hstore) entry hentry
  distinctKeys := h.distinctKeys
  distinctIndexes := h.distinctIndexes.filter p
  keyed := h.keyed
  distinctRowids := h.distinctRowids

theorem Indexed.deleteIndex
    (hdel : tables.deleteIndex transaction objectStoreID indexID = some tables') :
    tables'.Indexed keyOnPath := by
  unfold Tables.deleteIndex at hdel
  split at hdel
  · cases hdel
  cases hdel
  refine h.filterIndexes _ (fun entry =>
    ¬ (entry.indexID = indexID ∧ entry.objectStoreID = objectStoreID)) ?_
  intro info _ record _ hstore entry hentry
  obtain ⟨key, -, rfl⟩ := mem_entriesFor.mp hentry
  rw [decide_eq_decide, hstore]

theorem Indexed.congr (hrecs : tables'.records = tables.records)
    (hinfo : tables'.indexInfo = tables.indexInfo)
    (hindex : tables'.indexRecords = tables.indexRecords) : tables'.Indexed keyOnPath where
  entries := by
    rw [hrecs, hinfo, hindex]
    exact h.entries
  distinctKeys := by
    rw [hrecs]
    exact h.distinctKeys
  distinctIndexes := by
    rw [hinfo]
    exact h.distinctIndexes
  keyed := by
    rw [hrecs]
    exact h.keyed
  distinctRowids := by
    rw [hrecs]
    exact h.distinctRowids

theorem Indexed.deleteObjectStore
    (hdel : tables.deleteObjectStore transaction objectStoreID = some tables') :
    tables'.Indexed keyOnPath := by
  unfold Tables.deleteObjectStore at hdel
  split at hdel
  · cases hdel
  cases hdel
  have hrecs := h.filter (fun record => record.objectStoreID ≠ objectStoreID)
    (fun entry => entry.objectStoreID ≠ objectStoreID) (by
      intro record _ entry hentry
      rw [(fields_of_mem_entriesOf hentry).1])
  have hidxs := hrecs.filterIndexes (fun info => info.objectStoreID ≠ objectStoreID)
    (fun entry => entry.objectStoreID ≠ objectStoreID) (by
      intro info _ record _ hstore entry hentry
      obtain ⟨key, -, rfl⟩ := mem_entriesFor.mp hentry
      rw [hstore])
  refine hidxs.congr rfl rfl ?_
  rw [filter_filter]
  refine filter_congr fun row _ => ?_
  rw [Bool.and_self]
  rfl

theorem Indexed.createObjectStore {metadata : ObjectStoreMetadata}
    (hcreate : tables.createObjectStore transaction metadata = some tables') :
    tables'.Indexed keyOnPath := by
  unfold Tables.createObjectStore at hcreate
  split at hcreate
  · cases hcreate
  split at hcreate
  · cases hcreate
  cases hcreate
  exact h.congr rfl rfl rfl

end

/-- Only index records change, and these entries are added. -/
structure AddsEntries (tables tables' : Tables Value) (entries : List IndexEntry) : Prop where
  records : tables'.records = tables.records
  indexInfo : tables'.indexInfo = tables.indexInfo
  indexRecords : tables'.indexRecords.map IndexRecordRow.entry =
    tables.indexRecords.map IndexRecordRow.entry ++ entries

namespace AddsEntries

variable {tables'' : Tables Value} {entries entries' : List IndexEntry}

theorem refl (tables : Tables Value) : AddsEntries tables tables [] :=
  ⟨rfl, rfl, (append_nil _).symm⟩

theorem trans (h : AddsEntries tables tables' entries)
    (h' : AddsEntries tables' tables'' entries') :
    AddsEntries tables tables'' (entries ++ entries') where
  records := h'.records.trans h.records
  indexInfo := h'.indexInfo.trans h.indexInfo
  indexRecords := by rw [h'.indexRecords, h.indexRecords, append_assoc]

theorem foldl {α : Type} {step : Tables Value → α → Tables Value} {added : α → List IndexEntry}
    (hstep : ∀ tables a, AddsEntries tables (step tables a) (added a)) (l : List α)
    (tables : Tables Value) : AddsEntries tables (l.foldl step tables) (l.flatMap added) := by
  induction l generalizing tables with
  | nil => exact refl tables
  | cons a l ih => exact (hstep tables a).trans (ih (step tables a))

end AddsEntries

variable (supply objectStoreID indexID) in
theorem addsEntries_putIndexRecords (keyValue : KeyData) (indexKeys : List Key)
    (tables : Tables Value) :
    AddsEntries tables (tables.putIndexRecords supply objectStoreID indexID keyValue indexKeys)
      (indexKeys.map fun key => ⟨indexID, objectStoreID, some key, keyValue.encode⟩) := by
  rw [map_eq_flatMap]
  refine AddsEntries.foldl (fun tables key => ?_) indexKeys tables
  refine ⟨rfl, rfl, ?_⟩
  show map _ (_ ++ _) = _
  rw [map_append, map_cons, map_nil, IndexRecordRow.entry, KeyData.encode_ofKey]

theorem not_equal_of_any_eq_false {keyData : KeyData}
    (h : (tables.records.any fun row => row.objectStoreID = objectStoreID &&
      idbKeyCollate row.key keyData.encode = .eq) = false) :
    ∀ row ∈ tables.records, row.objectStoreID = objectStoreID →
      idbKeyCollate row.key keyData.encode ≠ .eq := by
  intro row hrow hid heq
  have := any_eq_false.mp h row hrow
  simp [hid, heq] at this

theorem Indexed.putRecord (h : tables.Indexed keyOnPath) {keyData : KeyData} {value : Value} {put : Tables Value}
    (hkey : ∃ key, keyData.encode = some key ∧ key.IsRecordKey)
    (hput : tables.putRecord supply transaction objectStoreID keyData value = some put)
    (hinfo : indexInfo.Perm (tables.indexInfo.filter fun info => info.objectStoreID = objectStoreID))
    (hadds : AddsEntries put tables' (indexInfo.flatMap fun info =>
      (generateIndexKeysForValue keyOnPath info.metadata value).map fun key =>
        ⟨info.metadata.id, objectStoreID, some key, keyData.encode⟩)) :
    tables'.Indexed keyOnPath := by
  unfold Tables.putRecord at hput
  split at hput
  · cases hput
  split at hput
  · cases hput
  rename_i hnone
  cases hput
  have hrecs := hadds.records
  refine ⟨?_, ?_, ?_, ?_, ?_⟩
  · rw [hadds.indexRecords, hrecs, hadds.indexInfo, flatMap_append, flatMap_singleton]
    exact h.entries.append (hinfo.flatMap_right _)
  · rw [hrecs, pairwise_append]
    refine ⟨h.distinctKeys, pairwise_singleton _ _, ?_⟩
    intro a ha b hb hid
    rw [mem_singleton.mp hb] at hid ⊢
    exact not_equal_of_any_eq_false (Bool.not_eq_true _ ▸ hnone) a ha hid
  · rw [hadds.indexInfo]
    exact h.distinctIndexes
  · rw [hrecs]
    intro record hrec
    rcases mem_append.mp hrec with hold | hnew
    · exact h.keyed record hold
    · rw [mem_singleton.mp hnew]
      exact hkey
  · rw [hrecs, map_append, nodup_append]
    refine ⟨h.distinctRowids, nodup_singleton _, ?_⟩
    intro a ha b hb
    rw [map_singleton, mem_singleton] at hb
    rintro rfl
    rw [hb] at ha
    exact supply.fresh _ ha

end Tables

end WebKit.IndexedDB
