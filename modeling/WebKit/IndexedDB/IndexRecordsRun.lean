import WebKit.IndexedDB.IndexRecords

/-!
# The operations that move a cursor

`createIndex` and `deleteRange` work with the keys that a cursor reads, one after another into
one object (`readTogether`).
-/

open List

namespace WebKit.IndexedDB

open Enumeration Tables Tables.AddsEntries Key

variable {Value : Type}

/-- The keys that come out when stored keys are read one after another into an object with
these elements: an array comes after the elements of the arrays before it. -/
def readTogether (elements : List Key) : List (Option Key) → List (Option Key)
  | [] => []
  | some (.array a) :: keys =>
    some (.array (elements ++ a)) :: readTogether (elements ++ a) keys
  | key :: keys => key :: readTogether elements keys

theorem encode_deliveries (result : KeyData) (rows : List (RecordRow Value))
    (hrows : ∀ row ∈ rows, ∃ key, row.key = some key) :
    (deliveries result rows).map (fun delivery => (delivery.2, delivery.1.encode)) =
      rows.zip (readTogether result.arrayValue (rows.map RecordRow.key)) := by
  induction rows generalizing result with
  | nil => rfl
  | cons row rows ih =>
    obtain ⟨key, hkey⟩ := hrows row mem_cons_self
    have hrest := ih (KeyData.decode row.key result)
      fun row' hrow' => hrows row' (mem_cons_of_mem row hrow')
    rw [deliveries, map_cons, hrest, map_cons, hkey]
    cases key
    all_goals rfl

theorem map_snd_deliveries (result : KeyData) (rows : List (RecordRow Value)) :
    (deliveries result rows).map Prod.snd = rows := by
  induction rows generalizing result with
  | nil => rfl
  | cons row rows ih => rw [deliveries, map_cons, ih]

variable {result : KeyData}

theorem mem_deliveries {rows : List (RecordRow Value)}
    {delivery : KeyData × RecordRow Value} (h : delivery ∈ deliveries result rows) :
    delivery.2 ∈ rows := by
  rw [← map_snd_deliveries result rows]
  exact mem_map_of_mem h

namespace Tables

variable {keyOnPath : Value → KeyPath → Option Key} {tables : Tables Value} {objectStoreID : ℤ}

/-- The records of an object store in a range, in the order of their keys. -/
def recordsInRange (tables : Tables Value) (objectStoreID : ℤ) (keyRange : KeyRangeData) :
    List (RecordRow Value) :=
  (buildObjectStoreStatement keyRange .next).selectRecords tables objectStoreID
    (if keyRange.lowerKey.isNull then KeyData.minimum else keyRange.lowerKey).encode
    (if keyRange.upperKey.isNull then KeyData.maximum else keyRange.upperKey).encode

variable (objectStoreID) in
theorem recordsInRange_perm (keyRange : KeyRangeData) :
    ∃ p : Option Key → Bool, (tables.recordsInRange objectStoreID keyRange).Perm
      (tables.records.filter fun row => row.objectStoreID = objectStoreID && p row.key) :=
  ⟨_, perm_insertionSort _ _⟩

theorem mem_of_mem_recordsInRange {keyRange : KeyRangeData} {row : RecordRow Value}
    (h : row ∈ tables.recordsInRange objectStoreID keyRange) :
    row ∈ tables.records ∧ row.objectStoreID = objectStoreID := by
  obtain ⟨p, hperm⟩ := tables.recordsInRange_perm objectStoreID keyRange
  obtain ⟨hmem, hp⟩ := mem_filter.mp (hperm.mem_iff.mp h)
  exact ⟨hmem, of_decide_eq_true (Bool.and_eq_true_iff.mp hp).1⟩

theorem Indexed.recordsInRange_nodup (h : tables.Indexed keyOnPath) (keyRange : KeyRangeData) :
    ((tables.recordsInRange objectStoreID keyRange).map RecordRow.rowid).Nodup := by
  obtain ⟨p, hperm⟩ := tables.recordsInRange_perm objectStoreID keyRange
  rw [(hperm.map RecordRow.rowid).nodup_iff]
  exact h.distinctRowids.sublist (filter_sublist.map _)

theorem Indexed.recordsInRange_all (h : tables.Indexed keyOnPath) :
    (tables.recordsInRange objectStoreID {}).Perm
      (tables.records.filter fun row => row.objectStoreID = objectStoreID) := by
  refine (perm_insertionSort _ _).trans (List.Perm.of_eq ?_)
  refine filter_congr fun row hrow => ?_
  obtain ⟨key, hkey, hrecordKey⟩ := h.keyed row hrow
  have hlower : idbKeyCollate row.key KeyData.minimum.encode = .gt := by
    rw [hkey]
    exact (idbKeyCollate_some _ _).trans hrecordKey.compare_min
  have hupper : idbKeyCollate row.key KeyData.maximum.encode = .lt := by
    rw [hkey]
    exact (idbKeyCollate_some _ _).trans hrecordKey.compare_max
  simp [CursorStatementText.inRange, buildObjectStoreStatement, hlower, hupper]

end Tables

namespace SQLiteIDBCursor

variable {keyOnPath : Value → KeyPath → Option Key} {supply : RowidSupply}
  {serialize : Option Key → List UInt8} {tables : Tables Value} {objectStoreID : ℤ}
  {cursor : SQLiteIDBCursor Value} {row : RecordRow Value} {rows : List (RecordRow Value)}

/-- A cursor at a record, with the rest of the rows to come. -/
structure AtRecord (cursor : SQLiteIDBCursor Value) (serialize : Option Key → List UInt8)
    (result : KeyData) (row : RecordRow Value) (rows : List (RecordRow Value)) : Prop where
  overRecords : ∀ tables, cursor.OverRecords serialize tables rows
  currentRecordID : cursor.currentRecordID = row.rowid
  currentKey : cursor.currentKey = result
  currentValueBuffer : cursor.currentValueBuffer = .value row.value
  keyed : result.isNull = false
  rowsKeyed : ∀ row ∈ rows, ∃ key, row.key = some key
  distinctRowids : ((row :: rows).map RecordRow.rowid).Nodup

theorem AtRecord.next {next : RecordRow Value}
    (h : cursor.AtRecord serialize result row (next :: rows)) (tables : Tables Value) :
    advance serialize tables 1 cursor = (true, cursor.atRecord next rows) ∧
      (cursor.atRecord next rows).AtRecord serialize (KeyData.decode next.key result) next rows := by
  have hid : (next.rowid : ℤ) ≠ cursor.currentRecordID := by
    rw [h.currentRecordID]
    have hne : row.rowid ∉ (next :: rows).map RecordRow.rowid := (nodup_cons.mp h.distinctRowids).1
    intro heq
    apply hne
    rw [← Int.ofNat_inj.mp heq]
    exact mem_cons_self
  obtain ⟨key, hkey⟩ := h.rowsKeyed next mem_cons_self
  refine ⟨(h.overRecords tables).advance_cons hid, ?_, rfl, ?_, rfl, ?_, ?_, ?_⟩
  · exact fun tables' => (h.overRecords tables).atRecord tables'
  · rw [← h.currentKey]
    rfl
  · rw [hkey]
    exact KeyData.isNull_decode key result
  · exact fun row' hrow' => h.rowsKeyed row' (mem_cons_of_mem next hrow')
  · exact (nodup_cons.mp h.distinctRowids).2

theorem AtRecord.collectKeys {fuel : ℕ}
    (h : cursor.AtRecord serialize result row rows) (hfuel : rows.length + 2 ≤ fuel) :
    tables.collectKeys serialize fuel cursor =
      result :: ((deliveries result rows).map Prod.fst ++ [({} : KeyData)]) := by
  obtain ⟨fuel, rfl⟩ : ∃ n, fuel = n + 2 := ⟨fuel - 2, by omega⟩
  induction rows generalizing cursor row result fuel with
  | nil =>
    have hend : advance serialize tables 1 cursor.atEnd = (false, cursor.atEnd) :=
      advance_completed (h.overRecords tables).direction (h.overRecords tables).steady rfl
    rw [collectKeys, (h.overRecords tables).advance_nil, h.currentKey]
    show result :: collectKeys serialize tables (fuel + 1) cursor.atEnd = _
    rw [collectKeys, hend]
    rfl
  | cons next rows ih =>
    obtain ⟨hadv, hnext⟩ := h.next tables
    rw [length_cons] at hfuel
    obtain ⟨fuel, rfl⟩ : ∃ n, fuel = n + 1 := ⟨fuel - 1, by omega⟩
    rw [collectKeys, hadv, h.currentKey]
    show result :: collectKeys serialize tables (fuel + 2) _ = _
    rw [ih hnext fuel (by omega), deliveries, map_cons, cons_append]

/-- The entries that `createIndex` writes for what it reads. -/
def entriesRead (keyOnPath : Value → KeyPath → Option Key) (metadata : IndexMetadata)
    (objectStoreID : ℤ) (delivery : KeyData × RecordRow Value) : List IndexEntry :=
  (generateIndexKeysForValue keyOnPath metadata delivery.2.value).map fun key =>
    ⟨metadata.id, objectStoreID, some key, delivery.1.encode⟩

theorem AtRecord.populateIndex {fuel : ℕ} {metadata : IndexMetadata}
    (h : cursor.AtRecord serialize result row rows) (hfuel : rows.length + 2 ≤ fuel)
    (tables : Tables Value) :
    ∃ tables', populateIndex serialize keyOnPath supply objectStoreID metadata fuel tables
        cursor = some tables' ∧
      Tables.AddsEntries tables tables' (((result, row) :: deliveries result rows).flatMap
          (entriesRead keyOnPath metadata objectStoreID)) := by
  obtain ⟨fuel, rfl⟩ : ∃ n, fuel = n + 2 := ⟨fuel - 2, by omega⟩
  induction rows generalizing cursor row result fuel tables with
  | nil =>
    have hadds := addsEntries_putIndexRecords supply objectStoreID metadata.id result
      (generateIndexKeysForValue keyOnPath metadata row.value) tables
    refine ⟨_, ?_, hadds.trans (refl _)⟩
    rw [populateIndex, h.currentKey, h.keyed, if_neg Bool.false_ne_true, h.currentValueBuffer]
    simp only [(h.overRecords _).advance_nil]
    exact if_pos rfl
  | cons next rows ih =>
    have hadds := addsEntries_putIndexRecords supply objectStoreID metadata.id result
      (generateIndexKeysForValue keyOnPath metadata row.value) tables
    rw [length_cons] at hfuel
    obtain ⟨fuel, rfl⟩ : ∃ n, fuel = n + 1 := ⟨fuel - 1, by omega⟩
    obtain ⟨tables', hrest, haddsRest⟩ := ih (h.next tables).2
        (tables.putIndexRecords supply objectStoreID metadata.id result
          (generateIndexKeysForValue keyOnPath metadata row.value)) fuel (by omega)
    refine ⟨tables', ?_, hadds.trans haddsRest⟩
    rw [populateIndex, h.currentKey, h.keyed, if_neg Bool.false_ne_true, h.currentValueBuffer]
    simp only [(h.next _).1]
    exact hrest

variable (serialize) in
theorem maybeCreate_cases (keyRange : KeyRangeData)
    (hkeyed : ∀ row ∈ tables.records, ∃ key, row.key = some key)
    (hnodup : ((tables.recordsInRange objectStoreID keyRange).map RecordRow.rowid).Nodup) :
    (tables.recordsInRange objectStoreID keyRange = [] ∧
      ∃ cursor, maybeCreate serialize tables objectStoreID invalidId .next keyRange = some cursor ∧
        cursor.currentKey = {} ∧ cursor.cursorDirection = .next ∧
        cursor.statementNeedsReset = false ∧ cursor.completed = true) ∨
    ∃ row rows, tables.recordsInRange objectStoreID keyRange = row :: rows ∧
      ∃ cursor, maybeCreate serialize tables objectStoreID invalidId .next keyRange = some cursor ∧
        cursor.statement.remaining serialize tables = rows.map RecordRow.fetched ∧
        cursor.AtRecord serialize (KeyData.decode row.key {}) row rows := by
  have hover := overRecords_establishStatement serialize tables objectStoreID keyRange
  change OverRecords _ _ _ (tables.recordsInRange objectStoreID keyRange) at hover
  have hmem : ∀ row ∈ tables.recordsInRange objectStoreID keyRange, ∃ key, row.key = some key :=
    fun row hrow => hkeyed row (mem_of_mem_recordsInRange hrow).1
  unfold maybeCreate
  cases hrows : tables.recordsInRange objectStoreID keyRange with
  | nil =>
    rw [hrows] at hover
    rw [hover.advance_nil]
    exact .inl ⟨rfl, _, rfl, rfl, rfl, rfl, rfl⟩
  | cons row rows =>
    rw [hrows] at hover hnodup hmem
    have hid : (row.rowid : ℤ) ≠ -1 := by omega
    rw [hover.advance_cons hid]
    obtain ⟨key, hkey⟩ := hmem row mem_cons_self
    refine .inr ⟨row, rows, rfl, _, rfl, rfl, ?_, rfl, rfl, rfl, ?_, ?_, hnodup⟩
    · exact fun tables' => hover.atRecord tables'
    · rw [hkey]
      exact KeyData.isNull_decode key {}
    · exact fun row' hrow' => hmem row' (mem_cons_of_mem row hrow')

section New

variable (keyRange : KeyRangeData)
  (hkeyed : ∀ row ∈ tables.records, ∃ key, row.key = some key)
  (hnodup : ((tables.recordsInRange objectStoreID keyRange).map RecordRow.rowid).Nodup)

include hkeyed hnodup

variable (serialize objectStoreID) in
theorem maybeCreate_collectKeys :
    ∃ cursor, maybeCreate serialize tables objectStoreID invalidId .next keyRange = some cursor ∧
      tables.collectKeys serialize ((cursor.statement.remaining serialize tables).length + 2)
          cursor =
        (deliveries {} (tables.recordsInRange objectStoreID keyRange)).map Prod.fst ++
          [({} : KeyData)] := by
  rcases maybeCreate_cases serialize keyRange hkeyed hnodup with
    ⟨hrows, cursor, hcreate, hkey, hdir, hsteady, hcomp⟩ |
    ⟨row, rows, hrows, cursor, hcreate, hrem, hat⟩
  · refine ⟨cursor, hcreate, ?_⟩
    rw [collectKeys, advance_completed hdir hsteady hcomp, hkey, hrows]
    rfl
  · refine ⟨cursor, hcreate, ?_⟩
    rw [hat.collectKeys (by rw [hrem, length_map]), hrows]
    rfl

variable (keyOnPath supply serialize tables objectStoreID) in
theorem maybeCreate_populateIndex (metadata : IndexMetadata) :
    ∃ cursor, maybeCreate serialize tables objectStoreID invalidId .next keyRange = some cursor ∧
      ∃ tables', populateIndex serialize keyOnPath supply objectStoreID metadata
          ((cursor.statement.remaining serialize tables).length + 2) tables cursor =
          some tables' ∧
        Tables.AddsEntries tables tables'
          ((deliveries {} (tables.recordsInRange objectStoreID keyRange)).flatMap
            (entriesRead keyOnPath metadata objectStoreID)) := by
  rcases maybeCreate_cases serialize keyRange hkeyed hnodup with
    ⟨hrows, cursor, hcreate, hkey, -, -, -⟩ |
    ⟨row, rows, hrows, cursor, hcreate, hrem, hat⟩
  · refine ⟨cursor, hcreate, tables, ?_, ?_⟩
    · rw [populateIndex, hkey]
      exact if_pos rfl
    · rw [hrows]
      exact refl tables
  · refine ⟨cursor, hcreate, ?_⟩
    rw [hrows]
    exact hat.populateIndex (by rw [hrem, length_map]) tables

end New

end SQLiteIDBCursor

/-! ## The operations that move a cursor -/

namespace Tables

variable {keyOnPath : Value → KeyPath → Option Key} {supply : RowidSupply}
  {transaction : Option SQLiteIDBTransaction} {serialize : Option Key → List UInt8}
  {tables tables' : Tables Value} {objectStoreID : ℤ} {metadata : IndexMetadata}

/-- The records that the index will hold are read with their own keys. -/
def ReadsKeys (keyOnPath : Value → KeyPath → Option Key) (tables : Tables Value)
    (objectStoreID : ℤ) (metadata : IndexMetadata) : Prop :=
  let records := tables.recordsInRange objectStoreID {}
  ∀ read ∈ records.zip (readTogether [] (records.map RecordRow.key)),
    generateIndexKeysForValue keyOnPath metadata read.1.value ≠ [] → read.1.key = read.2

theorem ReadsKeys.entriesRead_eq (h : tables.ReadsKeys keyOnPath objectStoreID metadata)
    (hkeyed : ∀ row ∈ tables.records, ∃ key, row.key = some key) :
    (deliveries {} (tables.recordsInRange objectStoreID {})).flatMap
        (SQLiteIDBCursor.entriesRead keyOnPath metadata objectStoreID) =
      (tables.recordsInRange objectStoreID {}).flatMap (entriesFor keyOnPath metadata) := by
  have hmem : ∀ row ∈ tables.recordsInRange objectStoreID {}, ∃ key, row.key = some key :=
    fun row hrow => hkeyed row (mem_of_mem_recordsInRange hrow).1
  have hzip := encode_deliveries {} _ hmem
  have hrows : ((deliveries {} (tables.recordsInRange objectStoreID {})).map Prod.snd) =
      tables.recordsInRange objectStoreID {} := map_snd_deliveries _ _
  conv_rhs => rw [← hrows, flatMap_map]
  refine flatMap_congr fun delivery hdelivery => ?_
  have hread : (delivery.2, delivery.1.encode) ∈ (tables.recordsInRange objectStoreID {}).zip
        (readTogether [] ((tables.recordsInRange objectStoreID {}).map RecordRow.key)) := by
    rw [← hzip]
    exact mem_map_of_mem hdelivery
  have hstore : delivery.2.objectStoreID = objectStoreID :=
    (mem_of_mem_recordsInRange (mem_deliveries hdelivery)).2
  unfold SQLiteIDBCursor.entriesRead entriesFor
  by_cases hkeys : generateIndexKeysForValue keyOnPath metadata delivery.2.value = []
  · rw [hkeys]
    rfl
  · have hkey : delivery.2.key = delivery.1.encode := h _ hread hkeys
    rw [hkey, hstore]

theorem Indexed.keyed' (h : tables.Indexed keyOnPath) :
    ∀ row ∈ tables.records, ∃ key, row.key = some key := by
  intro row hrow
  obtain ⟨key, hkey, -⟩ := h.keyed row hrow
  exact ⟨key, hkey⟩

theorem Indexed.createIndex (h : tables.Indexed keyOnPath)
    (hnew : ∀ info ∈ tables.indexInfo, info.objectStoreID = objectStoreID →
      info.metadata.id ≠ metadata.id)
    (hreads : tables.ReadsKeys keyOnPath objectStoreID metadata)
    (hcreate : tables.createIndex serialize keyOnPath supply transaction objectStoreID metadata =
      some tables') : tables'.Indexed keyOnPath := by
  unfold Tables.createIndex at hcreate
  split at hcreate
  · cases hcreate
  obtain ⟨cursor, hcursor, tables'', hpopulate, hadds⟩ :=
    SQLiteIDBCursor.maybeCreate_populateIndex keyOnPath supply serialize
      { tables with indexInfo := tables.indexInfo ++ [⟨objectStoreID, metadata⟩] }
      objectStoreID {} h.keyed' (h.recordsInRange_nodup {}) metadata
  simp only [hcursor] at hcreate
  obtain rfl : tables'' = tables' := Option.some_inj.mp (hpopulate.symm.trans hcreate)
  have hindexRecords : tables''.indexRecords.map IndexRecordRow.entry =
      tables.indexRecords.map IndexRecordRow.entry ++
        (tables.recordsInRange objectStoreID {}).flatMap (entriesFor keyOnPath metadata) :=
    hadds.indexRecords.trans (congrArg _ (hreads.entriesRead_eq h.keyed'))
  refine ⟨?_, ?_, ?_, ?_, ?_⟩
  · rw [hindexRecords, hadds.records, hadds.indexInfo]
    have hsplit : ∀ record, entriesOf keyOnPath (tables.indexInfo ++ [⟨objectStoreID, metadata⟩])
        record = entriesOf keyOnPath tables.indexInfo record ++
          if record.objectStoreID = objectStoreID then entriesFor keyOnPath metadata record
          else [] := by
      intro record
      unfold entriesOf
      by_cases hid : record.objectStoreID = objectStoreID
      · simp [hid]
      · simp [hid, Ne.symm hid]
    rw [flatMap_congr fun record _ => hsplit record]
    refine List.Perm.trans ?_ (flatMap_append_perm _ _ _)
    refine h.entries.append ?_
    rw [flatMap_ite]
    exact h.recordsInRange_all.flatMap_right _
  · rw [hadds.records]
    exact h.distinctKeys
  · rw [hadds.indexInfo, pairwise_append]
    refine ⟨h.distinctIndexes, pairwise_singleton _ _, ?_⟩
    intro info hinfo new hmem hid
    rw [mem_singleton.mp hmem] at hid ⊢
    exact hnew info hinfo hid
  · rw [hadds.records]
    exact h.keyed
  · rw [hadds.records]
    exact h.distinctRowids

/-- The keys that `deleteRange` deletes. -/
def keysInRange (tables : Tables Value) (objectStoreID : ℤ) (keyRange : KeyRangeData) :
    List (Option Key) :=
  if keyRange.isExactlyOneKey then [keyRange.lowerKey.encode]
  else readTogether [] ((tables.recordsInRange objectStoreID keyRange).map RecordRow.key)

theorem DeletesByText.sublist {text : Option Key}
    (h : tables.DeletesByText keyOnPath objectStoreID text)
    (hrecs : ∀ record ∈ tables'.records, record ∈ tables.records)
    (hinfo : tables'.indexInfo = tables.indexInfo) :
    tables'.DeletesByText keyOnPath objectStoreID text := by
  intro record hrec
  rw [hinfo]
  exact h record (hrecs record hrec)

theorem Indexed.deleteRecords (h : tables.Indexed keyOnPath) (keys : List KeyData)
    (htexts : ∀ key ∈ keys, tables.DeletesByText keyOnPath objectStoreID key.encode) :
    (keys.foldl (fun tables key => tables.deleteRecord objectStoreID key) tables).Indexed
      keyOnPath := by
  induction keys generalizing tables with
  | nil => exact h
  | cons key keys ih =>
    refine ih (h.deleteRecord (htexts key mem_cons_self)) fun key' hkey' => ?_
    refine (htexts key' (mem_cons_of_mem key hkey')).sublist ?_ rfl
    exact fun record hrec => mem_of_mem_filter hrec

theorem Indexed.deletesByText_null (h : tables.Indexed keyOnPath) :
    tables.DeletesByText keyOnPath objectStoreID none := by
  intro record hrec _ hcollate
  obtain ⟨key, hkey, hrecordKey⟩ := h.keyed record hrec
  have hgt : idbKeyCollate record.key none = .gt := by
    rw [hkey]
    unfold idbKeyCollate KeyData.compare
    rw [KeyData.key_decode_of_nil rfl]
    exact hrecordKey.compare_invalid
  rw [hgt] at hcollate
  cases hcollate

theorem Indexed.deleteRange (h : tables.Indexed keyOnPath) {keyRange : KeyRangeData}
    (htexts : ∀ text ∈ tables.keysInRange objectStoreID keyRange,
      tables.DeletesByText keyOnPath objectStoreID text)
    (hdel : tables.deleteRange serialize transaction objectStoreID keyRange = some tables') :
    tables'.Indexed keyOnPath := by
  unfold Tables.deleteRange at hdel
  unfold keysInRange at htexts
  split at hdel
  · cases hdel
  split at hdel
  · rename_i hone
    rw [if_pos hone] at htexts
    cases hdel
    exact h.deleteRecord (htexts _ mem_cons_self)
  · rename_i hone
    rw [if_neg hone] at htexts
    obtain ⟨cursor, hcursor, hcollect⟩ :=
      SQLiteIDBCursor.maybeCreate_collectKeys serialize objectStoreID keyRange h.keyed' (h.recordsInRange_nodup keyRange)
    simp only [hcursor, hcollect] at hdel
    cases hdel
    refine h.deleteRecords _ fun key hkey => ?_
    rcases mem_append.mp hkey with hread | hend
    · refine htexts _ ?_
      obtain ⟨delivery, hdelivery, rfl⟩ := mem_map.mp hread
      have hzip := encode_deliveries {} (tables.recordsInRange objectStoreID keyRange)
        fun row hrow => h.keyed' row (mem_of_mem_recordsInRange hrow).1
      have hmem : (delivery.2, delivery.1.encode) ∈ _ := hzip ▸ mem_map_of_mem hdelivery
      exact (of_mem_zip hmem).2
    · rw [mem_singleton.mp hend]
      exact h.deletesByText_null

end Tables

/-!
## Index records match records, over every run

A run keeps index records and records together when its steps find the index records of each
record they delete, and read the key of each record they index (`Request.KeepsKeys`). A record
stored under `0` and replaced under `-0` leaves its index records behind
(`not_indexRecords_match_records`).
-/

open Enumeration Transition

variable {Value : Type}

namespace Tables

variable {keyOnPath : Value → KeyPath → Option Key} {tables : Tables Value}

/-- Index records match records. -/
structure IndexRecordsMatchRecords (keyOnPath : Value → KeyPath → Option Key)
    (tables : Tables Value) : Prop where
  /-- Every index record belongs to an index and to a record of its object store. -/
  sound : ∀ row ∈ tables.indexRecords, ∃ info ∈ tables.indexInfo,
    info.metadata.id = row.indexID ∧ info.objectStoreID = row.objectStoreID ∧
    ∃ record ∈ tables.records, record.objectStoreID = row.objectStoreID ∧
      idbKeyCollate row.value record.key = .eq ∧
      ∃ key ∈ generateIndexKeysForValue keyOnPath info.metadata record.value,
        row.key = some key
  /-- Every index key of a record has one index record. -/
  complete : ∀ record ∈ tables.records, ∀ info ∈ tables.indexInfo,
    info.objectStoreID = record.objectStoreID →
    ∀ key ∈ generateIndexKeysForValue keyOnPath info.metadata record.value,
      (tables.indexRecords.countP fun row =>
        row.indexID = info.metadata.id ∧ row.objectStoreID = record.objectStoreID ∧
        idbKeyCollate row.key (some key) = .eq ∧ idbKeyCollate row.value record.key = .eq) = 1
  /-- An object store has at most one record for a key. -/
  unique : ∀ (objectStoreID : ℤ) (key : Key), (tables.records.countP fun record =>
    record.objectStoreID = objectStoreID ∧ idbKeyCollate record.key (some key) = .eq) ≤ 1

section

variable (h : tables.Indexed keyOnPath)
include h

theorem Indexed.sound {row : IndexRecordRow} (hrow : row ∈ tables.indexRecords) :
    ∃ info ∈ tables.indexInfo,
      info.metadata.id = row.indexID ∧ info.objectStoreID = row.objectStoreID ∧
      ∃ record ∈ tables.records, record.objectStoreID = row.objectStoreID ∧
        idbKeyCollate row.value record.key = .eq ∧
        ∃ key ∈ generateIndexKeysForValue keyOnPath info.metadata record.value,
          row.key = some key := by
  have hentry := h.entries.mem_iff.mp (mem_map_of_mem hrow)
  obtain ⟨record, hrec, hmem⟩ := mem_flatMap.mp hentry
  obtain ⟨info, hinfo, hstore, hmem⟩ := mem_entriesOf.mp hmem
  obtain ⟨key, hkey, heq⟩ := mem_entriesFor.mp hmem
  obtain ⟨hindexID, hobjectStoreID, hrowKey, hvalue⟩ := IndexEntry.ext_iff.mp heq
  obtain ⟨recordKey, hrecordKey, -⟩ := h.keyed record hrec
  refine ⟨info, hinfo, hindexID.symm, hstore.trans hobjectStoreID.symm, record, hrec,
    hobjectStoreID.symm, ?_, key, hkey, hrowKey⟩
  change row.value = record.key at hvalue
  rw [hvalue, hrecordKey, idbKeyCollate_some]
  exact recordKey.compare_self

theorem Indexed.countP_entriesOf {record : RecordRow Value}
    (hrec : record ∈ tables.records) {info : IndexInfoRow} (hinfo : info ∈ tables.indexInfo)
    (hstore : info.objectStoreID = record.objectStoreID) {key : Key}
    (hkey : key ∈ generateIndexKeysForValue keyOnPath info.metadata record.value) :
    ((entriesOf keyOnPath tables.indexInfo record).countP fun entry =>
      entry.indexID = info.metadata.id ∧ entry.objectStoreID = record.objectStoreID ∧
      idbKeyCollate entry.key (some key) = .eq ∧
      idbKeyCollate entry.value record.key = .eq) = 1 := by
  obtain ⟨recordKey, hrecordKey, -⟩ := h.keyed record hrec
  have hother : ∀ other ∈ tables.indexInfo.filter
      fun info => info.objectStoreID = record.objectStoreID,
      other.metadata.id ≠ info.metadata.id →
      ((entriesFor keyOnPath other.metadata record).countP fun entry =>
        entry.indexID = info.metadata.id ∧ entry.objectStoreID = record.objectStoreID ∧
        idbKeyCollate entry.key (some key) = .eq ∧
        idbKeyCollate entry.value record.key = .eq) = 0 := by
    intro other _ hne
    rw [countP_eq_zero]
    intro entry hentry hprop
    obtain ⟨otherKey, -, rfl⟩ := mem_entriesFor.mp hentry
    exact hne (of_decide_eq_true hprop).1
  refine countP_flatMap_eq_one (h.distinctIndexes.filter _)
    (mem_filter.mpr ⟨hinfo, decide_eq_true hstore⟩) ?_ ?_ ?_
  · unfold entriesFor
    rw [countP_map]
    refine countP_eq_one
      (pairwise_generateIndexKeysForValue keyOnPath info.metadata record.value) hkey ?_ ?_ ?_
    · simp [hrecordKey, compare_self]
    · intro otherKey _ hne
      simp [hne]
    · intro otherKey _ hne
      have hne' : otherKey.compare key ≠ .eq := fun heq => hne (compare_eq_symm heq)
      simp [hne']
  · intro other hmem hne
    have hid := of_decide_eq_true (mem_filter.mp hmem).2
    exact hother other hmem (hne (hid.trans hstore.symm))
  · intro other hmem hne
    have hid := of_decide_eq_true (mem_filter.mp hmem).2
    exact hother other hmem (hne (hstore.trans hid.symm)).symm

theorem Indexed.complete {record : RecordRow Value}
    (hrec : record ∈ tables.records) {info : IndexInfoRow} (hinfo : info ∈ tables.indexInfo)
    (hstore : info.objectStoreID = record.objectStoreID) {key : Key}
    (hkey : key ∈ generateIndexKeysForValue keyOnPath info.metadata record.value) :
    (tables.indexRecords.countP fun row =>
      row.indexID = info.metadata.id ∧ row.objectStoreID = record.objectStoreID ∧
      idbKeyCollate row.key (some key) = .eq ∧ idbKeyCollate row.value record.key = .eq) = 1 := by
  have hother : ∀ other : RecordRow Value, (other.objectStoreID = record.objectStoreID →
        idbKeyCollate other.key record.key ≠ .eq) →
      ((entriesOf keyOnPath tables.indexInfo other).countP fun entry =>
        entry.indexID = info.metadata.id ∧ entry.objectStoreID = record.objectStoreID ∧
        idbKeyCollate entry.key (some key) = .eq ∧
        idbKeyCollate entry.value record.key = .eq) = 0 := by
    intro other hne
    rw [countP_eq_zero]
    intro entry hentry hprop
    obtain ⟨hentryStore, hentryValue⟩ := fields_of_mem_entriesOf hentry
    obtain ⟨-, hid, -, hcollate⟩ := of_decide_eq_true hprop
    rw [hentryStore] at hid
    rw [hentryValue] at hcollate
    exact hne hid hcollate
  have hcount := countP_flatMap_eq_one h.distinctKeys hrec
    (h.countP_entriesOf hrec hinfo hstore hkey)
    (fun other _ hne => hother other hne) ?_
  · rw [← h.entries.countP_eq, countP_map] at hcount
    exact hcount
  · intro other hmem hne
    refine hother other fun hid heq => hne hid.symm ?_
    obtain ⟨otherKey, hotherKey, -⟩ := h.keyed other hmem
    obtain ⟨recordKey, hrecordKey, -⟩ := h.keyed record hrec
    rw [hotherKey, hrecordKey, idbKeyCollate_some] at heq
    rw [hotherKey, hrecordKey, idbKeyCollate_some]
    exact compare_eq_symm heq

theorem Indexed.unique (objectStoreID : ℤ) (key : Key) : (tables.records.countP fun record =>
      record.objectStoreID = objectStoreID ∧ idbKeyCollate record.key (some key) = .eq) ≤ 1 := by
  refine countP_le_one h.distinctKeys fun a ha b hb hpa hpb hne => ?_
  obtain ⟨haid, haeq⟩ := of_decide_eq_true hpa
  obtain ⟨hbid, hbeq⟩ := of_decide_eq_true hpb
  obtain ⟨aKey, haKey, -⟩ := h.keyed a ha
  obtain ⟨bKey, hbKey, -⟩ := h.keyed b hb
  refine hne (haid.trans hbid.symm) ?_
  rw [haKey, idbKeyCollate_some] at haeq
  rw [hbKey, idbKeyCollate_some] at hbeq
  rw [haKey, hbKey, idbKeyCollate_some]
  exact compare_eq_trans haeq (compare_eq_symm hbeq)

theorem Indexed.indexRecordsMatchRecords : tables.IndexRecordsMatchRecords keyOnPath where
  sound := fun _ hrow => h.sound hrow
  complete := fun _ hrec _ hinfo hstore _ hkey => h.complete hrec hinfo hstore hkey
  unique := h.unique

end

/-- The tables of a new database. -/
def initial : Tables Value where
  objectStoreInfo := []
  indexInfo := []
  keyGenerators := []
  records := []
  indexRecords := []

theorem indexed_initial : (initial : Tables Value).Indexed keyOnPath where
  entries := List.Perm.nil
  distinctKeys := List.Pairwise.nil
  distinctIndexes := List.Pairwise.nil
  keyed := fun _ h => absurd h not_mem_nil
  distinctRowids := nodup_nil

end Tables

namespace Double

theorem eq_of_order_eq {a b : Double} (h : a.order = b.order) (hpos : 0 < b.order) : a = b := by
  obtain ⟨a, ha⟩ := a
  obtain ⟨b, hb⟩ := b
  have hbits : a.toNat = b.toNat := by
    unfold order at h hpos
    simp only at h hpos
    split at h <;> split at h <;> split at hpos <;> omega
  obtain rfl : a = b := UInt64.toNat_inj.mp hbits
  rfl

theorem order_ofNat_pos {n : ℕ} (hn : 0 < n) : 0 < (ofNat n).order := by
  have hbits : (ofNat n).bits.toNat = (1023 + min (Nat.log2 n) 63) * 2 ^ 52 +
        n * 2 ^ 52 / 2 ^ min (Nat.log2 n) 63 % 2 ^ 52 := by
    rw [ofNat, if_neg (by omega)]
    rw [UInt64.toNat_ofNat', Nat.mod_eq_of_lt (by omega)]
  unfold order
  split <;> omega

end Double

theorem Key.eq_of_compare_number {key : Key} {number : Double}
    (h : key.compare (.number number) = .eq) (hpos : 0 < number.order) :
    key = .number number := by
  cases key with
  | number other =>
    rw [compare, compareNumbers_eq, compareInt_eq_eq] at h
    rw [Double.eq_of_order_eq h hpos]
  | _ => simp [compare, type, KeyType.value] at h

/-- The operations of the backing store, and the putting of a record. -/
inductive BackingStoreOperation (Value : Type)
  | createObjectStore (metadata : ObjectStoreMetadata)
  | deleteObjectStore (objectStoreID : ℤ)
  | clearObjectStore (objectStoreID : ℤ)
  | createIndex (objectStoreID : ℤ) (metadata : IndexMetadata)
  | deleteIndex (objectStoreID indexID : ℤ)
  | putRecord (objectStoreMetadata : ObjectStoreMetadata) (inputKeyData : KeyData) (value : Value)
      (putMode : PutMode) (indexIDs : List ℤ) (indexKeys : List (List Key))
  | deleteRange (objectStoreID : ℤ) (keyRange : KeyRangeData)

/-- A request: the operation, its transaction, and the rowids that SQLite picks for it. -/
structure Request (Value : Type) where
  operation : BackingStoreOperation Value
  transaction : Option SQLiteIDBTransaction
  supply : RowidSupply

/-- The key generator makes the key. -/
abbrev generatesKey (objectStoreMetadata : ObjectStoreMetadata) (inputKeyData : KeyData)
    (putMode : PutMode) : Prop :=
  putMode ≠ .cursorUpdate ∧ objectStoreMetadata.autoIncrement ∧ inputKeyData.isNull

namespace Request

variable (serialize : Option Key → List UInt8) (keyOnPath : Value → KeyPath → Option Key)
  (tables : Tables Value) (request : Request Value)

/-- The tables after a request that succeeds. -/
def apply : Option (Tables Value) :=
  match request.operation with
  | .createObjectStore metadata => tables.createObjectStore request.transaction metadata
  | .deleteObjectStore objectStoreID =>
    tables.deleteObjectStore request.transaction objectStoreID
  | .clearObjectStore objectStoreID => tables.clearObjectStore request.transaction objectStoreID
  | .createIndex objectStoreID metadata =>
    tables.createIndex serialize keyOnPath request.supply request.transaction objectStoreID
      metadata
  | .deleteIndex objectStoreID indexID =>
    tables.deleteIndex request.transaction objectStoreID indexID
  | .putRecord objectStoreMetadata inputKeyData value putMode indexIDs indexKeys =>
    tables.putRecordInBackingStore request.supply request.transaction objectStoreMetadata
      inputKeyData value putMode indexIDs indexKeys
  | .deleteRange objectStoreID keyRange =>
    tables.deleteRange serialize request.transaction objectStoreID keyRange

/-- What the callers see to: a new index has a new id, a key is valid, and the index keys are
those of the value in the indexes of the object store. -/
def Proper : Prop :=
  match request.operation with
  | .createIndex objectStoreID metadata =>
    ∀ info ∈ tables.indexInfo, info.objectStoreID = objectStoreID →
      info.metadata.id ≠ metadata.id
  | .putRecord objectStoreMetadata inputKeyData value putMode indexIDs indexKeys =>
    (generatesKey objectStoreMetadata inputKeyData putMode ∨
      ∃ key, inputKeyData.encode = some key ∧ key.IsRecordKey) ∧
    ∃ indexInfo : List IndexInfoRow,
      indexInfo.Perm
        (tables.indexInfo.filter fun info => info.objectStoreID = objectStoreMetadata.id) ∧
      indexIDs = indexInfo.map (fun info => info.metadata.id) ∧
      indexKeys = indexInfo.map fun info =>
        generateIndexKeysForValue keyOnPath info.metadata value
  | _ => True

/-- A record that the request deletes has no index record, or is stored with the very key by
which it is deleted; a record that it indexes is read with its own key. -/
def KeepsKeys : Prop :=
  match request.operation with
  | .createIndex objectStoreID metadata => tables.ReadsKeys keyOnPath objectStoreID metadata
  | .putRecord objectStoreMetadata inputKeyData _ putMode _ _ =>
    generatesKey objectStoreMetadata inputKeyData putMode ∨
      tables.DeletesByText keyOnPath objectStoreMetadata.id inputKeyData.encode
  | .deleteRange objectStoreID keyRange =>
    ∀ text ∈ tables.keysInRange objectStoreID keyRange,
      tables.DeletesByText keyOnPath objectStoreID text
  | _ => True

def Step (tables : Tables Value) (request : Request Value) (tables' : Tables Value) : Prop :=
  request.Proper keyOnPath tables ∧ request.apply serialize keyOnPath tables = some tables'

end Request

section Step

variable {serialize : Option Key → List UInt8} {keyOnPath : Value → KeyPath → Option Key}
  {tables tables' : Tables Value} {request : Request Value}

theorem Tables.Indexed.putKey (h : tables.Indexed keyOnPath)
    {objectStoreMetadata : ObjectStoreMetadata} {inputKeyData key : KeyData} {keyNumber : ℤ}
    {putMode : PutMode} {transaction : Option SQLiteIDBTransaction}
    (hput : tables.putKey transaction objectStoreMetadata inputKeyData putMode =
      some (key, keyNumber))
    (hvalid : generatesKey objectStoreMetadata inputKeyData putMode ∨
      ∃ key, inputKeyData.encode = some key ∧ key.IsRecordKey)
    (hkeeps : generatesKey objectStoreMetadata inputKeyData putMode ∨
      tables.DeletesByText keyOnPath objectStoreMetadata.id inputKeyData.encode) :
    (∃ recordKey, key.encode = some recordKey ∧ recordKey.IsRecordKey) ∧
      tables.DeletesByText keyOnPath objectStoreMetadata.id key.encode := by
  unfold Tables.putKey at hput
  by_cases hgen : generatesKey objectStoreMetadata inputKeyData putMode
  · rw [if_pos hgen] at hput
    obtain ⟨number, hnum, heq⟩ := Option.map_eq_some_iff.mp hput
    cases heq
    have hpos : 0 < keyNumber := by
      unfold generateKeyNumber at hnum
      split at hnum
      · cases hnum
      split at hnum
      · cases hnum
      split at hnum
      · cases hnum
      · cases hnum
        omega
    have henc : KeyData.encode
        { type := .number, numberValue := .ofNat keyNumber.toNat, isNull := false } =
        some (.number (.ofNat keyNumber.toNat)) := rfl
    rw [henc]
    refine ⟨⟨_, rfl, rfl, nofun, nofun⟩, ?_⟩
    intro record hrec _ hcollate _
    obtain ⟨recordKey, hrecordKey, -⟩ := h.keyed record hrec
    rw [hrecordKey, idbKeyCollate_some] at hcollate
    rw [hrecordKey, eq_of_compare_number hcollate (Double.order_ofNat_pos (by omega))]
  · rw [if_neg hgen] at hput
    cases hput
    exact ⟨hvalid.resolve_left hgen, hkeeps.resolve_left hgen⟩

theorem Tables.Indexed.putRecordInBackingStore (h : tables.Indexed keyOnPath)
    {objectStoreMetadata : ObjectStoreMetadata} {inputKeyData : KeyData} {value : Value}
    {putMode : PutMode} {transaction : Option SQLiteIDBTransaction} {supply : RowidSupply}
    {indexInfo : List IndexInfoRow}
    (hvalid : generatesKey objectStoreMetadata inputKeyData putMode ∨
      ∃ key, inputKeyData.encode = some key ∧ key.IsRecordKey)
    (hkeeps : generatesKey objectStoreMetadata inputKeyData putMode ∨
      tables.DeletesByText keyOnPath objectStoreMetadata.id inputKeyData.encode)
    (hinfo : indexInfo.Perm
      (tables.indexInfo.filter fun info => info.objectStoreID = objectStoreMetadata.id))
    (hput : tables.putRecordInBackingStore supply transaction objectStoreMetadata inputKeyData
      value putMode (indexInfo.map fun info => info.metadata.id)
      (indexInfo.map fun info => generateIndexKeysForValue keyOnPath info.metadata value) =
      some tables') : tables'.Indexed keyOnPath := by
  unfold Tables.putRecordInBackingStore at hput
  split at hput
  · cases hput
  rename_i key keyNumber hkey
  split at hput
  · cases hput
  split at hput
  · cases hput
  split at hput
  · cases hput
  rename_i put hputRecord
  obtain ⟨hrecordKey, htext⟩ := h.putKey hkey hvalid hkeeps
  have hzip : (indexInfo.map fun info => info.metadata.id).zip
      (indexInfo.map fun info => generateIndexKeysForValue keyOnPath info.metadata value) =
      indexInfo.map fun info =>
        (info.metadata.id, generateIndexKeysForValue keyOnPath info.metadata value) :=
    zip_map'
  have hadds : Tables.AddsEntries put ((indexInfo.map fun info => (info.metadata.id,
        generateIndexKeysForValue keyOnPath info.metadata value)).foldl (fun tables entry =>
          tables.putIndexRecords supply objectStoreMetadata.id entry.1 key entry.2) put)
      (indexInfo.flatMap fun info =>
        (generateIndexKeysForValue keyOnPath info.metadata value).map fun indexKey =>
          ⟨info.metadata.id, objectStoreMetadata.id, some indexKey, key.encode⟩) := by
    rw [foldl_map]
    refine foldl (fun tables info => ?_) indexInfo put
    exact addsEntries_putIndexRecords _ _ _ key
      (generateIndexKeysForValue keyOnPath info.metadata value) tables
  have hput' := (h.deleteRecord htext).putRecord hrecordKey hputRecord hinfo hadds
  rw [hzip] at hput
  split at hput
  · unfold updateKeyGeneratorNumber at hput
    split at hput
    · cases hput
    cases hput
    exact hput'.congr rfl rfl rfl
  · cases hput
    exact hput'

theorem Tables.Indexed.step (h : tables.Indexed keyOnPath)
    (hkeeps : request.KeepsKeys keyOnPath tables)
    (hstep : request.Step serialize keyOnPath tables tables') : tables'.Indexed keyOnPath := by
  obtain ⟨hproper, happly⟩ := hstep
  obtain ⟨operation, transaction, supply⟩ := request
  cases operation with
  | createObjectStore metadata => exact h.createObjectStore happly
  | deleteObjectStore objectStoreID => exact h.deleteObjectStore happly
  | clearObjectStore objectStoreID => exact h.clearObjectStore happly
  | createIndex objectStoreID metadata => exact h.createIndex hproper hkeeps happly
  | deleteIndex objectStoreID indexID => exact h.deleteIndex happly
  | putRecord objectStoreMetadata inputKeyData value putMode indexIDs indexKeys =>
    obtain ⟨hvalid, indexInfo, hinfo, rfl, rfl⟩ := hproper
    exact h.putRecordInBackingStore hvalid hkeeps hinfo happly
  | deleteRange objectStoreID keyRange => exact h.deleteRange hkeeps happly

end Step

theorem indexRecords_match_records (serialize : Option Key → List UInt8)
    (keyOnPath : Value → KeyPath → Option Key) {requests : List (Request Value)}
    {tables : Tables Value}
    (hrun : Run (guarded (fun tables request => request.Step serialize keyOnPath tables)
      fun tables request => request.KeepsKeys keyOnPath tables) .initial requests tables) :
    tables.IndexRecordsMatchRecords keyOnPath := by
  have hindexed : tables.Indexed keyOnPath :=
    hrun.preserves (fun _ _ _ h hstep => h.step hstep.1 hstep.2) indexed_initial
  exact hindexed.indexRecordsMatchRecords

namespace SignedZeros

def maxPlusOne (used : List ℕ) : ℕ := used.foldl max 0 + 1

theorem le_foldl_max (used : List ℕ) (n : ℕ) : ∀ m ∈ n :: used, m ≤ used.foldl max n := by
  induction used generalizing n with
  | nil => simp
  | cons a used ih =>
    intro m hm
    rcases mem_cons.mp hm with rfl | hm
    · exact (le_max_left m a).trans (ih _ _ mem_cons_self)
    · rcases mem_cons.mp hm with rfl | hm
      · exact (le_max_right n m).trans (ih _ _ mem_cons_self)
      · exact ih _ _ (mem_cons_of_mem _ hm)

/-- One more than the largest rowid in use, as SQLite picks it. -/
def supply : RowidSupply where
  choose := maxPlusOne
  fresh := by
    intro used hmem
    have := le_foldl_max used 0 _ (mem_cons_of_mem 0 hmem)
    unfold maxPlusOne at this
    omega

/-- Values are numbers, and every key path leads to the value. -/
def keyOnPath (value : Double) (_ : KeyPath) : Option Key := some (.number value)

def serialize (_ : Option Key) : List UInt8 := []

def transaction : Option SQLiteIDBTransaction := some ⟨.versionChange, true⟩

def objectStore : ObjectStoreMetadata where
  name := "store"
  id := 1
  keyPath := .null
  autoIncrement := false
  maxIndexId := minimumIndexId
  indexes := fun _ => none

def index : IndexMetadata := ⟨"index", 30, .string "key", false, false⟩

def put (key : Double) : BackingStoreOperation Double :=
  .putRecord objectStore (.ofKey (.number key)) .one .addOrUpdate [30] [[.number .one]]

/-- A record with the key `0` is replaced by one with the key `-0`. -/
def requests : List (Request Double) :=
  [.createObjectStore objectStore, .createIndex 1 index, put .zero, put .negativeZero].map
    fun operation => ⟨operation, transaction, supply⟩

/-- The record of `0` has gone, its index record is still there. -/
def final : Tables Double where
  objectStoreInfo := [⟨1, "store", .null, false, 30⟩]
  indexInfo := [⟨1, index⟩]
  keyGenerators := [⟨1, 0⟩]
  records := [⟨1, 1, some (.number .negativeZero), .one⟩]
  indexRecords :=
    [⟨1, 30, 1, some (.number .one), some (.number .zero)⟩,
      ⟨2, 30, 1, some (.number .one), some (.number .negativeZero)⟩]

theorem isRecordKey_number (number : Double) : (Key.number number).IsRecordKey :=
  ⟨rfl, nofun, nofun⟩

theorem proper_put (tables : Tables Double) (hinfo : tables.indexInfo = [⟨1, index⟩])
    (key : Double) : Request.Proper keyOnPath tables ⟨put key, transaction, supply⟩ := by
  refine ⟨.inr ⟨.number key, rfl, isRecordKey_number key⟩, [⟨1, index⟩], ?_, rfl, rfl⟩
  rw [hinfo]
  exact List.Perm.refl _

theorem proper_createIndex (tables : Tables Double) (hinfo : tables.indexInfo = []) :
    Request.Proper keyOnPath tables ⟨.createIndex 1 index, transaction, supply⟩ := by
  intro info hmem
  rw [hinfo] at hmem
  exact absurd hmem not_mem_nil

theorem run_requests :
    Run (fun tables request => request.Step serialize keyOnPath tables) .initial requests final := by
  refine .cons ⟨?_, rfl⟩ (.cons ⟨?_, rfl⟩ (.cons ⟨?_, rfl⟩ (.cons ⟨?_, rfl⟩ (.nil _))))
  · exact trivial
  · exact proper_createIndex _ rfl
  · exact proper_put _ rfl _
  · exact proper_put _ rfl _

/-- A record replaced by another with the same key. -/
def replaced : Tables Double where
  objectStoreInfo := [⟨1, "store", .null, false, 30⟩]
  indexInfo := [⟨1, index⟩]
  keyGenerators := [⟨1, 0⟩]
  records := [⟨1, 1, some (.number .zero), .one⟩]
  indexRecords := [⟨1, 30, 1, some (.number .one), some (.number .zero)⟩]

theorem keepsKeys_put {tables : Tables Double} {key : Double}
    (h : ∀ record ∈ tables.records, record.key = some (.number key)) :
    Request.KeepsKeys keyOnPath tables ⟨put key, transaction, supply⟩ :=
  .inr fun record hrec _ _ _ => h record hrec

end SignedZeros

theorem not_indexRecords_match_records :
    ¬ ∀ (Value : Type) (serialize : Option Key → List UInt8)
      (keyOnPath : Value → KeyPath → Option Key) (requests : List (Request Value))
      (tables : Tables Value),
      Run (fun tables request => request.Step serialize keyOnPath tables) .initial requests
        tables → tables.IndexRecordsMatchRecords keyOnPath := by
  intro h
  have hmatch := h _ _ _ _ _ SignedZeros.run_requests
  have hcount := hmatch.complete _ mem_cons_self _ mem_cons_self rfl
    (.number .one) mem_cons_self
  revert hcount
  decide

theorem indexRecords_match_records_replaced :
    SignedZeros.replaced.IndexRecordsMatchRecords SignedZeros.keyOnPath := by
  have hrun : Run (guarded
      (fun tables (request : Request Double) =>
        request.Step SignedZeros.serialize SignedZeros.keyOnPath tables)
      fun tables request => request.KeepsKeys SignedZeros.keyOnPath tables) .initial
      ([.createObjectStore SignedZeros.objectStore, .createIndex 1 SignedZeros.index,
        SignedZeros.put .zero, SignedZeros.put .zero].map
          fun operation => ⟨operation, SignedZeros.transaction, SignedZeros.supply⟩)
      SignedZeros.replaced := by
    refine .cons ⟨?_, ?_, rfl⟩ (.cons ⟨?_, ?_, rfl⟩ (.cons ⟨?_, ?_, rfl⟩
      (.cons ⟨?_, ?_, rfl⟩ (.nil _))))
    · exact trivial
    · exact trivial
    · intro read hread
      exact absurd hread not_mem_nil
    · exact SignedZeros.proper_createIndex _ rfl
    · exact SignedZeros.keepsKeys_put fun record hrecord => absurd hrecord not_mem_nil
    · exact SignedZeros.proper_put _ rfl _
    · exact SignedZeros.keepsKeys_put fun record hrecord =>
        congrArg RecordRow.key (mem_singleton.mp hrecord)
    · exact SignedZeros.proper_put _ rfl _
  exact indexRecords_match_records SignedZeros.serialize SignedZeros.keyOnPath hrun

end WebKit.IndexedDB
