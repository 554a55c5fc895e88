import WebKit.IndexedDB.IndexRecordsRun

/-!
# The key generator of an object store

Records are put into an object store whose keys are generated. A put with a given number writes
the initial value of its local variable back to the generator, and the generator refuses only
values above the greatest key, so the keys it gives are new as long as the puts follow it
(`FollowsGenerator`).
-/

namespace WebKit.IndexedDB

open Transition List

variable {Value : Type}

/-- The arguments of a put, its transaction, and the rowids that SQLite picks for it. -/
structure PutRequest (Value : Type) where
  inputKeyData : KeyData
  value : Value
  putMode : PutMode
  indexIDs : List ℤ
  indexKeys : List (List Key)
  transaction : Option SQLiteIDBTransaction
  supply : RowidSupply

structure GeneratorState (Value : Type) where
  tables : Tables Value
  /-- The keys that were generated, the latest first. -/
  generated : List ℤ

/-- A put that succeeds. -/
inductive PutStep (metadata : ObjectStoreMetadata) :
    GeneratorState Value → PutRequest Value → GeneratorState Value → Prop
  | put {s : GeneratorState Value} {request : PutRequest Value} {key : KeyData} {keyNumber : ℤ}
    {tables : Tables Value} :
    s.tables.putKey request.transaction metadata request.inputKeyData request.putMode =
      some (key, keyNumber) →
    s.tables.putRecordInBackingStore request.supply request.transaction metadata
      request.inputKeyData request.value request.putMode request.indexIDs request.indexKeys =
      some tables →
    PutStep metadata s request
      ⟨tables, if generatesKey metadata request.inputKeyData request.putMode then
        keyNumber :: s.generated else s.generated⟩

def numberKey (n : ℤ) : Key := .number (.ofNat n.toNat)

namespace GeneratorState

/-- The value of the key generator of an object store. -/
def currentKey (s : GeneratorState Value) (objectStoreID : ℤ) : Option ℤ :=
  (s.tables.keyGenerators.find? fun row => row.objectStoreID = objectStoreID).map (·.currentKey)

/-- No record of the object store has the key. -/
def Unused (s : GeneratorState Value) (objectStoreID n : ℤ) : Prop :=
  ∀ record ∈ s.tables.records, record.objectStoreID = objectStoreID →
    idbKeyCollate record.key (some (numberKey n)) ≠ .eq

/-- A given key is not one that is still to be generated, and is no number, or is put by a
cursor, when keys have been generated; a key is generated below the greatest one. -/
def FollowsGenerator (metadata : ObjectStoreMetadata) (s : GeneratorState Value)
    (request : PutRequest Value) : Prop :=
  ∀ current, s.currentKey metadata.id = some current →
    if generatesKey metadata request.inputKeyData request.putMode then current < 2 ^ 53
    else
      (∀ n, current < n → n ≤ 2 ^ 53 →
        idbKeyCollate request.inputKeyData.encode (some (numberKey n)) ≠ .eq) ∧
      (request.putMode ≠ .cursorUpdate → request.inputKeyData.type = .number → current = 0)

/-- A put generates a new key and takes no record away. -/
def GeneratesNew (metadata : ObjectStoreMetadata) (s t : GeneratorState Value) : Prop :=
  ∃ n, t.generated = n :: s.generated ∧ 1 ≤ n ∧ n ≤ 2 ^ 53 ∧ (∀ k ∈ s.generated, k < n) ∧
    s.Unused metadata.id n ∧ s.tables.records ⊆ t.tables.records

structure Inv (metadata : ObjectStoreMetadata) (s : GeneratorState Value) : Prop where
  current : ∃ current, s.currentKey metadata.id = some current ∧ 0 ≤ current ∧
    current ≤ 2 ^ 53 ∧ (∀ k ∈ s.generated, k ≤ current) ∧
    ∀ n, current < n → n ≤ 2 ^ 53 → s.Unused metadata.id n

end GeneratorState

theorem Double.ofNat_inj {a b : ℕ} (ha : 0 < a) (hale : a ≤ 2 ^ 53) (hb : 0 < b)
    (hble : b ≤ 2 ^ 53) (h : ofNat a = ofNat b) : a = b := by
  have hbits : ∀ n : ℕ, 0 < n → n ≤ 2 ^ 53 → ∃ e r, (ofNat n).bits.toNat = (1023 + e) * 2 ^ 52 + r ∧
      r < 2 ^ 52 ∧ n * 2 ^ (53 - e) = 2 ^ 53 + 2 * r := by
    intro n hpos hle
    have hself := Nat.log2_self_le hpos.ne'
    have hlt := Nat.lt_log2_self (n := n)
    have he : Nat.log2 n ≤ 53 := (Nat.pow_le_pow_iff_right (by decide)).mp (hself.trans hle)
    have hnat : (ofNat n).bits.toNat = (1023 + Nat.log2 n) * 2 ^ 52 +
        n * 2 ^ 52 / 2 ^ Nat.log2 n % 2 ^ 52 := by
      rw [ofNat, if_neg hpos.ne', UInt64.toNat_ofNat']
      rw [min_eq_left (by omega), Nat.mod_eq_of_lt (by omega)]
    refine ⟨_, _, hnat, Nat.mod_lt _ (by decide), ?_⟩
    generalize Nat.log2 n = e at *
    rcases Nat.lt_or_eq_of_le he with he | rfl
    · have hsplit : 2 ^ 52 = 2 ^ (52 - e) * 2 ^ e := by
        rw [← Nat.pow_add, Nat.sub_add_cancel (by omega)]
      have hdiv : n * 2 ^ 52 / 2 ^ e = n * 2 ^ (52 - e) := by
        rw [hsplit, ← Nat.mul_assoc, Nat.mul_div_cancel _ (Nat.pow_pos (by decide))]
      have hdouble : n * 2 ^ (53 - e) = 2 * (n * 2 ^ (52 - e)) := by
        rw [show 53 - e = 52 - e + 1 by omega, Nat.pow_succ, Nat.mul_comm 2, Nat.mul_assoc]
      have hge := Nat.mul_le_mul_right (2 ^ (52 - e)) hself
      have hlt' := Nat.mul_lt_mul_of_pos_right hlt (Nat.pow_pos (by decide) : 0 < 2 ^ (52 - e))
      rw [Nat.pow_succ] at hlt'
      rw [Nat.mul_comm, ← hsplit] at hge
      rw [show 2 ^ e * 2 * 2 ^ (52 - e) = 2 ^ 52 * 2 by
        rw [Nat.mul_right_comm, Nat.mul_comm (2 ^ e), ← hsplit]] at hlt'
      rw [hdiv, hdouble]
      omega
    · omega
  obtain ⟨e, r, hea, hra, hna⟩ := hbits a ha hale
  obtain ⟨e', r', heb, hrb, hnb⟩ := hbits b hb hble
  rw [h, heb] at hea
  obtain ⟨rfl, rfl⟩ : e = e' ∧ r = r' := by omega
  exact Nat.eq_of_mul_eq_mul_right (Nat.pow_pos (by decide)) (hna.trans hnb.symm)

namespace Tables

variable {tables : Tables Value}

theorem foldl_putIndexRecords (supply : RowidSupply) (objectStoreID : ℤ) (key : KeyData)
    (entries : List (ℤ × List Key)) : ∀ tables : Tables Value,
      let tables' := entries.foldl (fun tables entry =>
        tables.putIndexRecords supply objectStoreID entry.1 key entry.2) tables
      tables'.records = tables.records ∧ tables'.keyGenerators = tables.keyGenerators := by
  have hone : ∀ (indexID : ℤ) (indexKeys : List Key) (tables : Tables Value),
      (tables.putIndexRecords supply objectStoreID indexID key indexKeys).records = tables.records ∧
        (tables.putIndexRecords supply objectStoreID indexID key indexKeys).keyGenerators =
          tables.keyGenerators := by
    intro indexID indexKeys
    unfold putIndexRecords
    induction indexKeys with
    | nil => exact fun _ => ⟨rfl, rfl⟩
    | cons indexKey indexKeys ih => exact fun tables => ih _
  induction entries with
  | nil => exact fun _ => ⟨rfl, rfl⟩
  | cons entry entries ih =>
    intro tables
    obtain ⟨hrecs, hgens⟩ := hone entry.1 entry.2 tables
    obtain ⟨hrecs', hgens'⟩ := ih (tables.putIndexRecords supply objectStoreID entry.1 key
      entry.2)
    exact ⟨hrecs'.trans hrecs, hgens'.trans hgens⟩

/-- What a successful put does to the records and to the key generator. -/
theorem putRecordInBackingStore_spec {supply : RowidSupply}
    {transaction : Option SQLiteIDBTransaction} {metadata : ObjectStoreMetadata}
    {inputKeyData key : KeyData} {keyNumber : ℤ} {value : Value} {putMode : PutMode}
    {indexIDs : List ℤ} {indexKeys : List (List Key)} {tables' : Tables Value}
    (hkey : tables.putKey transaction metadata inputKeyData putMode = some (key, keyNumber))
    (hput : tables.putRecordInBackingStore supply transaction metadata inputKeyData value putMode
      indexIDs indexKeys = some tables') :
    (∃ rowid, tables'.records = (tables.deleteRecord metadata.id key).records ++
        [⟨rowid, metadata.id, key.encode, value⟩]) ∧
      tables'.keyGenerators =
        if putMode ≠ .cursorUpdate ∧ metadata.autoIncrement ∧ key.type = .number then
          tables.keyGenerators.filter (fun row => row.objectStoreID ≠ metadata.id) ++
            [⟨metadata.id, keyNumber⟩]
        else tables.keyGenerators := by
  rw [putRecordInBackingStore, hkey] at hput
  dsimp only at hput
  split at hput
  · cases hput
  split at hput
  · cases hput
  split at hput
  · cases hput
  rename_i hput'
  obtain ⟨hrecs, hgens⟩ :=
    foldl_putIndexRecords supply metadata.id key (indexIDs.zip indexKeys) ‹_›
  unfold putRecord at hput'
  split at hput'
  · cases hput'
  split at hput'
  · cases hput'
  cases hput'
  split at hput
  · rename_i hupd
    unfold updateKeyGeneratorNumber at hput
    split at hput
    · cases hput
    cases hput
    rw [if_pos hupd]
    refine ⟨⟨_, hrecs⟩, ?_⟩
    dsimp only
    rw [hgens]
    rfl
  · rename_i hupd
    cases hput
    rw [if_neg hupd]
    exact ⟨⟨_, hrecs⟩, hgens⟩

end Tables

namespace GeneratorState

variable {metadata : ObjectStoreMetadata} {s t : GeneratorState Value} {request : PutRequest Value}

theorem currentKey_of_update {keyNumber : ℤ} {rows : List KeyGeneratorRow}
    (h : t.tables.keyGenerators = rows.filter (fun row => row.objectStoreID ≠ metadata.id) ++
      [⟨metadata.id, keyNumber⟩]) : t.currentKey metadata.id = some keyNumber := by
  rw [currentKey, h, find?_append, find?_eq_none.mpr]
  · simp
  · intro row hrow
    simpa using (mem_filter.mp hrow).2

theorem Inv.step (h : s.Inv metadata) (hauto : metadata.autoIncrement = true)
    (hfollows : s.FollowsGenerator metadata request) (hstep : PutStep metadata s request t) :
    t.Inv metadata ∧
      (generatesKey metadata request.inputKeyData request.putMode → GeneratesNew metadata s t) := by
  obtain ⟨current, hcur, hnonneg, hle, hgenerated, hunused⟩ := h.current
  have hguard := hfollows current hcur
  cases hstep with
  | put hkey hput =>
  rename_i key keyNumber tables
  obtain ⟨⟨rowid, hrecs⟩, hgens⟩ := Tables.putRecordInBackingStore_spec hkey hput
  -- A key that stays unused by the old records and by the new one.
  have hunused' : ∀ n, s.Unused metadata.id n →
      idbKeyCollate key.encode (some (numberKey n)) ≠ .eq →
      Unused (⟨tables, s.generated⟩ : GeneratorState Value) metadata.id n := by
    intro n hn hkey' record hrec hid
    rw [hrecs] at hrec
    rcases mem_append.mp hrec with hold | hnew
    · exact hn record (mem_of_mem_filter hold) hid
    · rw [mem_singleton.mp hnew]
      exact hkey'
  unfold Tables.putKey at hkey
  by_cases hgen : generatesKey metadata request.inputKeyData request.putMode
  · rw [if_pos hgen] at hkey hguard
    obtain ⟨number, hnum, heq⟩ := Option.map_eq_some_iff.mp hkey
    cases heq
    obtain rfl : keyNumber = current + 1 := by
      unfold Tables.generateKeyNumber at hnum
      split at hnum
      · cases hnum
      split at hnum
      · cases hnum
      rename_i row hrow
      rw [currentKey, hrow] at hcur
      cases hcur
      split at hnum <;> cases hnum
      rfl
    rw [if_pos ⟨hgen.1, hauto, rfl⟩] at hgens
    rw [if_pos hgen]
    have hnew := hunused (current + 1) (by omega) (by omega)
    refine ⟨⟨current + 1, currentKey_of_update hgens, by omega, by omega, ?_, ?_⟩, fun _ =>
      ⟨current + 1, rfl, by omega, by omega, fun k hk => by have := hgenerated k hk; omega, hnew, ?_⟩⟩
    · exact forall_mem_cons.mpr ⟨le_rfl, fun k hk => by have := hgenerated k hk; omega⟩
    · intro n hlt hn
      refine hunused' n (hunused n (by omega) hn) fun hcollate => ?_
      change idbKeyCollate (some (numberKey (current + 1))) _ = _ at hcollate
      rw [idbKeyCollate_some] at hcollate
      have heq := Key.eq_of_compare_number hcollate (Double.order_ofNat_pos (by omega))
      have := Double.ofNat_inj (by omega) (by omega) (by omega) (by omega) (Key.number.inj heq)
      omega
    · intro record hrec
      rw [hrecs]
      refine mem_append_left _ (mem_filter.mpr ⟨hrec, decide_eq_true fun hboth => ?_⟩)
      exact hnew record hrec hboth.1 hboth.2
  · rw [if_neg hgen] at hkey hguard
    cases hkey
    rw [if_neg hgen]
    refine ⟨⟨current, ?_, hnonneg, hle, hgenerated, fun n hlt hn =>
      hunused' n (hunused n hlt hn) (hguard.1 n hlt hn)⟩, fun hnot => absurd hnot hgen⟩
    split at hgens
    · rename_i hupd
      rw [hguard.2 hupd.1 hupd.2.2]
      exact currentKey_of_update hgens
    · rw [← hcur, currentKey, hgens, currentKey]

/-- In a new object store each generated key is new, as long as the puts follow the generator. -/
theorem generated_keys_new {tables₀ tables : Tables Value}
    {transaction : Option SQLiteIDBTransaction} {requests : List (PutRequest Value)}
    (hcreate : tables₀.createObjectStore transaction metadata = some tables)
    (hauto : metadata.autoIncrement = true)
    (hempty : ∀ record ∈ tables₀.records, record.objectStoreID ≠ metadata.id)
    (hrun : Run (guarded (PutStep metadata) (FollowsGenerator metadata)) ⟨tables, []⟩ requests s) :
    (∀ request t, guarded (PutStep metadata) (FollowsGenerator metadata) s request t →
        generatesKey metadata request.inputKeyData request.putMode → GeneratesNew metadata s t) ∧
      ∀ request : PutRequest Value, generatesKey metadata request.inputKeyData request.putMode →
        s.tables.generateKeyNumber request.transaction metadata.id = none →
        s.tables.putRecordInBackingStore request.supply request.transaction metadata
          request.inputKeyData request.value request.putMode request.indexIDs request.indexKeys =
          none := by
  have hstart : Inv metadata ⟨tables, []⟩ := by
    unfold Tables.createObjectStore at hcreate
    split at hcreate
    · cases hcreate
    split at hcreate
    · cases hcreate
    cases hcreate
    refine ⟨0, currentKey_of_update rfl, le_rfl, by decide, nofun, ?_⟩
    exact fun n _ _ record hrecord hid => absurd hid (hempty record hrecord)
  have hinv : s.Inv metadata := hrun.preserves (fun _ _ _ h hstep =>
    (h.step hauto hstep.1 hstep.2).1) hstart
  refine ⟨fun _ _ hstep => (hinv.step hauto hstep.1 hstep.2).2, fun request hgenerates hnone => ?_⟩
  rw [Tables.putRecordInBackingStore, Tables.putKey, if_pos hgenerates, hnone]
  rfl

end GeneratorState

namespace RepeatedKey

open SignedZeros (transaction supply)

def metadata : ObjectStoreMetadata := { SignedZeros.objectStore with autoIncrement := true }

/-- The object store with the keys that were put into it. -/
def tables (currentKey : ℤ) (records : List (RecordRow Unit)) : Tables Unit where
  objectStoreInfo := [⟨1, "store", .null, true, 30⟩]
  indexInfo := []
  keyGenerators := [⟨1, currentKey⟩]
  records := records
  indexRecords := []

def put (inputKeyData : KeyData) : PutRequest Unit :=
  ⟨inputKeyData, (), .addOrUpdate, [], [], transaction, supply⟩

end RepeatedKey

open RepeatedKey GeneratorState in
theorem generated_keys_new_first : GeneratesNew metadata ⟨tables 0 [], []⟩
      ⟨tables 1 [⟨1, 1, some (.number .one), ()⟩], [1]⟩ := by
  have hcreate : (⟨[], [], [], [], []⟩ : Tables Unit).createObjectStore SignedZeros.transaction
      metadata = some (tables 0 []) := rfl
  refine (generated_keys_new hcreate rfl nofun (.nil _)).1 (put {}) _ ⟨fun current h => ?_,
    .put rfl rfl⟩ ⟨nofun, rfl, rfl⟩
  cases h
  rw [if_pos ⟨nofun, rfl, rfl⟩]
  decide

open RepeatedKey GeneratorState in
/-- A put with the key `1` makes the generator give the key `1` again. -/
theorem not_generated_keys_new : ¬ ∀ (metadata : ObjectStoreMetadata) (tables₀ tables : Tables Unit)
      (transaction : Option SQLiteIDBTransaction) (requests : List (PutRequest Unit))
      (s t : GeneratorState Unit) (request : PutRequest Unit),
      tables₀.createObjectStore transaction metadata = some tables →
      metadata.autoIncrement = true →
      (∀ record ∈ tables₀.records, record.objectStoreID ≠ metadata.id) →
      Run (PutStep metadata) ⟨tables, []⟩ requests s → PutStep metadata s request t →
      generatesKey metadata request.inputKeyData request.putMode → GeneratesNew metadata s t := by
  intro h
  obtain ⟨n, hgenerated, -, -, hlt, -⟩ := h metadata ⟨[], [], [], [], []⟩ (tables 0 [])
    SignedZeros.transaction [put {}, put (.ofKey (.number .one))] _ _ (put {}) rfl rfl nofun
    (.cons (.put rfl rfl) (.cons (.put rfl rfl) (.nil _))) (.put rfl rfl) ⟨nofun, rfl, rfl⟩
  cases hgenerated
  exact absurd (hlt 1 mem_cons_self) (lt_irrefl _)

end WebKit.IndexedDB
