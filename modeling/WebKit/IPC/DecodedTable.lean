import WebKit.IPC.ArgumentRoundTrip
import WebKit.WTF.BitVector
import WebKit.WTF.HashTableAddition

/-!
# Hash tables that are decoded

`ArgumentCoder<HashMap>` and `ArgumentCoder<HashSet>` with keys of type `uint64_t`, over the hash
table itself. Zero marks an empty bucket of such a table and all ones a deleted one, but every
number can be received, and `add` says that the entry of a marker is new as it says it of other
keys. A decoded table is the table that was announced if and only if no marker was received:
otherwise `keyCount` counts entries that no iteration meets.
-/

namespace WebKit.IPC

open Transition ArgumentDecoder List WTF

open WTF (HashTable)

/-- `ArgumentCoder<T>`, where `Equal` is the equality of the values. What a decoder returned is
decoded again after it has been encoded. -/
structure Coder (α : Type) where
  encode : α → ArgumentEncoder → ArgumentEncoder
  decode : Decode α
  Equal : α → α → Prop
  appends : ∀ a, Appends (encode a) 1
  decodes : ∀ a decoder decoder', exec decode decoder = (.ok a, decoder') →
    Decodes (encode a) decode (Equal a)

namespace Coder

variable {α β : Type} (uninitialized : ℕ → UInt8)

def arithmetic (type : Arithmetic) : Coder type.Carrier where
  encode := type.encode uninitialized
  decode := type.decode
  Equal a b := b = a
  appends := type.appends_encode
  decodes a _ _ _ := type.decodes a

/-- `ArgumentCoder<WTF::KeyValuePair>`. -/
def keyValuePair (key : Coder α) (value : Coder β) : Coder (α × β) where
  encode pair encoder := value.encode pair.2 (key.encode pair.1 encoder)
  decode := do
    let k ← key.decode
    let v ← value.decode
    pure (k, v)
  Equal a b := key.Equal a.1 b.1 ∧ value.Equal a.2 b.2
  appends pair := ((key.appends pair.1).comp (value.appends pair.2)).mono (by omega)
  decodes pair decoder decoder' h := by
    obtain ⟨k, decoder₁, hkey, h⟩ := exec_bind_eq_ok h
    obtain ⟨v, decoder₂, hvalue, h⟩ := exec_bind_eq_ok h
    cases h
    apply Decodes.bind (value.appends v) (key.decodes k _ _ hkey)
    intro k' hk'
    apply (value.decodes v _ _ hvalue).bind_pure
    exact fun v' hv' => ⟨hk', hv'⟩

end Coder

section Tables

variable {Key α : Type} [DecidableEq Key] (traits : WTF.HashTraits Key α) (coder : Coder α)
  (uninitialized : ℕ → UInt8)

/-- The loop of `decode`, over the entries that are still to come. An `add` that does not end, or
that accesses memory outside of the table, is a crash. -/
def addEach : ℕ → HashTable α → Decode (HashTable α)
  | 0, table => pure table
  | size + 1, table => do
    let entry ← coder.decode
    match table.add traits entry with
    | .ok (table, result) =>
      if result.isNewEntry then addEach size table
      else
        -- The table already has the specified key, bail.
        markInvalid
        throw .failed
    | .error _ => throw .crashed

def decodeHashTable : Decode (HashTable α) := do
  let size ← decodeUInt64
  addEach traits coder size .create

def encodeHashTable (table : HashTable α) (encoder : ArgumentEncoder) : ArgumentEncoder :=
  encodeEach coder.encode (table.toList traits)
    (encodeUInt64 uninitialized table.size.toNat encoder)

/-- The size that is announced and the entries that follow it. -/
def decodeEntries : Decode (ℕ × List α) := do
  let size ← decodeUInt64
  let entries ← decodeEach coder.decode size
  pure (size, entries)

end Tables

abbrev KeyArg := Arithmetic.Carrier .uint64

/-- `IntHash<uint64_t>`. -/
def hashKey (key : KeyArg) : UInt32 := UInt32.ofBitVec (intHash key)

theorem minimumTableSize_eight : ∃ s < 32, (8 : UInt32).toNat = 2 ^ s := ⟨3, by decide, rfl⟩

/-- `HashMap<uint64_t, V>`, where the mapped type has some empty value. -/
def hashMapTraits (V : Type) [Inhabited V] : WTF.HashTraits KeyArg (KeyArg × V) where
  hash := hashKey
  extract := Prod.fst
  emptyValue := (0#64, default)
  deletedValue := (BitVec.allOnes 64, default)
  safeToCompareToEmptyOrDeleted := true
  minimumTableSize := 8
  deleted_ne_empty := by
    show BitVec.allOnes 64 ≠ 0#64
    decide
  minimumTableSize_eq := minimumTableSize_eight

/-- `HashSet<uint64_t>`. -/
def hashSetTraits : WTF.HashTraits KeyArg KeyArg where
  hash := hashKey
  extract := id
  emptyValue := 0#64
  deletedValue := BitVec.allOnes 64
  safeToCompareToEmptyOrDeleted := true
  minimumTableSize := 8
  deleted_ne_empty := by decide
  minimumTableSize_eq := minimumTableSize_eight

section Additions

variable {Key α : Type} [DecidableEq Key] {traits : WTF.HashTraits Key α}
  {table table' : HashTable α} {entry : α} {entries values : List α}

def AddsNew (traits : WTF.HashTraits Key α) (table : HashTable α) (entry : α)
    (table' : HashTable α) : Prop :=
  ∃ result, table.add traits entry = .ok (table', result) ∧ result.isNewEntry = true

theorem filled_of_run (hmin : 2 ≤ traits.minimumTableSize.toNat)
    (h : Run (AddsNew traits) table entries table') (hfilled : table.Filled traits values)
    (hvalid : ∀ entry ∈ entries, traits.ValidKey (traits.extract entry)) :
    table'.Filled traits (values ++ entries) := by
  induction h generalizing values with
  | nil => rwa [append_nil]
  | @cons _ _ _ entry entries hstep _ ih =>
    obtain ⟨result, hadd, hnew⟩ := hstep
    have hfilled' := hfilled.of_add hmin (hvalid entry mem_cons_self) hadd hnew
    have hrest := ih hfilled' fun e he => hvalid e (mem_cons_of_mem entry he)
    rwa [append_assoc, singleton_append] at hrest

theorem fullCount_of_run (h : Run (AddsNew traits) table entries table') :
    fullCount traits table'.buckets ≤
      fullCount traits table.buckets + (entries.map (bucketCount traits)).sum := by
  induction h with
  | nil => exact le_rfl
  | @cons _ _ _ entry entries hstep _ ih =>
    obtain ⟨result, hadd, -⟩ := hstep
    have hcount := (HashTable.add_fullCount traits _ entry).of_ok hadd
    rw [map_cons, sum_cons]
    dsimp only at hcount
    omega

theorem sum_bucketCount_le (entries : List α) :
    (entries.map (bucketCount traits)).sum ≤ entries.length := by
  induction entries with
  | nil => exact le_refl 0
  | cons entry entries ih =>
    have hle := @bucketCount_le_one _ _ _ traits entry
    rw [map_cons, sum_cons, length_cons]
    omega

theorem valid_of_length_le (h : entries.length ≤ (entries.map (bucketCount traits)).sum) :
    ∀ entry ∈ entries, traits.ValidKey (traits.extract entry) := by
  induction entries with
  | nil => simp
  | cons entry entries ih =>
    have hle := @bucketCount_le_one _ _ _ traits entry
    have hsum := @sum_bucketCount_le _ _ _ traits entries
    rw [map_cons, sum_cons, length_cons] at h
    intro e he
    rcases mem_cons.mp he with rfl | he
    · exact bucketCount_eq_one.mp (by omega)
    · exact ih (by omega) e he

end Additions

section Decoding

variable {Key α : Type} [DecidableEq Key] {traits : WTF.HashTraits Key α} {coder : Coder α}
  {uninitialized : ℕ → UInt8} {table t : HashTable α} {entries values : List α}
  {decoder decoder' : ArgumentDecoder} {size : ℕ}

theorem length_decodeEach (h : exec (decodeEach coder.decode size) decoder = (.ok entries, decoder')) :
    entries.length = size := by
  induction size generalizing decoder entries with
  | zero =>
    cases h
    rfl
  | succ size ih =>
    obtain ⟨entry, decoder₁, -, h⟩ := exec_bind_eq_ok h
    obtain ⟨rest, decoder₂, hrest, h⟩ := exec_bind_eq_ok h
    cases h
    rw [length_cons, ih hrest]

theorem decodes_of_mem (h : exec (decodeEach coder.decode size) decoder = (.ok entries, decoder')) :
    ∀ entry ∈ entries, Decodes (coder.encode entry) coder.decode (coder.Equal entry) := by
  induction size generalizing decoder entries with
  | zero =>
    cases h
    simp
  | succ size ih =>
    obtain ⟨entry, decoder₁, hentry, h⟩ := exec_bind_eq_ok h
    obtain ⟨rest, decoder₂, hrest, h⟩ := exec_bind_eq_ok h
    cases h
    intro e he
    rcases mem_cons.mp he with rfl | he
    · exact coder.decodes e _ _ hentry
    · exact ih hrest e he

theorem run_of_addEach (h : exec (addEach traits coder size table) decoder = (.ok t, decoder')) :
    ∃ entries, exec (decodeEach coder.decode size) decoder = (.ok entries, decoder') ∧
      Run (AddsNew traits) table entries t := by
  induction size generalizing decoder table with
  | zero =>
    cases h
    exact ⟨[], rfl, .nil _⟩
  | succ size ih =>
    obtain ⟨entry, decoder₁, hentry, h⟩ := exec_bind_eq_ok h
    cases hadd : table.add traits entry with
    | error e =>
      rw [hadd] at h
      cases h
    | ok r =>
      rw [hadd] at h
      dsimp only at h
      by_cases hnew : r.2.isNewEntry = true
      · rw [if_pos hnew] at h
        obtain ⟨entries, hents, hrun⟩ := ih h
        refine ⟨entry :: entries, ?_, .cons ⟨r.2, hadd, hnew⟩ hrun⟩
        rw [decodeEach, exec_bind_ok hentry, exec_bind_ok hents]
        rfl
      · rw [if_neg hnew] at h
        cases h

theorem decodes_addEach (hmin : 2 ≤ traits.minimumTableSize.toNat)
    (hkey : ∀ a b, coder.Equal a b → traits.extract b = traits.extract a)
    (h : ∀ entry ∈ entries, Decodes (coder.encode entry) coder.decode (coder.Equal entry))
    (hvalid : ∀ entry ∈ entries, traits.ValidKey (traits.extract entry))
    (hnodup : (entries.map traits.extract).Nodup) (hfilled : table.Filled traits values)
    (hnew : ∀ entry ∈ entries, traits.extract entry ∉ values.map traits.extract)
    (hlt : values.length + entries.length < 2 ^ 30) :
    Decodes (encodeEach coder.encode entries) (addEach traits coder entries.length table)
      (fun t => ∃ decoded, List.Forall₂ coder.Equal entries decoded ∧
        t.Filled traits (values ++ decoded)) := by
  induction entries generalizing table values with
  | nil =>
    refine Decodes.pure ⟨[], .nil, ?_⟩
    rwa [append_nil]
  | cons entry entries ih =>
    apply Decodes.bind (Appends.each coder.appends entries) (h entry mem_cons_self)
    intro entry' hequal
    have hextract := hkey entry entry' hequal
    rw [length_cons] at hlt
    have hvalid' := hvalid entry mem_cons_self
    have hnew' := hnew entry mem_cons_self
    rw [← hextract] at hvalid' hnew'
    obtain ⟨table', p, hadd, hfilled'⟩ := hfilled.add hmin hvalid' hnew' (by omega)
    rw [hadd]
    obtain ⟨hfirst, hrest⟩ := nodup_cons.mp hnodup
    refine (ih (fun e he => h e (mem_cons_of_mem entry he))
      (fun e he => hvalid e (mem_cons_of_mem entry he)) hrest hfilled' ?_ ?_).mono ?_
    · intro e he
      rw [map_append, mem_append, map_singleton, mem_singleton, hextract]
      rintro (hmem | heq)
      · exact hnew e (mem_cons_of_mem entry he) hmem
      · exact hfirst (heq ▸ mem_map_of_mem he)
    · rw [length_append, length_singleton]
      omega
    · rintro t ⟨decoded, hdec, ht⟩
      refine ⟨entry' :: decoded, .cons hequal hdec, ?_⟩
      rwa [append_assoc, singleton_append] at ht

/-- The tables have the same entries. -/
def SameEntries (traits : WTF.HashTraits Key α) (coder : Coder α) (table t : HashTable α) : Prop :=
  t.size = table.size ∧ ∃ entries,
    List.Forall₂ coder.Equal (table.toList traits) entries ∧ (t.toList traits).Perm entries

/-- The table is what was announced: it has so many entries, with different keys that are no
markers, every entry that was received is found, and the table is decoded again after it has been
encoded. -/
structure IsAnnounced (traits : WTF.HashTraits Key α) (coder : Coder α)
    (uninitialized : ℕ → UInt8) (size : ℕ) (received : List α) (table : HashTable α) : Prop where
  size_eq : table.size.toNat = size
  length_eq : (table.toList traits).length = size
  keys_nodup : ((table.toList traits).map traits.extract).Nodup
  valid : ∀ entry ∈ table.toList traits, traits.ValidKey (traits.extract entry)
  found : ∀ entry ∈ received, ∃ p,
    table.lookup traits (traits.extract entry) = .ok (some p) ∧ table.buckets[p]? = some entry
  decodes : Decodes (encodeHashTable traits coder uninitialized table)
    (decodeHashTable traits coder) (SameEntries traits coder table)

theorem isAnnounced_of_filled (hmin : 2 ≤ traits.minimumTableSize.toNat)
    (hkey : ∀ a b, coder.Equal a b → traits.extract b = traits.extract a)
    (h : ∀ entry ∈ entries, Decodes (coder.encode entry) coder.decode (coder.Equal entry))
    (hfilled : table.Filled traits entries) :
    IsAnnounced traits coder uninitialized entries.length entries table := by
  have hperm := hfilled.toList_perm
  have hlen := hperm.length_eq
  have hnodup := (hperm.map traits.extract).nodup_iff.mpr hfilled.keys_nodup
  have hvalid : ∀ entry ∈ table.toList traits, traits.ValidKey (traits.extract entry) :=
    fun entry he => hfilled.valid entry (hperm.mem_iff.mp he)
  refine ⟨hfilled.keyCount_eq, hlen, hnodup, hvalid, fun entry he => hfilled.lookup he, ?_⟩
  have hlt := hfilled.length_lt
  have hsize : table.size.toNat = (table.toList traits).length := by
    rw [hlen]
    exact hfilled.keyCount_eq
  apply Decodes.bind (Appends.each coder.appends _) (decodes_uint64 (by omega))
  rintro _ rfl
  rw [hsize]
  apply (decodes_addEach hmin hkey (fun e he => h e (hperm.mem_iff.mp he)) hvalid hnodup
    (HashTable.create_filled traits) (by simp) (by rw [hlen]; simpa using hlt)).mono
  rintro t ⟨decoded, hdec, ht⟩
  refine ⟨?_, decoded, hdec, ht.toList_perm⟩
  rw [← UInt32.toNat_inj, hsize, hdec.length_eq]
  exact ht.keyCount_eq

theorem isAnnounced_iff (hmin : 2 ≤ traits.minimumTableSize.toNat)
    (hkey : ∀ a b, coder.Equal a b → traits.extract b = traits.extract a)
    (hdec : exec (decodeHashTable traits coder) decoder = (.ok table, decoder')) :
    ∃ size received, exec (decodeEntries coder) decoder = (.ok (size, received), decoder') ∧
      (IsAnnounced traits coder uninitialized size received table ↔
        ∀ entry ∈ received, traits.ValidKey (traits.extract entry)) := by
  obtain ⟨size, decoder₁, hsize, hdec⟩ := exec_bind_eq_ok hdec
  obtain ⟨received, hrecv, hrun⟩ := run_of_addEach hdec
  refine ⟨size, received, ?_, fun h => ?_, fun hvalid => ?_⟩
  · rw [decodeEntries, exec_bind_ok hsize, exec_bind_ok hrecv]
    rfl
  · apply valid_of_length_le
    have hcount := fullCount_of_run hrun
    have hempty : fullCount traits (HashTable.create : HashTable α).buckets = 0 := rfl
    have hlist := @HashTable.length_toList_le _ _ _ traits table
    rw [h.length_eq] at hlist
    rw [length_decodeEach hrecv]
    omega
  · have hfilled := filled_of_run hmin hrun (HashTable.create_filled traits) hvalid
    rw [← length_decodeEach hrecv]
    exact isAnnounced_of_filled hmin hkey (decodes_of_mem hrecv) hfilled

end Decoding

section Keys

variable (uninitialized : ℕ → UInt8)

/-- The coder of the entries of `HashMap<uint64_t, V>`. -/
abbrev entryCoder {V : Type} (mapped : Coder V) : Coder (KeyArg × V) :=
  .keyValuePair (.arithmetic uninitialized .uint64) mapped

abbrev keyCoder : Coder KeyArg := .arithmetic uninitialized .uint64

/-- A map or a set that was decoded is what was announced if and only if neither zero nor all ones
was received as a key. -/
theorem decoded_tables_iff {V : Type} [Inhabited V] (mapped : Coder V)
    (decoder decoder' : ArgumentDecoder) :
    (∀ hashMap, exec (decodeHashTable (hashMapTraits V) (entryCoder uninitialized mapped)) decoder =
        (.ok hashMap, decoder') →
      ∃ size received, exec (decodeEntries (entryCoder uninitialized mapped)) decoder =
          (.ok (size, received), decoder') ∧
        (IsAnnounced (hashMapTraits V) (entryCoder uninitialized mapped) uninitialized size received
            hashMap ↔
          ∀ entry ∈ received, entry.1 ≠ 0#64 ∧ entry.1 ≠ BitVec.allOnes 64)) ∧
    ∀ hashSet, exec (decodeHashTable hashSetTraits (keyCoder uninitialized)) decoder =
        (.ok hashSet, decoder') →
      ∃ size received, exec (decodeEntries (keyCoder uninitialized)) decoder =
          (.ok (size, received), decoder') ∧
        (IsAnnounced hashSetTraits (keyCoder uninitialized) uninitialized size received hashSet ↔
          ∀ key ∈ received, key ≠ 0#64 ∧ key ≠ BitVec.allOnes 64) := by
  constructor
  · intro hashMap hdecode
    have hkey : ∀ a b, (entryCoder uninitialized mapped).Equal a b →
        (hashMapTraits V).extract b = (hashMapTraits V).extract a := fun a b h => h.1
    have hmin : 2 ≤ (hashMapTraits V).minimumTableSize.toNat := by
      show 2 ≤ UInt32.toNat 8
      decide
    exact isAnnounced_iff hmin hkey hdecode
  · intro hashSet hdecode
    have hkey : ∀ a b, (keyCoder uninitialized).Equal a b →
        hashSetTraits.extract b = hashSetTraits.extract a := fun a b h => h
    exact isAnnounced_iff (by decide) hkey hdecode

end Keys

/-- One entry is announced, the key 7 with the value 3. -/
theorem decoded_tables_iff_one : IsAnnounced (hashMapTraits (Arithmetic.Carrier .uint8))
      (entryCoder (fun _ => 0) (.arithmetic (fun _ => 0) .uint8)) (fun _ => 0) 1 [(7#64, 3#8)]
      ⟨some ((7#64, 3#8) :: List.replicate 7 (0#64, 0#8)), 8, 7, 1, 0⟩ := by
  obtain ⟨size, received, hreceived, hiff⟩ := (decoded_tables_iff (fun _ => 0)
    (.arithmetic (fun _ => 0) .uint8)
    (ofBuffer 4096 [1, 0, 0, 0, 0, 0, 0, 0, 7, 0, 0, 0, 0, 0, 0, 0, 3]) _).1
    ⟨some ((7#64, 3#8) :: List.replicate 7 (0#64, 0#8)), 8, 7, 1, 0⟩ rfl
  have hentries : exec (decodeEntries (entryCoder (fun _ => 0) (.arithmetic (fun _ => 0) .uint8)))
      (ofBuffer 4096 [1, 0, 0, 0, 0, 0, 0, 0, 7, 0, 0, 0, 0, 0, 0, 0, 3]) =
      (.ok (1, [(7#64, 3#8)]), _) := rfl
  cases hentries.symm.trans hreceived
  apply hiff.mpr
  intro entry hentry
  rw [mem_singleton.mp hentry]
  show 7#64 ≠ 0#64 ∧ 7#64 ≠ BitVec.allOnes 64
  decide

/-- The key zero is received twice, and both times it is a new entry. -/
theorem not_decoded_tables :
    ¬ ∀ (decoder decoder' : ArgumentDecoder) (hashSet : HashTable KeyArg) (size : ℕ)
        (received : List KeyArg),
      exec (decodeHashTable hashSetTraits (keyCoder fun _ => 0)) decoder = (.ok hashSet, decoder') →
      exec (decodeEntries (keyCoder fun _ => 0)) decoder = (.ok (size, received), decoder') →
      IsAnnounced hashSetTraits (keyCoder fun _ => 0) (fun _ => 0) size received hashSet := by
  intro h
  have hannounced := h (ofBuffer 4096 ([2, 0, 0, 0, 0, 0, 0, 0] ++ List.replicate 16 0)) _
    ⟨some (List.replicate 8 0#64), 8, 7, 2, 0⟩ 2 [0#64, 0#64] rfl rfl
  exact absurd hannounced.length_eq (by decide)

end WebKit.IPC
