import Mathlib.Data.Set.Card
import WebKit.Transition.Outcome
import WebKit.WTF.HashTable

/-!
# What the operations of `HashTable` do

`t.Holds traits memory`: the fields of the table describe its buckets, every entry can be
found, and no key has two. `Room` says that an empty bucket remains. The operations keep
both as long as the numbers of keys and deleted buckets do not get where the arithmetic on
`unsigned` wraps around (`CanGain`, `CanLose`).
-/

open List Function

namespace WebKit.WTF

open Transition Probing HashTraits HashTable Bool

variable {Key Value : Type} [DecidableEq Key] {traits : HashTraits Key Value}
  {memory : List Value} {value : Value} {key : Key} {i j n : ℕ}

/-! ## Counting buckets -/

/-- The buckets with an entry. -/
def fullCount (traits : HashTraits Key Value) (memory : List Value) : ℕ :=
  memory.countP fun value => !traits.isEmptyOrDeletedBucket value

/-- The deleted buckets. -/
def tombstoneCount (traits : HashTraits Key Value) (memory : List Value) : ℕ :=
  memory.countP traits.isDeletedBucket

namespace HashTraits

theorem not_isEmptyOrDeletedBucket_iff :
    (!traits.isEmptyOrDeletedBucket value) = true ↔ traits.slot value = .full value := by
  rw [not_eq_true', ← not_eq_true, isEmptyOrDeletedBucket_iff]
  constructor
  · intro h
    push Not at h
    obtain ⟨a, ha⟩ := h
    rw [ha, (slot_eq_full ha).1]
  · intro h hne
    exact hne value h

end HashTraits

theorem slotAt_eq_full {a : Value} (h : slotAt traits memory i = .full a) :
    ∃ hi : i < memory.length, memory[i] = a ∧ traits.slot a = .full a ∧
      traits.ValidKey (traits.extract a) := by
  have hi : i < memory.length := by
    refine lt_length_of_ne_deleted (?_ : slotAt traits memory i ≠ .deleted)
    rw [h]
    simp
  rw [slotAt_of_lt hi] at h
  obtain ⟨heq, -, hvalid⟩ := slot_eq_full h
  rw [heq] at h hvalid
  exact ⟨hi, heq, h, hvalid⟩

theorem fullCount_write (hi : i < memory.length) (hslot : ∀ a, slotAt traits memory i ≠ .full a)
    (hvalid : traits.ValidKey (traits.extract value)) :
    fullCount traits (memory.set i value) = fullCount traits memory + 1 := by
  have hold : (!traits.isEmptyOrDeletedBucket memory[i]) = false := by
    rw [← not_eq_true, not_isEmptyOrDeletedBucket_iff, ← slotAt_of_lt hi]
    exact hslot _
  have hnew : (!traits.isEmptyOrDeletedBucket value) = true :=
    not_isEmptyOrDeletedBucket_iff.mpr (slot_of_valid hvalid)
  rw [fullCount, countP_set hi, hold, hnew]
  rfl

theorem tombstoneCount_reuse (hi : i < memory.length) (hslot : slotAt traits memory i = .deleted)
    (hvalid : traits.ValidKey (traits.extract value)) :
    tombstoneCount traits (memory.set i value) + 1 = tombstoneCount traits memory := by
  have hold : traits.isDeletedBucket memory[i] = true := by
    rw [isDeletedBucket_iff, ← slotAt_of_lt hi, hslot]
  have hnew : traits.isDeletedBucket value = false := by
    rw [← not_eq_true, isDeletedBucket_iff, slot_of_valid hvalid]
    simp
  have hpos : 0 < tombstoneCount traits memory :=
    countP_pos_iff.mpr ⟨memory[i], getElem_mem hi, hold⟩
  have hset : tombstoneCount traits (memory.set i value) = tombstoneCount traits memory - 1 := by
    rw [tombstoneCount, countP_set hi, hold, hnew]
    rfl
  omega

theorem tombstoneCount_use (hi : i < memory.length) (hslot : slotAt traits memory i = .empty)
    (hvalid : traits.ValidKey (traits.extract value)) :
    tombstoneCount traits (memory.set i value) = tombstoneCount traits memory := by
  have hold : traits.isDeletedBucket memory[i] = false := by
    rw [← not_eq_true, isDeletedBucket_iff, ← slotAt_of_lt hi, hslot]
    simp
  have hnew : traits.isDeletedBucket value = false := by
    rw [← not_eq_true, isDeletedBucket_iff, slot_of_valid hvalid]
    simp
  rw [tombstoneCount, countP_set hi, hold, hnew]
  rfl

theorem fullCount_delete {a : Value} (hslot : slotAt traits memory i = .full a) :
    fullCount traits (memory.set i traits.deletedValue) + 1 = fullCount traits memory := by
  obtain ⟨hi, rfl, hfull, -⟩ := slotAt_eq_full hslot
  have hold : (!traits.isEmptyOrDeletedBucket memory[i]) = true :=
    not_isEmptyOrDeletedBucket_iff.mpr hfull
  have hnew : (!traits.isEmptyOrDeletedBucket traits.deletedValue) = false := by
    rw [← not_eq_true, not_isEmptyOrDeletedBucket_iff, slot_deletedValue]
    simp
  have hpos : 0 < fullCount traits memory := countP_pos_iff.mpr ⟨memory[i], getElem_mem hi, hold⟩
  have hset : fullCount traits (memory.set i traits.deletedValue) = fullCount traits memory - 1 := by
    rw [fullCount, countP_set hi, hold, hnew]
    rfl
  omega

theorem tombstoneCount_delete {a : Value} (hslot : slotAt traits memory i = .full a) :
    tombstoneCount traits (memory.set i traits.deletedValue) = tombstoneCount traits memory + 1 := by
  obtain ⟨hi, rfl, hfull, -⟩ := slotAt_eq_full hslot
  have hold : traits.isDeletedBucket memory[i] = false := by
    rw [← not_eq_true, isDeletedBucket_iff, hfull]
    simp
  have hnew : traits.isDeletedBucket traits.deletedValue = true :=
    isDeletedBucket_iff.mpr (slot_deletedValue traits)
  rw [tombstoneCount, countP_set hi, hold, hnew]
  rfl

theorem exists_empty (h : fullCount traits memory + tombstoneCount traits memory < memory.length) :
    ∃ i, slotAt traits memory i = .empty := by
  by_contra hne
  push Not at hne
  have hle : (memory.countP fun value => decide ¬ (!traits.isEmptyOrDeletedBucket value) = true) ≤
      tombstoneCount traits memory := by
    refine countP_mono_left fun value hmem hvalue => ?_
    obtain ⟨i, hi, rfl⟩ := getElem_of_mem hmem
    have hslot := hne i
    rw [slotAt_of_lt hi] at hslot
    by_contra hdel
    rw [isDeletedBucket_iff] at hdel
    have hfull : traits.slot memory[i] = .full memory[i] := by
      cases hs : traits.slot memory[i] with
      | empty => exact absurd hs hslot
      | deleted => exact absurd hs hdel
      | full a => rw [(slot_eq_full hs).1]
    rw [decide_eq_true_eq, not_isEmptyOrDeletedBucket_iff] at hvalue
    exact hvalue hfull
  have hlen : memory.length = _ := length_eq_countP_add_countP
    fun value => !traits.isEmptyOrDeletedBucket value
  unfold fullCount at h
  omega

theorem ncard_present (hu : Unique traits.extract (slotAt traits memory)) :
    {x | ∃ a, Present traits.extract (slotAt traits memory) x a}.ncard =
      fullCount traits memory := by
  classical
  let full := memory.filter fun value => !traits.isEmptyOrDeletedBucket value
  have hnodup : (full.map traits.extract).Nodup := by
    rw [List.Nodup, pairwise_map, pairwise_filter, pairwise_iff_getElem]
    intro i j hi hj hlt hfi hfj heq
    rw [not_isEmptyOrDeletedBucket_iff, ← slotAt_of_lt] at hfi hfj
    exact absurd (hu i j _ _ hfi hfj heq) hlt.ne
  have hset : {x | ∃ a, Present traits.extract (slotAt traits memory) x a} =
      ((full.map traits.extract).toFinset : Set Key) := by
    ext x
    simp only [Set.mem_ofPred_eq, coe_toFinset, mem_map, full, mem_filter,
      not_isEmptyOrDeletedBucket_iff]
    constructor
    · rintro ⟨a, rfl, i, hi⟩
      obtain ⟨hlt, rfl, hfull, -⟩ := slotAt_eq_full hi
      exact ⟨_, ⟨getElem_mem hlt, hfull⟩, rfl⟩
    · rintro ⟨a, ⟨hmem, hfull⟩, rfl⟩
      obtain ⟨i, hi, rfl⟩ := getElem_of_mem hmem
      exact ⟨_, rfl, i, (slotAt_of_lt hi).trans hfull⟩
  rw [hset, Set.ncard_coe_finset, toFinset_card_of_nodup hnodup, length_map, fullCount,
    countP_eq_length_filter]

namespace HashTable

variable {t : HashTable Value}

/-- The buckets are where the probes look for them. -/
structure Layout (t : HashTable Value) (traits : HashTraits Key Value) (memory : List Value) :
    Prop where
  table_eq : t.table = some memory
  tableSize_eq : t.tableSize.toNat = memory.length
  masked : Masked memory t.tableSizeMask
  findable : Findable traits.extract (probeAt traits memory.length) (slotAt traits memory)
  unique : Unique traits.extract (slotAt traits memory)

/-- The counters count the buckets as well. -/
structure Holds (t : HashTable Value) (traits : HashTraits Key Value) (memory : List Value) : Prop
    extends t.Layout traits memory where
  keyCount_eq : t.keyCount.toNat = fullCount traits memory
  deletedCount_eq : t.deletedCount.toNat = tombstoneCount traits memory

/-- There are no buckets yet. The deleted count can be any number. -/
structure Null (t : HashTable Value) : Prop where
  table_eq : t.table = none
  tableSize_eq : t.tableSize = 0
  keyCount_eq : t.keyCount = 0

/-- An empty bucket remains. The largest table is at most half full. -/
structure Room (t : HashTable Value) : Prop where
  lt : t.keyCount.toNat + t.deletedCount.toNat < t.tableSize.toNat
  largest : t.tableSize.toNat = 2 ^ 31 → t.keyCount.toNat + t.deletedCount.toNat ≤ 2 ^ 30

theorem Layout.buckets_eq (h : t.Layout traits memory) : t.buckets = memory := by
  rw [buckets, h.table_eq]
  rfl

theorem Null.buckets_eq (h : t.Null) : t.buckets = [] := by
  rw [buckets, h.table_eq]
  rfl

theorem Layout.size_pow (h : t.Layout traits memory) : ∃ s < 32, t.tableSize.toNat = 2 ^ s := by
  rw [h.tableSize_eq]
  exact h.masked.length_eq

theorem Holds.exists_empty (h : t.Holds traits memory) (hroom : t.Room) :
    ∃ i, slotAt traits memory i = .empty := by
  refine WTF.exists_empty ?_
  rw [← h.keyCount_eq, ← h.deletedCount_eq, ← h.tableSize_eq]
  exact hroom.lt

end HashTable

/-! ## Places for new entries -/

/-- The loop for the key gets to the bucket. -/
def Reaches (traits : HashTraits Key Value) (memory : List Value) (key : Key) (i : ℕ) : Prop :=
  ∃ n, probeAt traits memory.length key n = i ∧
    ∀ m < n, slotAt traits memory (probeAt traits memory.length key m) ≠ .empty

/-- A bucket for a new entry. -/
structure Place (traits : HashTraits Key Value) (memory : List Value) (value : Value) (i : ℕ) :
    Prop where
  valid : traits.ValidKey (traits.extract value)
  absent : ∀ a, ¬ Present traits.extract (slotAt traits memory) (traits.extract value) a
  reaches : Reaches traits memory (traits.extract value) i
  notFull : ∀ a, slotAt traits memory i ≠ .full a

namespace Place

variable {mask : UInt32}

theorem lt (h : Place traits memory value i) (hm : Masked memory mask) : i < memory.length := by
  obtain ⟨n, rfl, -⟩ := h.reaches
  exact hm.probeAt_lt traits _ n

section

variable (h : Place traits memory value i) (hi : i < memory.length)
include h hi

theorem slotAt_eq : slotAt traits (memory.set i value) =
      update (slotAt traits memory) i (.full value) := by
  rw [slotAt_set hi, slot_of_valid h.valid]

theorem findable
    (hf : Findable traits.extract (probeAt traits memory.length) (slotAt traits memory)) :
    Findable traits.extract (probeAt traits (memory.set i value).length)
      (slotAt traits (memory.set i value)) := by
  rw [h.slotAt_eq hi, length_set]
  obtain ⟨n, rfl, hpath⟩ := h.reaches
  exact hf.write hpath

theorem unique (hu : Unique traits.extract (slotAt traits memory)) :
    Unique traits.extract (slotAt traits (memory.set i value)) := by
  rw [h.slotAt_eq hi]
  exact hu.write h.absent i

theorem slotAt_eq_full_iff {a : Value} : slotAt traits (memory.set i value) j = .full a ↔
      slotAt traits memory j = .full a ∨ j = i ∧ a = value := by
  rw [h.slotAt_eq hi]
  by_cases hj : j = i
  · subst hj
    simp [h.notFull, eq_comm]
  · simp [hj]

end

end Place

namespace HashTable

variable {t t' : HashTable Value}

theorem Layout.set (h : t.Layout traits memory) (hp : Place traits memory value i)
    (htable : t'.table = some (memory.set i value)) (hsize : t'.tableSize = t.tableSize)
    (hmask : t'.tableSizeMask = t.tableSizeMask) : t'.Layout traits (memory.set i value) := by
  have hi := hp.lt h.masked
  refine ⟨htable, ?_, ⟨?_, ?_⟩, hp.findable hi h.findable, hp.unique hi h.unique⟩
  · rw [hsize, h.tableSize_eq, length_set]
  · rw [length_set]
    exact h.masked.length_eq
  · rw [hmask, length_set]
    exact h.masked.mask_eq

/-- What the loop for a key in a table with an empty bucket returns: the bucket of the key,
or the places a new entry of the key can have. -/
theorem Layout.probe_writing (h : t.Layout traits memory)
    (hempty : slotAt traits memory i = .empty) (hvalid : traits.ValidKey key) :
    ∃ r, t.probe traits (traits.inspectForWriting key) key = .ok r ∧
      (r.found = true → ∃ a, slotAt traits memory r.entry = .full a ∧ traits.extract a = key) ∧
      (r.found = false → (∀ a, ¬ Present traits.extract (slotAt traits memory) key a) ∧
        (Reaches traits memory key r.entry ∧ slotAt traits memory r.entry = .empty) ∧
        (∀ j, r.deletedEntry = some j →
          Reaches traits memory key j ∧ slotAt traits memory j = .deleted) ∧
        (r.deletedEntry = none → ∀ j, Reaches traits memory key j →
          slotAt traits memory j ≠ .deleted)) := by
  have hb := h.buckets_eq
  obtain ⟨hi, hdel⟩ := inspectForWriting_inspects hvalid
  obtain ⟨r, n, hr, hprobed, hnone⟩ := probe_spec (t := t) (by rw [hb]; exact h.masked) hi
    (i := i) (by rw [hb, hempty])
  rw [hb] at hprobed hnone
  have hpath : ∀ m < n, slotAt traits memory (probeAt traits memory.length key m) ≠ .empty :=
    fun m hm => (hprobed.passed m hm).1
  refine ⟨r, hr, hprobed.found, fun hfound => ⟨?_, ?_, ?_, ?_⟩⟩
  · have hlast := hprobed.empty hfound
    rw [hprobed.entry_eq] at hlast
    exact absent_of_passed h.findable hprobed.passed hlast
  · exact ⟨⟨n, hprobed.entry_eq.symm, hpath⟩, hprobed.empty hfound⟩
  · intro j hj
    obtain ⟨hslot, m, hm, heq⟩ := hprobed.remembers j hj
    exact ⟨⟨m, heq, fun m' hm' => hpath m' (hm'.trans hm)⟩, hslot⟩
  · rintro hn j ⟨m, rfl, hm⟩ hslot
    have hlast := hprobed.empty hfound
    rw [hprobed.entry_eq] at hlast
    rcases Nat.lt_trichotomy m n with hlt | rfl | hlt
    · exact hnone hdel hn m hlt hslot
    · rw [hslot] at hlast
      cases hlast
    · exact hm n hlt hlast

theorem Layout.reinsert (h : t.Layout traits memory) (hempty : slotAt traits memory i = .empty)
    (hvalid : traits.ValidKey (traits.extract value))
    (habsent : ∀ a, ¬ Present traits.extract (slotAt traits memory) (traits.extract value) a) :
    ∃ j, t.reinsert traits value = .ok ({ t with table := some (memory.set j value) }, j) ∧
      Place traits memory value j := by
  obtain ⟨r, hr, hfound, hnot⟩ := h.probe_writing hempty hvalid
  have hrf : r.found = false := by
    by_contra hne
    obtain ⟨a, ha, hkey⟩ := hfound (by simpa using hne)
    exact habsent a ⟨hkey, _, ha⟩
  obtain ⟨-, ⟨hreach, hslot⟩, hdel, -⟩ := hnot hrf
  have hplace : Place traits memory value (r.deletedEntry.getD r.entry) := by
    cases hd : r.deletedEntry with
    | none => exact ⟨hvalid, habsent, hreach, by simp [hslot]⟩
    | some j => exact ⟨hvalid, habsent, (hdel j hd).1, by simp [(hdel j hd).2]⟩
  refine ⟨_, ?_, hplace⟩
  rw [HashTable.reinsert, lookupForWriting, hr]
  dsimp only [bind, Except.bind, pure, Except.pure]
  rw [if_neg (by simp [hrf])]
  rw [write, h.buckets_eq, store_eq (hplace.lt h.masked)]
  rfl

end HashTable

/-!
## Rehashing

`rehash` moves the entries of a table one by one to a table of another size. The loop keeps
that the new table has the entries of the old buckets it has read, and no tombstones; the
entry it is asked to follow ends up where its new position says.
-/

open Transition Probing

variable {Key Value : Type} [DecidableEq Key] {traits : HashTraits Key Value}
  {memory old : List Value} {value : Value} {i j n : ℕ}

theorem slotAt_allocateTable {size : UInt32} : slotAt traits (allocateTable traits size) i =
      if i < size.toNat then .empty else .deleted := by
  rw [slotAt, allocateTable, getElem?_replicate]
  by_cases hi : i < size.toNat
  · rw [if_pos hi, if_pos hi]
    exact slot_emptyValue traits
  · rw [if_neg hi, if_neg hi]

theorem slotAt_allocateTable_ne_full {size : UInt32} (i : ℕ) (a : Value) :
    slotAt traits (allocateTable traits size) i ≠ .full a := by
  rw [slotAt_allocateTable]
  split <;> simp

theorem fullCount_allocateTable (size : UInt32) :
    fullCount traits (allocateTable traits size) = 0 := by
  rw [fullCount, allocateTable, countP_eq_zero]
  intro value hvalue
  rw [not_isEmptyOrDeletedBucket_iff, (mem_replicate.mp hvalue).2, slot_emptyValue]
  simp

theorem tombstoneCount_allocateTable (size : UInt32) :
    tombstoneCount traits (allocateTable traits size) = 0 := by
  rw [tombstoneCount, allocateTable, countP_eq_zero]
  intro value hvalue
  rw [isDeletedBucket_iff, (mem_replicate.mp hvalue).2, slot_emptyValue]
  simp

namespace HashTable

variable {t : HashTable Value} {newTableSize : UInt32} {entry : Option ℕ}

/-- The table that `rehash` begins with. -/
def emptied (t : HashTable Value) (traits : HashTraits Key Value) (newTableSize : UInt32) :
    HashTable Value :=
  { t with
    tableSize := newTableSize
    tableSizeMask := newTableSize - 1
    table := some (allocateTable traits newTableSize) }

theorem emptied_layout (h : ∃ s < 32, newTableSize.toNat = 2 ^ s) :
    (t.emptied traits newTableSize).Layout traits (allocateTable traits newTableSize) := by
  have hlen : (allocateTable traits newTableSize).length = newTableSize.toNat := by
    rw [allocateTable, length_replicate]
  refine ⟨rfl, hlen.symm, ⟨by rwa [hlen], ?_⟩, ?_, ?_⟩
  · have hone : (1 : UInt32) ≤ newTableSize := by
      obtain ⟨s, -, hs⟩ := h
      rw [UInt32.le_iff_toNat_le, hs]
      exact Nat.one_le_two_pow
    rw [hlen, emptied, UInt32.toNat_sub_of_le _ _ hone]
    exact Nat.sub_add_cancel hone
  · intro i a ha
    exact absurd ha (slotAt_allocateTable_ne_full i a)
  · intro i j a b ha
    exact absurd ha (slotAt_allocateTable_ne_full i a)

/-- What the loop of `rehash` has done after the first `i` buckets. -/
structure Rehashed (t : HashTable Value) (traits : HashTraits Key Value) (newTableSize : UInt32)
    (old : List Value) (entry : Option ℕ) (i : ℕ) (r : HashTable Value × Option ℕ)
    (memory : List Value) : Prop where
  table_eq : r.1 = { t.emptied traits newTableSize with table := some memory }
  layout : r.1.Layout traits memory
  fullCount_eq : fullCount traits memory = fullCount traits (old.take i)
  tombstoneCount_eq : tombstoneCount traits memory = 0
  entries : ∀ a, (∃ j, slotAt traits memory j = .full a) ↔ ∃ j < i, slotAt traits old j = .full a
  follows : ∀ e a, entry = some e → e < i → slotAt traits old e = .full a →
    ∃ j, r.2 = some j ∧ slotAt traits memory j = .full a

theorem Rehashed.zero (h : ∃ s < 32, newTableSize.toNat = 2 ^ s) :
    t.Rehashed traits newTableSize old entry 0 (t.emptied traits newTableSize, none)
      (allocateTable traits newTableSize) where
  table_eq := rfl
  layout := emptied_layout h
  fullCount_eq := fullCount_allocateTable _
  tombstoneCount_eq := tombstoneCount_allocateTable _
  entries a := by simp [slotAt_allocateTable_ne_full]
  follows e a _ he := absurd he (Nat.not_lt_zero e)

theorem fullCount_take_succ (traits : HashTraits Key Value) (hi : i < old.length) :
    fullCount traits (old.take (i + 1)) =
      fullCount traits (old.take i) + if traits.isEmptyOrDeletedBucket old[i] then 0 else 1 := by
  rw [fullCount, take_succ_eq_append_getElem hi, countP_append, countP_singleton]
  cases traits.isEmptyOrDeletedBucket old[i] <;> rfl

theorem fullCount_take_le (traits : HashTraits Key Value) (old : List Value) (i : ℕ) :
    fullCount traits (old.take i) ≤ fullCount traits old :=
  (take_sublist i old).countP_le

theorem Rehashed.succ {r : HashTable Value × Option ℕ}
    (h : t.Rehashed traits newTableSize old entry i r memory)
    (hu : Unique traits.extract (slotAt traits old)) (hi : i < old.length)
    (hroom : fullCount traits old ≤ newTableSize.toNat) :
    ∃ r', rehashBucket traits old entry r i = .ok r' ∧
      ∃ memory', t.Rehashed traits newTableSize old entry (i + 1) r' memory' := by
  have hcount := fullCount_take_succ traits hi
  rw [rehashBucket, load_eq hi]
  dsimp only [bind, Except.bind]
  cases hb : traits.isEmptyOrDeletedBucket old[i] with
  | true =>
    have hslot : ∀ a, slotAt traits old i ≠ .full a := by
      rw [slotAt_of_lt hi]
      exact isEmptyOrDeletedBucket_iff.mp hb
    refine ⟨r, rfl, memory, h.table_eq, h.layout, ?_, h.tombstoneCount_eq, fun a => ?_, ?_⟩
    · rw [hcount, hb]
      exact h.fullCount_eq
    · rw [h.entries a]
      constructor
      · rintro ⟨j, hj, ha⟩
        exact ⟨j, Nat.lt_succ_of_lt hj, ha⟩
      · rintro ⟨j, hj, ha⟩
        refine ⟨j, lt_of_le_of_ne (Nat.le_of_lt_succ hj) ?_, ha⟩
        rintro rfl
        exact hslot a ha
    · intro e a he hlt ha
      refine h.follows e a he (lt_of_le_of_ne (Nat.le_of_lt_succ hlt) ?_) ha
      rintro rfl
      exact hslot a ha
  | false =>
    have hfull : traits.slot old[i] = .full old[i] := by
      rw [← not_isEmptyOrDeletedBucket_iff, hb]
      rfl
    have hslot : slotAt traits old i = .full old[i] := (slotAt_of_lt hi).trans hfull
    have hvalid := (slot_eq_full hfull).2.2
    -- no bucket read before had the key
    have habsent : ∀ a, ¬ Present traits.extract (slotAt traits memory)
        (traits.extract old[i]) a := by
      rintro a ⟨hkey, hex⟩
      obtain ⟨j, hj, ha⟩ := (h.entries a).mp hex
      exact hj.ne (hu j i a _ ha hslot hkey)
    have hempty : ∃ j, slotAt traits memory j = .empty := by
      refine exists_empty ?_
      have hsize : r.1.tableSize = newTableSize := by rw [h.table_eq]; rfl
      have hle := fullCount_take_le traits old (i + 1)
      rw [hcount, hb] at hle
      rw [h.tombstoneCount_eq, h.fullCount_eq, ← h.layout.tableSize_eq, hsize]
      exact lt_of_lt_of_le hle hroom
    obtain ⟨k, hk⟩ := hempty
    obtain ⟨j, hj, hplace⟩ := h.layout.reinsert hk hvalid habsent
    have hlt := hplace.lt h.layout.masked
    -- the place was empty, as there are no tombstones
    have hplaceEmpty : slotAt traits memory j = .empty := by
      cases hs : slotAt traits memory j with
      | empty => rfl
      | full a => exact absurd hs (hplace.notFull a)
      | deleted =>
        rw [slotAt_of_lt hlt] at hs
        have hpos : 0 < tombstoneCount traits memory := countP_pos_iff.mpr ⟨_, getElem_mem hlt,
            isDeletedBucket_iff.mpr hs⟩
        rw [h.tombstoneCount_eq] at hpos
        exact absurd hpos (lt_irrefl 0)
    rw [if_neg (by simp), hj]
    refine ⟨_, rfl, memory.set j old[i], ?_, ?_, ?_, ?_, fun a => ?_, ?_⟩
    · rw [h.table_eq]
    · exact h.layout.set hplace rfl rfl rfl
    · rw [fullCount_write hlt hplace.notFull hvalid, hcount, hb, h.fullCount_eq]
      rfl
    · rw [tombstoneCount_use hlt hplaceEmpty hvalid, h.tombstoneCount_eq]
    · simp only [hplace.slotAt_eq_full_iff hlt, Nat.lt_succ_iff_lt_or_eq]
      constructor
      · rintro ⟨j', ha | ⟨rfl, rfl⟩⟩
        · obtain ⟨m, hm, ha⟩ := (h.entries a).mp ⟨j', ha⟩
          exact ⟨m, .inl hm, ha⟩
        · exact ⟨i, .inr rfl, hslot⟩
      · rintro ⟨m, hm | rfl, ha⟩
        · obtain ⟨j', ha⟩ := (h.entries a).mpr ⟨m, hm, ha⟩
          exact ⟨j', .inl ha⟩
        · rw [hslot] at ha
          cases ha
          exact ⟨j, .inr ⟨rfl, rfl⟩⟩
    · intro e a he hle ha
      rcases Nat.lt_succ_iff_lt_or_eq.mp hle with hlt' | rfl
      · rw [he, if_neg (by simp [hlt'.ne])]
        obtain ⟨j', hj', ha'⟩ := h.follows e a he hlt' ha
        exact ⟨j', hj', (hplace.slotAt_eq_full_iff hlt).mpr (.inl ha')⟩
      · rw [hslot] at ha
        cases ha
        rw [if_pos he]
        exact ⟨j, rfl, (hplace.slotAt_eq_full_iff hlt).mpr (.inr ⟨rfl, rfl⟩)⟩

theorem rehash_spec (traits : HashTraits Key Value) (t : HashTable Value) (newTableSize : UInt32)
    (entry : Option ℕ) (hu : Unique traits.extract (slotAt traits t.buckets))
    (hsize : t.tableSize.toNat = t.buckets.length)
    (hcount : t.keyCount.toNat = fullCount traits t.buckets)
    (hpow : ∃ s < 32, newTableSize.toNat = 2 ^ s) (hroom : t.keyCount.toNat ≤ newTableSize.toNat) :
    ∃ t' entry' memory, t.rehash traits newTableSize entry = .ok (t', entry') ∧
      t'.Holds traits memory ∧ t'.tableSize = newTableSize ∧ t'.keyCount = t.keyCount ∧
      t'.deletedCount = 0 ∧
      (∀ a, (∃ j, slotAt traits memory j = .full a) ↔ ∃ j, slotAt traits t.buckets j = .full a) ∧
      ∀ e a, entry = some e → slotAt traits t.buckets e = .full a →
        ∃ j, entry' = some j ∧ slotAt traits memory j = .full a := by
  obtain ⟨r, hr, memory, h⟩ := foldlM_range
    (I := fun i r => ∃ memory, t.Rehashed traits newTableSize t.buckets entry i r memory)
    (f := rehashBucket traits t.buckets entry) (n := t.tableSize.toNat)
    ⟨_, Rehashed.zero hpow⟩ (by
      rintro i hi r ⟨memory, h⟩
      exact h.succ hu (hsize ▸ hi) (hcount ▸ hroom))
  have hlen : t.buckets.take t.tableSize.toNat = t.buckets := by rw [hsize, take_length]
  refine ⟨{ r.1 with deletedCount := 0 }, r.2, memory, ?_, ⟨⟨?_, ?_, ?_, ?_, ?_⟩, ?_, ?_⟩, ?_, ?_, rfl,
    fun a => ?_, fun e a he ha => ?_⟩
  · exact congrArg (· >>= _) hr
  · exact h.layout.table_eq
  · exact h.layout.tableSize_eq
  · exact h.layout.masked
  · exact h.layout.findable
  · exact h.layout.unique
  · have hk := congrArg keyCount h.table_eq
    have hk' : r.1.keyCount = t.keyCount := hk
    rw [hk', hcount, h.fullCount_eq, hlen]
  · exact h.tombstoneCount_eq.symm
  · have hs := congrArg tableSize h.table_eq
    exact hs
  · have hk := congrArg keyCount h.table_eq
    exact hk
  · rw [h.entries a]
    constructor
    · rintro ⟨j, -, ha⟩
      exact ⟨j, ha⟩
    · rintro ⟨j, ha⟩
      obtain ⟨hj, -⟩ := slotAt_eq_full ha
      exact ⟨j, hsize ▸ hj, ha⟩
  · obtain ⟨hj, -⟩ := slotAt_eq_full ha
    exact h.follows e a he (hsize ▸ hj) ha

end HashTable

end WebKit.WTF
