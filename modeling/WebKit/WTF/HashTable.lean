import WebKit.Probing.OpenAddressing
import WebKit.WTF.Memory

/-!
# The hash table

`HashTable` is open addressing with double hashing over a table whose size is a power of
two. A bucket is a value: the empty value, the deleted value, or an entry. The counters are
`unsigned`, so they wrap around at `2 ^ 32`, and so does the arithmetic that decides when
the table is rehashed.

The probe loops have no bound in the source. Here they get one iteration more than the
table has buckets: the places repeat after that, so a loop that has not ended by then never
does (`Failure.diverges`).
-/

open Function

namespace WebKit.WTF

/-- The traits a hash table is made with. The empty and the deleted value have keys that no
entry has; the smallest table has a power of two of buckets. -/
structure HashTraits (Key Value : Type) where
  hash : Key → UInt32
  extract : Value → Key
  emptyValue : Value
  deletedValue : Value
  safeToCompareToEmptyOrDeleted : Bool
  minimumTableSize : UInt32
  deleted_ne_empty : extract deletedValue ≠ extract emptyValue
  minimumTableSize_eq : ∃ s < 32, minimumTableSize.toNat = 2 ^ s

variable {Key Value : Type} [DecidableEq Key]

namespace HashTraits

variable (traits : HashTraits Key Value)

def isEmptyBucket (value : Value) : Bool := traits.extract value = traits.extract traits.emptyValue

def isDeletedBucket (value : Value) : Bool :=
  traits.extract value = traits.extract traits.deletedValue

def isEmptyOrDeletedBucket (value : Value) : Bool :=
  traits.isEmptyBucket value || traits.isDeletedBucket value

end HashTraits

/-- The fields of a hash table; `table` is `none` while `m_table` is null. -/
structure HashTable (Value : Type) where
  table : Option (List Value)
  tableSize : UInt32
  tableSizeMask : UInt32
  keyCount : UInt32
  deletedCount : UInt32
  deriving DecidableEq

/-- The position an added value has, and whether it is a new entry. -/
structure AddResult where
  position : Option ℕ
  isNewEntry : Bool
  deriving DecidableEq, Repr

def doubleHash (key : UInt32) : UInt32 :=
  let key := ~~~key + (key >>> 23)
  let key := key ^^^ (key <<< 12)
  let key := key ^^^ (key >>> 7)
  let key := key ^^^ (key <<< 2)
  key ^^^ (key >>> 20)

/-! ## Probing -/

/-- What a probe loop makes of a bucket. -/
inductive Inspection
  | empty
  | found
  | deleted
  | other
  deriving DecidableEq, Repr

namespace HashTraits

variable (traits : HashTraits Key Value)

/-- The tests of `lookup`. -/
def inspectForReading (key : Key) (entry : Value) : Inspection :=
  if traits.safeToCompareToEmptyOrDeleted then
    if traits.extract entry = key then .found
    else if traits.isEmptyBucket entry then .empty
    else .other
  else
    if traits.isEmptyBucket entry then .empty
    else if !traits.isDeletedBucket entry && traits.extract entry = key then .found
    else .other

/-- The tests of `add`, `lookupForWriting` and `fullLookupForWriting`. -/
def inspectForWriting (key : Key) (entry : Value) : Inspection :=
  if traits.safeToCompareToEmptyOrDeleted then
    if traits.isEmptyBucket entry then .empty
    else if traits.extract entry = key then .found
    else if traits.isDeletedBucket entry then .deleted
    else .other
  else
    if traits.isEmptyBucket entry then .empty
    else if traits.isDeletedBucket entry then .deleted
    else if traits.extract entry = key then .found
    else .other

end HashTraits

/-- Where a probe loop ended, and the last deleted bucket it passed. -/
structure ProbeResult where
  entry : ℕ
  found : Bool
  deletedEntry : Option ℕ
  deriving DecidableEq, Repr

/-- `k == 0` until the first step. -/
def nextStep (h k : UInt32) : UInt32 := if k = 0 then 1 ||| doubleHash h else k

/-- The probe loop from the place `i` on. -/
def probeFrom (inspect : Value → Inspection) (memory : List Value) (sizeMask h : UInt32) :
    ℕ → UInt32 → UInt32 → Option ℕ → Except Failure ProbeResult
  | 0, _, _, _ => throw .diverges
  | fuel + 1, i, k, deletedEntry => do
    let entry ← load memory i.toNat
    match inspect entry with
    | .empty => pure ⟨i.toNat, false, deletedEntry⟩
    | .found => pure ⟨i.toNat, true, deletedEntry⟩
    | .deleted =>
      let k := nextStep h k
      probeFrom inspect memory sizeMask h fuel ((i + k) &&& sizeMask) k (some i.toNat)
    | .other =>
      let k := nextStep h k
      probeFrom inspect memory sizeMask h fuel ((i + k) &&& sizeMask) k deletedEntry

namespace HashTable

variable (traits : HashTraits Key Value)

/-- The fields as the constructor leaves them. -/
def create : HashTable Value where
  table := none
  tableSize := 0
  tableSizeMask := 0
  keyCount := 0
  deletedCount := 0

/-- The buckets; there are none while `m_table` is null. -/
def buckets (t : HashTable Value) : List Value := t.table.getD []

def size (t : HashTable Value) : UInt32 := t.keyCount

def isEmpty (t : HashTable Value) : Bool := t.keyCount = 0

def maxLoad : UInt32 := 2

def minLoad : UInt32 := 6

def shouldExpand (t : HashTable Value) : Bool :=
  t.tableSize ≤ (t.keyCount + t.deletedCount) * maxLoad

def mustRehashInPlace (t : HashTable Value) : Bool := t.keyCount * minLoad < t.tableSize * 2

def shouldShrink (t : HashTable Value) : Bool :=
  t.keyCount * minLoad < t.tableSize && traits.minimumTableSize < t.tableSize

/-- A probe loop for the key over the buckets of the table. -/
def probe (t : HashTable Value) (inspect : Value → Inspection) (key : Key) :
    Except Failure ProbeResult :=
  let h := traits.hash key
  probeFrom inspect t.buckets t.tableSizeMask h (t.buckets.length + 1) (h &&& t.tableSizeMask) 0
    none

/-- The position of the entry, if there is one. -/
def lookup (t : HashTable Value) (key : Key) : Except Failure (Option ℕ) :=
  match t.table with
  | none => pure none
  | some _ => do
    let r ← t.probe traits (traits.inspectForReading key) key
    pure (if r.found then some r.entry else none)

def lookupForWriting (t : HashTable Value) (key : Key) : Except Failure (ℕ × Bool) := do
  let r ← t.probe traits (traits.inspectForWriting key) key
  pure (if r.found then (r.entry, true) else (r.deletedEntry.getD r.entry, false))

def fullLookupForWriting (t : HashTable Value) (key : Key) :
    Except Failure ((ℕ × Bool) × UInt32) := do
  let r ← t.probe traits (traits.inspectForWriting key) key
  pure (if r.found then (r.entry, true) else (r.deletedEntry.getD r.entry, false),
    traits.hash key)

/-- A value is written to a bucket. -/
def write (t : HashTable Value) (i : ℕ) (value : Value) : Except Failure (HashTable Value) := do
  let memory ← store t.buckets i value
  pure { t with table := some memory }

def reinsert (t : HashTable Value) (value : Value) : Except Failure (HashTable Value × ℕ) := do
  let (newEntry, _) ← t.lookupForWriting traits (traits.extract value)
  let t ← t.write newEntry value
  pure (t, newEntry)

def allocateTable (size : UInt32) : List Value := List.replicate size.toNat traits.emptyValue

/-- One iteration of `rehash`; the second component follows `entry` to its new place. -/
def rehashBucket (oldTable : List Value) (entry : Option ℕ) (r : HashTable Value × Option ℕ)
    (i : ℕ) : Except Failure (HashTable Value × Option ℕ) := do
  let value ← load oldTable i
  if traits.isEmptyOrDeletedBucket value then pure r
  else
    let (t, reinsertedEntry) ← r.1.reinsert traits value
    pure (t, if entry = some i then some reinsertedEntry else r.2)

def rehash (t : HashTable Value) (newTableSize : UInt32) (entry : Option ℕ) :
    Except Failure (HashTable Value × Option ℕ) := do
  let fresh : HashTable Value :=
    { t with
      tableSize := newTableSize
      tableSizeMask := newTableSize - 1
      table := some (allocateTable traits newTableSize) }
  let (t, newEntry) ←
    (List.range t.tableSize.toNat).foldlM (rehashBucket traits t.buckets entry) (fresh, none)
  pure ({ t with deletedCount := 0 }, newEntry)

def expandedSize (t : HashTable Value) : UInt32 :=
  if t.tableSize = 0 then traits.minimumTableSize
  else if t.mustRehashInPlace then t.tableSize
  else t.tableSize * 2

def expand (t : HashTable Value) (entry : Option ℕ) :
    Except Failure (HashTable Value × Option ℕ) :=
  t.rehash traits (t.expandedSize traits) entry

def shrink (t : HashTable Value) : Except Failure (HashTable Value) := do
  let (t, _) ← t.rehash traits (t.tableSize / 2) none
  pure t

def shrinkIfNeeded (t : HashTable Value) : Except Failure (HashTable Value) :=
  if t.shouldShrink traits then t.shrink traits else pure t

/-- `if (!m_table) expand();` -/
def allocateIfNeeded (t : HashTable Value) : Except Failure (HashTable Value) :=
  match t.table with
  | none => do
    let (t, _) ← t.expand traits none
    pure t
  | some _ => pure t

/-- A deleted bucket is made empty again. -/
def reviveBucket (t : HashTable Value) (i : ℕ) : Except Failure (HashTable Value) := do
  let t ← t.write i traits.emptyValue
  pure { t with deletedCount := t.deletedCount - 1 }

/-- The end of `add`: the value is written and the table grows if it has become too full. -/
def addAt (t : HashTable Value) (entry : ℕ) (value : Value) :
    Except Failure (HashTable Value × AddResult) := do
  let t ← t.write entry value
  let t := { t with keyCount := t.keyCount + 1 }
  if t.shouldExpand then
    let (t, newEntry) ← t.expand traits (some entry)
    pure (t, ⟨newEntry, true⟩)
  else pure (t, ⟨some entry, true⟩)

def add (t : HashTable Value) (value : Value) : Except Failure (HashTable Value × AddResult) := do
  let t ← t.allocateIfNeeded traits
  let key := traits.extract value
  let r ← t.probe traits (traits.inspectForWriting key) key
  if r.found then pure (t, ⟨some r.entry, false⟩)
  else
    match r.deletedEntry with
    | some deletedEntry => do
      let t ← t.reviveBucket traits deletedEntry
      t.addAt traits deletedEntry value
    | none => t.addAt traits r.entry value

/-- The hash code is passed on to the translator; the entry it makes is the same. -/
def addPassingHashCode (t : HashTable Value) (value : Value) :
    Except Failure (HashTable Value × AddResult) := do
  let t ← t.allocateIfNeeded traits
  let ((entry, found), _) ← t.fullLookupForWriting traits (traits.extract value)
  if found then pure (t, ⟨some entry, false⟩)
  else
    let bucket ← load t.buckets entry
    if traits.isDeletedBucket bucket then
      let t ← t.reviveBucket traits entry
      t.addAt traits entry value
    else t.addAt traits entry value

/-! ## Finding and removing -/

/-- The position of the entry; `none` is the end. -/
def find (t : HashTable Value) (key : Key) : Except Failure (Option ℕ) :=
  match t.table with
  | none => pure none
  | some _ => t.lookup traits key

def contains (t : HashTable Value) (key : Key) : Except Failure Bool :=
  match t.table with
  | none => pure false
  | some _ => do
    let entry ← t.lookup traits key
    pure entry.isSome

/-- `deleteBucket` and the counters. -/
def deleteEntry (t : HashTable Value) (i : ℕ) : Except Failure (HashTable Value) := do
  let t ← t.write i traits.deletedValue
  pure { t with deletedCount := t.deletedCount + 1, keyCount := t.keyCount - 1 }

def removeAt (t : HashTable Value) (i : ℕ) : Except Failure (HashTable Value) := do
  let t ← t.deleteEntry traits i
  t.shrinkIfNeeded traits

def remove (t : HashTable Value) (key : Key) : Except Failure (HashTable Value) := do
  match ← t.find traits key with
  | none => pure t
  | some i => t.removeAt traits i

def removeBucketIf (functor : Value → Bool) (t : HashTable Value) (i : ℕ) :
    Except Failure (HashTable Value) := do
  let value ← load t.buckets i
  if traits.isEmptyOrDeletedBucket value then pure t
  else if !functor value then pure t
  else t.deleteEntry traits i

/-- The loop runs from the last bucket to the first. -/
def removeIf (t : HashTable Value) (functor : Value → Bool) : Except Failure (HashTable Value) := do
  let t ← (List.range t.tableSize.toNat).reverse.foldlM (removeBucketIf traits functor) t
  t.shrinkIfNeeded traits

/-- The deleted count stays as it was. -/
def clear (t : HashTable Value) : HashTable Value :=
  match t.table with
  | none => t
  | some _ => { t with table := none, tableSize := 0, tableSizeMask := 0, keyCount := 0 }

def copyBucket (other : List Value) (t : HashTable Value) (i : ℕ) :
    Except Failure (HashTable Value) := do
  let value ← load other i
  if traits.isEmptyOrDeletedBucket value then pure t
  else
    let (t, _) ← t.add traits value
    pure t

/-- The copy constructor adds the entries one by one; an empty table begins at its end. -/
def copy (other : HashTable Value) : Except Failure (HashTable Value) :=
  if other.isEmpty then pure create
  else (List.range other.tableSize.toNat).foldlM (copyBucket traits other.buckets) create

end HashTable

/-- A program has its tables under names. -/
abbrev HashTables (ι Value : Type) := ι → HashTable Value

/-- What a program does with its tables. -/
inductive HashTableOperation (ι Key Value : Type)
  | add (i : ι) (value : Value)
  | addPassingHashCode (i : ι) (value : Value)
  | remove (i : ι) (key : Key)
  | removeIf (i : ι) (functor : Value → Bool)
  | clear (i : ι)
  | assign (i other : ι)
  | moveAssign (i other : ι)
  | swap (i other : ι)

namespace HashTables

variable {ι : Type} [DecidableEq ι] (traits : HashTraits Key Value)

def swap (tables : HashTables ι Value) (i j : ι) : HashTables ι Value :=
  update (update tables i (tables j)) j (tables i)

/-- The tables after an operation, and the result of `add`. Assignment makes a new table,
swaps it in and destroys what it has got for it. -/
def execute (tables : HashTables ι Value) :
    HashTableOperation ι Key Value → Except Failure (HashTables ι Value × Option AddResult)
  | .add i value => do
    let (t, r) ← (tables i).add traits value
    pure (update tables i t, some r)
  | .addPassingHashCode i value => do
    let (t, r) ← (tables i).addPassingHashCode traits value
    pure (update tables i t, some r)
  | .remove i key => do
    let t ← (tables i).remove traits key
    pure (update tables i t, none)
  | .removeIf i functor => do
    let t ← (tables i).removeIf traits functor
    pure (update tables i t, none)
  | .clear i => pure (update tables i (tables i).clear, none)
  | .assign i other => do
    let t ← (tables other).copy traits
    pure (update tables i t, none)
  | .moveAssign i other =>
    pure (update (update tables other .create) i (tables other), none)
  | .swap i other => pure (tables.swap i other, none)

end HashTables

/-!
## What a probe finds

The buckets of a table are the slots of open addressing (`slotAt`), and the places the loop
visits are steps of an odd length around the table (`probeAt`). A loop over buckets of
which one is empty ends, where it finds the key or at the first empty bucket of its way
(`probe_spec`).
-/

open Probing

variable {Key Value : Type} {traits : HashTraits Key Value} {memory : List Value}
  {value : Value} {key : Key} {i j n : ℕ}

/-- The length of the steps for a hash; it is odd. -/
def stepLength (h : UInt32) : UInt32 := 1 ||| doubleHash h

theorem stepLength_odd (h : UInt32) : (stepLength h).toNat % 2 = 1 := by
  rw [stepLength, UInt32.toNat_or, Nat.or_mod_two_eq_one]
  exact .inl rfl

theorem stepLength_ne_zero (h : UInt32) : stepLength h ≠ 0 := by
  intro hz
  have hodd := stepLength_odd h
  rw [hz] at hodd
  cases hodd

/-- The place after `n` steps of the loop for the key. -/
def probeAt (traits : HashTraits Key Value) (size : ℕ) (key : Key) (n : ℕ) : ℕ :=
  stepped size ((traits.hash key).toNat % size) (stepLength (traits.hash key)).toNat n

/-- The table has a power of two of buckets, and the mask fits. -/
structure Masked (memory : List Value) (mask : UInt32) : Prop where
  length_eq : ∃ s < 32, memory.length = 2 ^ s
  mask_eq : mask.toNat + 1 = memory.length

variable {mask : UInt32}

section

variable (h : Masked memory mask)
include h

theorem Masked.pos : 0 < memory.length := by
  rw [← h.mask_eq]
  exact Nat.succ_pos _

theorem Masked.and_mask (x : UInt32) : (x &&& mask).toNat = x.toNat % memory.length := by
  obtain ⟨s, -, hs⟩ := h.length_eq
  have hmask : mask.toNat = 2 ^ s - 1 := by
    have := h.mask_eq
    omega
  rw [UInt32.toNat_and, hmask, Nat.and_two_pow_sub_one_eq_mod, hs]

theorem Masked.probeAt_lt (traits : HashTraits Key Value) (key : Key) (n : ℕ) :
    probeAt traits memory.length key n < memory.length :=
  stepped_lt h.pos n

theorem Masked.probeAt_zero (key : Key) :
    (traits.hash key &&& mask).toNat = probeAt traits memory.length key 0 := by
  rw [h.and_mask, probeAt, stepped_zero (Nat.mod_lt _ h.pos)]

theorem Masked.probeAt_succ {place : UInt32}
    (hplace : place.toNat = probeAt traits memory.length key n) :
    ((place + stepLength (traits.hash key)) &&& mask).toNat =
      probeAt traits memory.length key (n + 1) := by
  obtain ⟨s, hs, hlen⟩ := h.length_eq
  have hdvd : memory.length ∣ 2 ^ 32 := by
    rw [hlen]
    exact Nat.pow_dvd_pow 2 hs.le
  rw [h.and_mask, UInt32.toNat_add, Nat.mod_mod_of_dvd _ hdvd, hplace, probeAt, probeAt,
    stepped_succ]

theorem Masked.exists_probeAt (traits : HashTraits Key Value) (key : Key) (hi : i < memory.length) :
    ∃ n < memory.length, probeAt traits memory.length key n = i := by
  obtain ⟨s, -, hlen⟩ := h.length_eq
  refine exists_stepped ?_ hi
  rw [hlen]
  exact coprime_two_pow_of_odd s (stepLength_odd _)

end

variable [DecidableEq Key]

namespace HashTraits

/-- The slot a bucket is. -/
def slot (traits : HashTraits Key Value) (value : Value) : Slot Value :=
  if traits.isEmptyBucket value then .empty
  else if traits.isDeletedBucket value then .deleted
  else .full value

/-- A key that is neither the empty nor the deleted one. -/
def ValidKey (traits : HashTraits Key Value) (key : Key) : Prop :=
  key ≠ traits.extract traits.emptyValue ∧ key ≠ traits.extract traits.deletedValue

theorem slot_of_valid (h : traits.ValidKey (traits.extract value)) :
    traits.slot value = .full value := by
  have hempty : traits.isEmptyBucket value = false := by simpa [isEmptyBucket] using h.1
  have hdel : traits.isDeletedBucket value = false := by simpa [isDeletedBucket] using h.2
  simp [slot, hempty, hdel]

theorem slot_emptyValue (traits : HashTraits Key Value) :
    traits.slot traits.emptyValue = .empty := by
  simp [slot, isEmptyBucket]

theorem slot_deletedValue (traits : HashTraits Key Value) :
    traits.slot traits.deletedValue = .deleted := by
  simp [slot, isEmptyBucket, isDeletedBucket, traits.deleted_ne_empty]

theorem slot_eq_full {a : Value} (h : traits.slot value = .full a) :
    value = a ∧ traits.isEmptyOrDeletedBucket value = false ∧
      traits.ValidKey (traits.extract value) := by
  unfold slot at h
  split at h
  · cases h
  · rename_i hempty
    split at h
    · cases h
    · rename_i hdel
      cases h
      refine ⟨rfl, ?_, ?_, ?_⟩
      · simp only [isEmptyOrDeletedBucket, Bool.or_eq_false_iff]
        exact ⟨by simpa using hempty, by simpa using hdel⟩
      · simpa [isEmptyBucket] using hempty
      · simpa [isDeletedBucket] using hdel

theorem isEmptyOrDeletedBucket_iff :
    traits.isEmptyOrDeletedBucket value = true ↔ ∀ a, traits.slot value ≠ .full a := by
  constructor
  · intro h a ha
    rw [(slot_eq_full ha).2.1] at h
    cases h
  · intro h
    by_contra hne
    simp only [isEmptyOrDeletedBucket, Bool.not_eq_true, Bool.or_eq_false_iff] at hne
    exact h value (by simp [slot, hne.1, hne.2])

theorem isDeletedBucket_iff :
    traits.isDeletedBucket value = true ↔ traits.slot value = .deleted := by
  have hne := traits.deleted_ne_empty
  unfold slot
  constructor
  · intro h
    have hempty : traits.isEmptyBucket value = false := by
      simp only [isDeletedBucket, decide_eq_true_eq] at h
      simp [isEmptyBucket, h, hne]
    simp [hempty, h]
  · intro h
    by_contra hdel
    split at h <;> cases h

/-- What a loop that looks for the key makes of the slots. -/
structure Inspects (traits : HashTraits Key Value) (inspect : Value → Inspection) (key : Key) :
    Prop where
  empty : ∀ value, traits.slot value = .empty → inspect value = .empty
  found : ∀ value, traits.slot value = .full value → traits.extract value = key →
    inspect value = .found
  other : ∀ value, traits.slot value = .full value → traits.extract value ≠ key →
    inspect value = .other
  passed : ∀ value, traits.slot value = .deleted →
    inspect value = .deleted ∨ inspect value = .other

theorem inspectForReading_inspects (h : traits.ValidKey key) :
    traits.Inspects (traits.inspectForReading key) key := by
  constructor <;> intro value <;> unfold slot inspectForReading isEmptyBucket isDeletedBucket <;>
    by_cases h1 : traits.extract value = traits.extract traits.emptyValue <;>
    by_cases h2 : traits.extract value = traits.extract traits.deletedValue <;>
    by_cases h3 : traits.extract value = key <;>
    by_cases h4 : traits.safeToCompareToEmptyOrDeleted <;>
    simp_all [ValidKey]

theorem inspectForWriting_inspects (h : traits.ValidKey key) :
    traits.Inspects (traits.inspectForWriting key) key ∧
      ∀ value, traits.slot value = .deleted → traits.inspectForWriting key value = .deleted := by
  refine ⟨?_, ?_⟩
  · constructor <;> intro value <;> unfold slot inspectForWriting isEmptyBucket isDeletedBucket <;>
      by_cases h1 : traits.extract value = traits.extract traits.emptyValue <;>
      by_cases h2 : traits.extract value = traits.extract traits.deletedValue <;>
      by_cases h3 : traits.extract value = key <;>
      by_cases h4 : traits.safeToCompareToEmptyOrDeleted <;>
      simp_all [ValidKey]
  · intro value
    unfold slot inspectForWriting isEmptyBucket isDeletedBucket
    by_cases h1 : traits.extract value = traits.extract traits.emptyValue <;>
      by_cases h2 : traits.extract value = traits.extract traits.deletedValue <;>
      by_cases h3 : traits.extract value = key <;>
      by_cases h4 : traits.safeToCompareToEmptyOrDeleted <;>
      simp_all [ValidKey]

end HashTraits

/-- The slot at a place of the table. -/
def slotAt (traits : HashTraits Key Value) (memory : List Value) (i : ℕ) : Slot Value :=
  match memory[i]? with
  | some value => traits.slot value
  | none => .deleted

theorem slotAt_of_lt (h : i < memory.length) : slotAt traits memory i = traits.slot memory[i] := by
  rw [slotAt, List.getElem?_eq_getElem h]

theorem lt_length_of_ne_deleted (h : slotAt traits memory i ≠ .deleted) : i < memory.length := by
  by_contra hge
  rw [slotAt, List.getElem?_eq_none (Nat.not_lt.mp hge)] at h
  exact h rfl

theorem lt_length_of_empty (h : slotAt traits memory i = .empty) : i < memory.length := by
  refine lt_length_of_ne_deleted (?_ : slotAt traits memory i ≠ .deleted)
  rw [h]
  simp

theorem slotAt_set (h : i < memory.length) : slotAt traits (memory.set i value) =
      update (slotAt traits memory) i (traits.slot value) := by
  funext j
  by_cases hij : j = i
  · subst hij
    rw [update_self, slotAt_of_lt (by simpa using h), List.getElem_set_self]
  · rw [update_of_ne hij, slotAt, slotAt, List.getElem?_set_ne (Ne.symm hij)]

/-- A deleted bucket among the first `n` places of the loop for the key. -/
def Remembers (traits : HashTraits Key Value) (memory : List Value) (key : Key) (n : ℕ)
    (deletedEntry : Option ℕ) : Prop :=
  ∀ i, deletedEntry = some i →
    slotAt traits memory i = .deleted ∧ ∃ m < n, probeAt traits memory.length key m = i

/-- There is no deleted bucket among the first `n` places. -/
def NoneDeleted (traits : HashTraits Key Value) (memory : List Value) (key : Key) (n : ℕ) : Prop :=
  ∀ m < n, slotAt traits memory (probeAt traits memory.length key m) ≠ .deleted

/-- Where a loop for the key ends. -/
structure Probed (traits : HashTraits Key Value) (memory : List Value) (key : Key)
    (r : ProbeResult) (n : ℕ) : Prop where
  entry_eq : r.entry = probeAt traits memory.length key n
  passed : Passed traits.extract (probeAt traits memory.length) (slotAt traits memory) key n
  found : r.found = true →
    ∃ a, slotAt traits memory r.entry = .full a ∧ traits.extract a = key
  empty : r.found = false → slotAt traits memory r.entry = .empty
  remembers : Remembers traits memory key n r.deletedEntry

theorem Remembers.mono {m : ℕ} {deletedEntry : Option ℕ}
    (h : Remembers traits memory key m deletedEntry) (hle : m ≤ n) :
    Remembers traits memory key n deletedEntry := by
  intro i hi
  obtain ⟨hslot, k, hk, heq⟩ := h i hi
  exact ⟨hslot, k, lt_of_lt_of_le hk hle, heq⟩

theorem nextStep_eq (h : UInt32) (n : ℕ) :
    nextStep h (if n = 0 then 0 else stepLength h) = stepLength h := by
  unfold nextStep
  by_cases hn : n = 0
  · simp [hn, stepLength]
  · rw [if_neg hn, if_neg (stepLength_ne_zero h)]

theorem passed_succ (h : Passed traits.extract (probeAt traits memory.length)
      (slotAt traits memory) key n)
    (hempty : slotAt traits memory (probeAt traits memory.length key n) ≠ .empty)
    (hkey : ∀ a, slotAt traits memory (probeAt traits memory.length key n) = .full a →
      traits.extract a ≠ key) :
    Passed traits.extract (probeAt traits memory.length) (slotAt traits memory) key (n + 1) := by
  intro m hm
  rcases Nat.lt_succ_iff_lt_or_eq.mp hm with hlt | rfl
  · exact h m hlt
  · exact ⟨hempty, hkey⟩

theorem noneDeleted_succ (h : NoneDeleted traits memory key n)
    (hslot : slotAt traits memory (probeAt traits memory.length key n) ≠ .deleted) :
    NoneDeleted traits memory key (n + 1) := by
  intro m hm
  rcases Nat.lt_succ_iff_lt_or_eq.mp hm with hlt | rfl
  · exact h m hlt
  · exact hslot

/-- A loop for the key that has passed `n` places and is on its way to an empty bucket. -/
theorem probeFrom_spec {inspect : Value → Inspection} (hm : Masked memory mask)
    (hi : traits.Inspects inspect key) {last : ℕ}
    (hlast : slotAt traits memory (probeAt traits memory.length key last) = .empty) :
    ∀ (fuel n : ℕ) (place k : UInt32) (deletedEntry : Option ℕ),
      place.toNat = probeAt traits memory.length key n →
      k = (if n = 0 then 0 else stepLength (traits.hash key)) →
      n ≤ last → last < n + fuel →
      Passed traits.extract (probeAt traits memory.length) (slotAt traits memory) key n →
      Remembers traits memory key n deletedEntry →
      ∃ r m, probeFrom inspect memory mask (traits.hash key) fuel place k deletedEntry = .ok r ∧
        Probed traits memory key r m ∧
        ((∀ value, traits.slot value = .deleted → inspect value = .deleted) →
          (deletedEntry = none → NoneDeleted traits memory key n) → r.deletedEntry = none →
            NoneDeleted traits memory key m) := by
  intro fuel
  induction fuel with
  | zero => intro n place k d _ _ hle hlt; omega
  | succ fuel ih =>
    intro n place k d hplace hk hle hlt hpassed hrem
    have hlen : place.toNat < memory.length := by
      rw [hplace]
      exact hm.probeAt_lt traits key n
    have hslot : slotAt traits memory (probeAt traits memory.length key n) =
        traits.slot memory[place.toNat] := by
      rw [← hplace]
      exact slotAt_of_lt hlen
    have hnext : nextStep (traits.hash key) k = stepLength (traits.hash key) := by
      rw [hk]
      exact nextStep_eq _ n
    have hplace' := hm.probeAt_succ hplace
    have hk' : stepLength (traits.hash key) =
        (if n + 1 = 0 then 0 else stepLength (traits.hash key)) := rfl
    -- a bucket that is not empty is not the last one
    have hlast' : slotAt traits memory (probeAt traits memory.length key n) ≠ .empty →
        n + 1 ≤ last := by
      intro hne
      refine lt_of_le_of_ne hle ?_
      rintro rfl
      exact hne hlast
    rw [probeFrom, load_eq hlen]
    dsimp only [bind, Except.bind]
    rw [hnext]
    cases hs : traits.slot memory[place.toNat] with
    | empty =>
      rw [hi.empty _ hs]
      refine ⟨_, n, rfl, ⟨hplace, hpassed, by simp, fun _ => ?_, hrem⟩, fun _ hd hnone => hd hnone⟩
      rw [hplace, hslot, hs]
    | deleted =>
      rw [hs] at hslot
      have hpassed' := passed_succ hpassed (by rw [hslot]; simp) (by rw [hslot]; simp)
      have hle' := hlast' (by rw [hslot]; simp)
      rcases hi.passed _ hs with hdel | hoth
      · rw [hdel]
        have hrem' : Remembers traits memory key (n + 1) (some place.toNat) := by
          rintro i ⟨⟩
          exact ⟨by rw [hplace, hslot], n, Nat.lt_succ_self n, hplace.symm⟩
        obtain ⟨r, m, hr, hprobed, hnone⟩ := ih (n + 1) _ _ (some place.toNat) hplace' hk' hle'
          (by omega) hpassed' hrem'
        exact ⟨r, m, hr, hprobed, fun hdeleted _ => hnone hdeleted (by simp)⟩
      · rw [hoth]
        obtain ⟨r, m, hr, hprobed, hnone⟩ := ih (n + 1) _ _ d hplace' hk' hle' (by omega) hpassed'
          (hrem.mono n.le_succ)
        refine ⟨r, m, hr, hprobed, fun hdeleted => ?_⟩
        rw [hdeleted _ hs] at hoth
        cases hoth
    | full a =>
      obtain ⟨rfl, -, -⟩ := HashTraits.slot_eq_full hs
      rw [hs] at hslot
      by_cases hkey : traits.extract memory[place.toNat] = key
      · rw [hi.found _ hs hkey]
        exact ⟨_, n, rfl,
          ⟨hplace, hpassed, fun _ => ⟨_, (slotAt_of_lt hlen).trans hs, hkey⟩, by simp, hrem⟩,
          fun _ hd hnone => hd hnone⟩
      · rw [hi.other _ hs hkey]
        have hpassed' := passed_succ hpassed (by rw [hslot]; simp) (by
          intro a ha
          rw [hslot] at ha
          cases ha
          exact hkey)
        obtain ⟨r, m, hr, hprobed, hnone⟩ := ih (n + 1) _ _ d hplace' hk'
          (hlast' (by rw [hslot]; simp)) (by omega) hpassed' (hrem.mono n.le_succ)
        refine ⟨r, m, hr, hprobed, fun hdeleted hd => hnone hdeleted fun hd' => ?_⟩
        exact noneDeleted_succ (hd hd') (by rw [hslot]; simp)

theorem HashTable.probe_spec {t : HashTable Value} {inspect : Value → Inspection}
    (hm : Masked t.buckets t.tableSizeMask) (hi : traits.Inspects inspect key)
    (hempty : slotAt traits t.buckets i = .empty) :
    ∃ r m, t.probe traits inspect key = .ok r ∧ Probed traits t.buckets key r m ∧
      ((∀ value, traits.slot value = .deleted → inspect value = .deleted) →
        r.deletedEntry = none → NoneDeleted traits t.buckets key m) := by
  obtain ⟨last, hlt, rfl⟩ := hm.exists_probeAt traits key (lt_length_of_empty hempty)
  obtain ⟨r, m, hr, hprobed, hnone⟩ := probeFrom_spec hm hi hempty (t.buckets.length + 1) 0
    (traits.hash key &&& t.tableSizeMask) 0 none (hm.probeAt_zero key) rfl (Nat.zero_le _)
    (by omega) (fun m hm => absurd hm (Nat.not_lt_zero m)) nofun
  exact ⟨r, m, hr, hprobed, fun hdel =>
    hnone hdel fun _ m hm => absurd hm (Nat.not_lt_zero m)⟩

end WebKit.WTF
