import WebKit.WTF.HashTableSpec

/-!
# Adding and removing

`t.Represents traits entries`: the entries of the table are those of the map, and the table
is one that can be probed. The operations keep this, as they keep an empty bucket, unless
they multiply a number of keys or buckets beyond `2 ^ 32`. That happens in three cases. A
table of `2 ^ 31` buckets that gets half full is to be rehashed to twice its size, which is
zero (`CanGain`). A table of `2 ^ 30` buckets with too many keys seems to have few of them,
and is rehashed to half its size (`CanLose`). A copy adds the keys one by one, and so it
gets to a table of `2 ^ 31` buckets with at most half of them in use.
-/

namespace WebKit.WTF

open Transition Probing Function List HashTable HashTraits Option

variable {Key Value : Type} [DecidableEq Key] {traits : HashTraits Key Value}
  {memory : List Value} {value : Value} {key : Key} {i j n : ℕ}

namespace HashTable

variable {t t' : HashTable Value} {entries : Key → Option Value}

/-- The table has the entries of the map. -/
structure Represents (t : HashTable Value) (traits : HashTraits Key Value)
    (entries : Key → Option Value) : Prop where
  wellFormed : t.Null ∨ ∃ memory, t.Holds traits memory ∧ t.Room
  present_iff : ∀ x a, Present traits.extract (slotAt traits t.buckets) x a ↔ entries x = some a

/-- A table with buckets has the entries of the map. -/
structure Stores (t : HashTable Value) (traits : HashTraits Key Value) (memory : List Value)
    (entries : Key → Option Value) : Prop extends t.Holds traits memory where
  present_iff : ∀ x a, Present traits.extract (slotAt traits memory) x a ↔ entries x = some a

theorem Stores.represents (h : t.Stores traits memory entries) (hroom : t.Room) :
    t.Represents traits entries where
  wellFormed := .inr ⟨memory, h.toHolds, hroom⟩
  present_iff := by
    rw [h.buckets_eq]
    exact h.present_iff

theorem Null.represents (h : t.Null) : t.Represents traits (fun _ => none) where
  wellFormed := .inl h
  present_iff x a := by
    rw [h.buckets_eq]
    simp [Present, slotAt]

theorem Represents.cases (h : t.Represents traits entries) :
    (t.Null ∧ ∀ x, entries x = none) ∨ ∃ memory, t.Stores traits memory entries ∧ t.Room := by
  rcases h.wellFormed with hnull | ⟨memory, hholds, hroom⟩
  · refine .inl ⟨hnull, fun x => ?_⟩
    cases hx : entries x with
    | none => rfl
    | some a =>
      obtain ⟨-, i, hi⟩ := (h.present_iff x a).mpr hx
      rw [hnull.buckets_eq] at hi
      cases hi
  · have hp := h.present_iff
    rw [hholds.buckets_eq] at hp
    exact .inr ⟨memory, ⟨hholds, hp⟩, hroom⟩

theorem Stores.of_full (h : t.Stores traits memory entries) {a : Value}
    (hi : slotAt traits memory i = .full a) : entries (traits.extract a) = some a :=
  (h.present_iff _ _).mp ⟨rfl, i, hi⟩

theorem Stores.valid (h : t.Stores traits memory entries) {a : Value} (hx : entries key = some a) :
    traits.ValidKey key ∧ traits.extract a = key := by
  obtain ⟨rfl, i, hi⟩ := (h.present_iff key a).mpr hx
  exact ⟨(slotAt_eq_full hi).choose_spec.2.2, rfl⟩

theorem Stores.transfer {memory' : List Value} (h : t.Stores traits memory entries)
    (hholds : t'.Holds traits memory')
    (hfull : ∀ a, (∃ j, slotAt traits memory' j = .full a) ↔ ∃ j, slotAt traits memory j = .full a) :
    t'.Stores traits memory' entries where
  toHolds := hholds
  present_iff x a := by
    rw [← h.present_iff x a, Present, Present, hfull a]

/-! ## Where the arithmetic does not wrap around -/

/-- The table can get an entry of the key: it is smaller than the largest one, less than half
full afterwards, or keeps the number of buckets in use. -/
def CanGain (t : HashTable Value) (traits : HashTraits Key Value) (key : Key) : Prop :=
  t.tableSize.toNat = 2 ^ 31 →
    t.keyCount.toNat + t.deletedCount.toNat + 1 < 2 ^ 30 ∨
      t.keyCount.toNat + t.deletedCount.toNat < 2 ^ 30 ∧
        ∃ i, Reaches traits t.buckets key i ∧ slotAt traits t.buckets i = .deleted

/-- The table can lose entries until this number is left: it has not got so many in a table of
`2 ^ 30` buckets that six times the number, modulo `2 ^ 32`, is less than that. -/
def CanLose (t : HashTable Value) (traits : HashTraits Key Value) (keys : ℕ) : Prop :=
  t.tableSize.toNat = 2 ^ 30 → traits.minimumTableSize.toNat < 2 ^ 30 →
    keys * 6 < 2 ^ 32 ∨ 5 * 2 ^ 30 ≤ keys * 6

section

variable {size : ℕ} (h : ∃ s < 32, size = 2 ^ s)
include h

theorem size_cases :
    0 < size ∧ (size ≤ 2 ^ 29 ∨ size = 2 ^ 30 ∨ size = 2 ^ 31) := by
  obtain ⟨s, hs, rfl⟩ := h
  refine ⟨Nat.two_pow_pos s, ?_⟩
  rcases lt_or_ge s 30 with hlt | hge
  · exact .inl (Nat.pow_le_pow_right (by decide) (Nat.le_of_lt_succ hlt))
  · obtain rfl | rfl : s = 30 ∨ s = 31 := by omega
    · exact .inr (.inl rfl)
    · exact .inr (.inr rfl)

theorem size_double (hlt : size < 2 ^ 31) :
    ∃ s < 32, size * 2 = 2 ^ s := by
  obtain ⟨s, -, rfl⟩ := h
  have hs : s < 31 := (Nat.pow_lt_pow_iff_right (by decide)).mp hlt
  exact ⟨s + 1, by omega, rfl⟩

theorem size_half (hlt : 1 < size) :
    ∃ s < 32, size / 2 = 2 ^ s := by
  obtain ⟨s, hs, rfl⟩ := h
  cases s with
  | zero => exact absurd hlt (lt_irrefl 1)
  | succ s => exact ⟨s, by omega, by rw [pow_succ, Nat.mul_div_cancel _ (by decide)]⟩

end

theorem shouldExpand_iff : t.shouldExpand = true ↔
    t.tableSize.toNat ≤ (t.keyCount.toNat + t.deletedCount.toNat) % 2 ^ 32 * 2 % 2 ^ 32 := by
  rw [shouldExpand, decide_eq_true_eq, UInt32.le_iff_toNat_le, UInt32.toNat_mul, UInt32.toNat_add]
  rfl

theorem mustRehashInPlace_iff : t.mustRehashInPlace = true ↔
    t.keyCount.toNat * 6 % 2 ^ 32 < t.tableSize.toNat * 2 % 2 ^ 32 := by
  rw [mustRehashInPlace, decide_eq_true_eq, UInt32.lt_iff_toNat_lt, UInt32.toNat_mul,
    UInt32.toNat_mul]
  rfl

omit [DecidableEq Key] in
theorem shouldShrink_iff : t.shouldShrink traits = true ↔
    t.keyCount.toNat * 6 % 2 ^ 32 < t.tableSize.toNat ∧
      traits.minimumTableSize.toNat < t.tableSize.toNat := by
  rw [shouldShrink, Bool.and_eq_true, decide_eq_true_eq, decide_eq_true_eq,
    UInt32.lt_iff_toNat_lt, UInt32.lt_iff_toNat_lt, UInt32.toNat_mul]
  rfl

omit [DecidableEq Key] in
theorem expandedSize_toNat (h : ∃ s < 32, t.tableSize.toNat = 2 ^ s) :
    (t.expandedSize traits).toNat =
      if t.mustRehashInPlace = true then t.tableSize.toNat else t.tableSize.toNat * 2 % 2 ^ 32 := by
  have hne : t.tableSize ≠ 0 := by
    intro hz
    have hpos := (size_cases h).1
    rw [hz] at hpos
    exact absurd hpos (lt_irrefl 0)
  rw [expandedSize, if_neg hne]
  by_cases hm : t.mustRehashInPlace = true
  · rw [if_pos hm, if_pos hm]
  · rw [if_neg hm, if_neg hm, UInt32.toNat_mul]
    rfl

omit [DecidableEq Key] in
theorem expandedSize_spec (traits : HashTraits Key Value)
    (hpow : ∃ s < 32, t.tableSize.toNat = 2 ^ s)
    (hle : t.keyCount.toNat + t.deletedCount.toNat ≤ t.tableSize.toNat)
    (hlargest : t.tableSize.toNat ≠ 2 ^ 31) :
    (∃ s < 32, (t.expandedSize traits).toNat = 2 ^ s) ∧
      t.keyCount.toNat < (t.expandedSize traits).toNat ∧
      ((t.expandedSize traits).toNat = 2 ^ 31 → t.keyCount.toNat ≤ 2 ^ 30) := by
  obtain ⟨hpos, hcases⟩ := size_cases hpow
  rw [expandedSize_toNat hpow]
  by_cases hm : t.mustRehashInPlace = true
  · rw [if_pos hm]
    rw [mustRehashInPlace_iff, Nat.mod_eq_of_lt (by omega : t.tableSize.toNat * 2 < 2 ^ 32)] at hm
    refine ⟨hpow, ?_, by omega⟩
    rcases hcases with hsmall | hmiddle | hlarge
    · rw [Nat.mod_eq_of_lt (by omega)] at hm
      omega
    · -- a table that is full to the last bucket is not rehashed in place
      refine lt_of_le_of_ne (by omega) fun hfull => ?_
      rw [hfull, hmiddle] at hm
      exact absurd hm (by decide)
    · exact absurd hlarge hlargest
  · rw [if_neg hm, Nat.mod_eq_of_lt (by omega)]
    exact ⟨size_double hpow (by omega), by omega, by omega⟩

/-! ## Adding -/

/-- Where a table with an entry at `i` is at the end of `add`. -/
structure Added (t : HashTable Value) (traits : HashTraits Key Value)
    (entries : Key → Option Value) (value : Value) (t' : HashTable Value) (p : ℕ) : Prop where
  represents : t'.Represents traits entries
  bucket_eq : t'.buckets[p]? = some value
  keyCount_eq : t'.keyCount = t.keyCount
  deletedCount_le : t'.deletedCount.toNat ≤ t.deletedCount.toNat

theorem getElem?_of_full {a : Value} (h : slotAt traits memory i = .full a) :
    memory[i]? = some a := by
  obtain ⟨hi, rfl, -⟩ := slotAt_eq_full h
  exact getElem?_eq_getElem hi

theorem Stores.grow (h : t.Stores traits memory entries)
    (hle : t.keyCount.toNat + t.deletedCount.toNat ≤ t.tableSize.toNat)
    (hlargest : t.tableSize.toNat = 2 ^ 31 → t.keyCount.toNat + t.deletedCount.toNat < 2 ^ 30)
    (hi : slotAt traits memory i = .full value) :
    ∃ t' p, (if t.shouldExpand then do
          let (t, newEntry) ← t.expand traits (some i)
          pure (t, ⟨newEntry, true⟩)
        else pure (t, ⟨some i, true⟩) : Except Failure (HashTable Value × AddResult)) =
        .ok (t', ⟨some p, true⟩) ∧
      Added t traits entries value t' p := by
  have hpow := h.size_pow
  obtain ⟨hpos, hcases⟩ := size_cases hpow
  by_cases he : t.shouldExpand = true
  · rw [if_pos he]
    rw [shouldExpand_iff] at he
    have hne : t.tableSize.toNat ≠ 2 ^ 31 := by
      intro heq
      omega
    obtain ⟨hpow', hlt, hbig⟩ := expandedSize_spec traits hpow hle hne
    have hb := h.buckets_eq
    obtain ⟨t', e, memory', heq, hholds, hsize, hkeys, hdel, hfull, hfollows⟩ :=
      rehash_spec traits t (t.expandedSize traits) (some i) (by rw [hb]; exact h.unique)
        (by rw [hb]; exact h.tableSize_eq) (by rw [hb]; exact h.keyCount_eq) hpow' hlt.le
    rw [hb] at hfull hfollows
    obtain ⟨p, rfl, hp⟩ := hfollows i value rfl hi
    have hroom : t'.Room := by
      constructor
      · rw [hsize, hkeys, hdel]
        exact hlt
      · rw [hsize, hkeys, hdel]
        exact hbig
    refine ⟨t', p, ?_, (h.transfer hholds hfull).represents hroom, ?_, hkeys, ?_⟩
    · rw [expand, heq]
      rfl
    · rw [hholds.buckets_eq]
      exact getElem?_of_full hp
    · rw [hdel]
      exact Nat.zero_le _
  · rw [if_neg he]
    rw [shouldExpand_iff] at he
    refine ⟨t, i, rfl, h.represents ?_, ?_, rfl, le_rfl⟩
    · rcases hcases with hsmall | hmiddle | hlarge <;> exact ⟨by omega, by omega⟩
    · rw [h.buckets_eq]
      exact getElem?_of_full hi

theorem Represents.allocateIfNeeded (h : t.Represents traits entries) (key : Key) :
    ∃ t' memory, t.allocateIfNeeded traits = .ok t' ∧ t'.Stores traits memory entries ∧ t'.Room ∧
      t'.keyCount = t.keyCount ∧ t'.deletedCount.toNat ≤ t.deletedCount.toNat ∧
      (t.CanGain traits key → t'.CanGain traits key) := by
  rcases h.cases with ⟨hnull, hents⟩ | ⟨memory, hstores, hroom⟩
  · have hb := hnull.buckets_eq
    have hsize : t.expandedSize traits = traits.minimumTableSize := by
      rw [expandedSize, if_pos hnull.tableSize_eq]
    have hpos := (size_cases traits.minimumTableSize_eq).1
    obtain ⟨t', e, memory', heq, hholds, hsize', hkeys, hdel, hfull, -⟩ :=
      rehash_spec traits t (t.expandedSize traits) none
        (by rw [hb]; exact fun i j a b hi => nomatch hi) (by rw [hb, hnull.tableSize_eq]; rfl)
        (by rw [hb, hnull.keyCount_eq]; rfl)
        (by rw [hsize]; exact traits.minimumTableSize_eq)
        (by rw [hnull.keyCount_eq]; exact Nat.zero_le _)
    refine ⟨t', memory', ?_, ⟨hholds, fun x a => ?_⟩, ⟨?_, ?_⟩, hkeys, ?_, ?_⟩
    · rw [HashTable.allocateIfNeeded, hnull.table_eq]
      rw [expand, heq]
      rfl
    · rw [hb] at hfull
      rw [hents x, Present, hfull a]
      simp [slotAt]
    · rw [hsize', hkeys, hdel, hnull.keyCount_eq, hsize]
      exact hpos
    · rw [hkeys, hdel, hnull.keyCount_eq]
      exact fun _ => Nat.zero_le _
    · rw [hdel]
      exact Nat.zero_le _
    · intro _ _
      rw [hkeys, hdel, hnull.keyCount_eq]
      exact .inl (by decide)
  · refine ⟨t, memory, ?_, hstores, hroom, rfl, le_rfl, id⟩
    rw [HashTable.allocateIfNeeded, hstores.table_eq]
    rfl

theorem Stores.write (h : t.Stores traits memory entries) (hp : Place traits memory value i)
    (htable : t'.table = some (memory.set i value)) (hsize : t'.tableSize = t.tableSize)
    (hmask : t'.tableSizeMask = t.tableSizeMask)
    (hkeys : t'.keyCount.toNat = t.keyCount.toNat + 1)
    (hdel : t'.deletedCount.toNat = tombstoneCount traits (memory.set i value)) :
    t'.Stores traits (memory.set i value) (update entries (traits.extract value) (some value)) := by
  have hi := hp.lt h.masked
  refine ⟨⟨h.toLayout.set hp htable hsize hmask, ?_, hdel⟩, fun x a => ?_⟩
  · rw [hkeys, h.keyCount_eq, fullCount_write hi hp.notFull hp.valid]
  · rw [hp.slotAt_eq hi, present_write hp.notFull, h.present_iff]
    by_cases hx : x = traits.extract value
    · subst hx
      have hnone : ∀ a, entries (traits.extract value) ≠ some a :=
        fun a ha => hp.absent a ((h.present_iff _ _).mpr ha)
      simp [hnone, eq_comm]
    · rw [update_of_ne hx]
      simp [Ne.symm hx]

/-- The numbers of keys and of deleted buckets fit in a word together with one more. -/
theorem Room.toNat_succ (h : t.Room) (hpow : ∃ s < 32, t.tableSize.toNat = 2 ^ s) :
    (t.keyCount + 1).toNat = t.keyCount.toNat + 1 ∧
      (t.deletedCount + 1).toNat = t.deletedCount.toNat + 1 := by
  have hlt := h.lt
  obtain ⟨-, hcases⟩ := size_cases hpow
  exact ⟨Nat.mod_eq_of_lt (by simp; omega), Nat.mod_eq_of_lt (by simp; omega)⟩

theorem Stores.addAt_empty (h : t.Stores traits memory entries) (hroom : t.Room)
    (hgain : t.tableSize.toNat = 2 ^ 31 → t.keyCount.toNat + t.deletedCount.toNat + 1 < 2 ^ 30)
    (hp : Place traits memory value i) (hslot : slotAt traits memory i = .empty) :
    ∃ t' p, t.addAt traits i value = .ok (t', ⟨some p, true⟩) ∧
      t'.Represents traits (update entries (traits.extract value) (some value)) ∧
      t'.buckets[p]? = some value ∧ t'.keyCount = t.keyCount + 1 ∧
      t'.deletedCount.toNat ≤ t.deletedCount.toNat := by
  have hi := hp.lt h.masked
  obtain ⟨hkeys, -⟩ := hroom.toNat_succ h.size_pow
  have hlt := hroom.lt
  let t1 : HashTable Value :=
    { t with table := some (memory.set i value), keyCount := t.keyCount + 1 }
  have hkeys1 : t1.keyCount.toNat = t.keyCount.toNat + 1 := hkeys
  have hstores : t1.Stores traits (memory.set i value)
      (update entries (traits.extract value) (some value)) := by
    refine h.write hp rfl rfl rfl hkeys ?_
    rw [tombstoneCount_use hi hslot hp.valid]
    exact h.deletedCount_eq
  obtain ⟨t', p, heq, hadded⟩ := hstores.grow
    (by rw [hkeys1]; change _ + t.deletedCount.toNat ≤ t.tableSize.toNat; omega)
    (fun hlarge => by
      have := hgain hlarge
      change _ + t.deletedCount.toNat < _
      omega)
    ((hp.slotAt_eq_full_iff hi).mpr (.inr ⟨rfl, rfl⟩))
  refine ⟨t', p, ?_, hadded.represents, hadded.bucket_eq, hadded.keyCount_eq,
    hadded.deletedCount_le⟩
  rw [addAt, HashTable.write, h.buckets_eq, store_eq hi]
  exact heq

theorem Stores.addAt_deleted (h : t.Stores traits memory entries) (hroom : t.Room)
    (hgain : t.tableSize.toNat = 2 ^ 31 → t.keyCount.toNat + t.deletedCount.toNat < 2 ^ 30)
    (hp : Place traits memory value i) (hslot : slotAt traits memory i = .deleted) :
    ∃ t' p, (do
        let t ← t.reviveBucket traits i
        t.addAt traits i value) = .ok (t', ⟨some p, true⟩) ∧
      t'.Represents traits (update entries (traits.extract value) (some value)) ∧
      t'.buckets[p]? = some value ∧ t'.keyCount = t.keyCount + 1 ∧
      t'.deletedCount.toNat ≤ t.deletedCount.toNat := by
  have hi := hp.lt h.masked
  obtain ⟨hkeys, -⟩ := hroom.toNat_succ h.size_pow
  have hlt := hroom.lt
  have hcount := tombstoneCount_reuse hi hslot hp.valid
  have hdel : (t.deletedCount - 1).toNat + 1 = t.deletedCount.toNat := by
    have hone : (1 : UInt32) ≤ t.deletedCount := by
      rw [UInt32.le_iff_toNat_le, h.deletedCount_eq, ← hcount]
      exact Nat.le_add_left 1 _
    rw [UInt32.toNat_sub_of_le _ _ hone]
    exact Nat.sub_add_cancel hone
  let t1 : HashTable Value :=
    { t with
      table := some (memory.set i value)
      keyCount := t.keyCount + 1
      deletedCount := t.deletedCount - 1 }
  have hkeys1 : t1.keyCount.toNat = t.keyCount.toNat + 1 := hkeys
  have hdel1 : t1.deletedCount.toNat + 1 = t.deletedCount.toNat := hdel
  have hstores : t1.Stores traits (memory.set i value)
      (update entries (traits.extract value) (some value)) := by
    refine h.write hp rfl rfl rfl hkeys ?_
    have hd := h.deletedCount_eq
    omega
  obtain ⟨t', p, heq, hadded⟩ := hstores.grow (by rw [hkeys1]; change _ ≤ t.tableSize.toNat; omega)
    (fun hlarge => by
      have := hgain hlarge
      omega)
    ((hp.slotAt_eq_full_iff hi).mpr (.inr ⟨rfl, rfl⟩))
  refine ⟨t', p, ?_, hadded.represents, hadded.bucket_eq, hadded.keyCount_eq,
    hadded.deletedCount_le.trans (by omega)⟩
  have hi' : i < (memory.set i traits.emptyValue).length := by rwa [length_set]
  rw [reviveBucket, HashTable.write, h.buckets_eq, store_eq hi]
  dsimp only [bind, Except.bind, pure, Except.pure]
  rw [addAt, HashTable.write]
  dsimp only [buckets, Option.getD]
  rw [store_eq hi', set_set]
  exact heq

/-- The entries after a value is added: an entry that is there stays. -/
def withEntry (entries : Key → Option Value) (key : Key) (value : Value) : Key → Option Value :=
  update entries key (some ((entries key).getD value))

section

variable (h : t.Represents traits entries)
include h

/-- `add` gives the key an entry, and says whether it is new and where it is. -/
theorem Represents.add (hvalid : traits.ValidKey (traits.extract value))
    (hgain : entries (traits.extract value) = none → t.CanGain traits (traits.extract value)) :
    ∃ t' p, t.add traits value = .ok (t', ⟨some p, (entries (traits.extract value)).isNone⟩) ∧
      t'.Represents traits (withEntry entries (traits.extract value) value) ∧
      t'.buckets[p]? = some ((entries (traits.extract value)).getD value) ∧
      (t'.keyCount = if (entries (traits.extract value)).isNone then t.keyCount + 1
        else t.keyCount) ∧
      t'.deletedCount.toNat ≤ t.deletedCount.toNat := by
  obtain ⟨t1, memory, halloc, hstores, hroom, hkeys, hdel, hcan⟩ :=
    h.allocateIfNeeded (traits.extract value)
  obtain ⟨k, hk⟩ := hstores.exists_empty hroom
  obtain ⟨r, hr, hfound, hnot⟩ := hstores.probe_writing hk hvalid
  rw [HashTable.add, halloc]
  dsimp only [bind, Except.bind]
  rw [hr]
  dsimp only
  cases hrf : r.found with
  | true =>
    obtain ⟨a, ha, hkey⟩ := hfound hrf
    have hentry : entries (traits.extract value) = some a := by
      rw [← hkey]
      exact hstores.of_full ha
    rw [if_pos rfl, withEntry, hentry]
    refine ⟨t1, r.entry, rfl, ?_, ?_, hkeys, hdel⟩
    · rw [getD_some, ← hentry, update_eq_self]
      exact hstores.represents hroom
    · rw [hstores.buckets_eq]
      exact getElem?_of_full ha
  | false =>
    obtain ⟨habsent, ⟨hreach, hempty⟩, htomb, hnone⟩ := hnot hrf
    have hentry : entries (traits.extract value) = none := by
      cases he : entries (traits.extract value) with
      | none => rfl
      | some a => exact absurd ((hstores.present_iff _ _).mpr he) (habsent a)
    have hgain1 := hcan (hgain hentry)
    rw [CanGain, hstores.buckets_eq] at hgain1
    rw [if_neg Bool.false_ne_true, withEntry, hentry, ← hkeys]
    cases hd : r.deletedEntry with
    | none =>
      obtain ⟨t', p, heq, hrep, hbucket, hkeys', hdel'⟩ := hstores.addAt_empty hroom
        (fun hlarge => (hgain1 hlarge).elim id fun ⟨_, j, hj, hslot⟩ =>
          absurd hslot (hnone hd j hj)) ⟨hvalid, habsent, hreach, by simp [hempty]⟩ hempty
      exact ⟨t', p, heq, hrep, hbucket, hkeys', hdel'.trans hdel⟩
    | some i =>
      obtain ⟨hreach', hslot⟩ := htomb i hd
      obtain ⟨t', p, heq, hrep, hbucket, hkeys', hdel'⟩ := hstores.addAt_deleted hroom
        (fun hlarge => (hgain1 hlarge).elim (by omega) And.left)
        ⟨hvalid, habsent, hreach', by simp [hslot]⟩ hslot
      exact ⟨t', p, heq, hrep, hbucket, hkeys', hdel'.trans hdel⟩

theorem Represents.addPassingHashCode_eq (hvalid : traits.ValidKey (traits.extract value)) :
    t.addPassingHashCode traits value = t.add traits value := by
  obtain ⟨t1, memory, halloc, hstores, hroom, -⟩ := h.allocateIfNeeded (traits.extract value)
  obtain ⟨k, hk⟩ := hstores.exists_empty hroom
  obtain ⟨r, hr, -, hnot⟩ := hstores.probe_writing hk hvalid
  rw [HashTable.add, HashTable.addPassingHashCode, halloc]
  dsimp only [bind, Except.bind]
  rw [fullLookupForWriting, hr]
  dsimp only [bind, Except.bind, pure, Except.pure]
  cases hrf : r.found with
  | true => rfl
  | false =>
    obtain ⟨-, ⟨-, hempty⟩, htomb, -⟩ := hnot hrf
    rw [if_neg Bool.false_ne_true]
    rw [hstores.buckets_eq]
    cases hd : r.deletedEntry with
    | none =>
      have hi := lt_length_of_empty hempty
      rw [slotAt_of_lt hi] at hempty
      have hbucket : ¬ traits.isDeletedBucket memory[r.entry] = true := by
        rw [HashTraits.isDeletedBucket_iff, hempty]
        simp
      dsimp only [Option.getD]
      rw [load_eq hi]
      dsimp only
      rw [if_neg hbucket]
    | some i =>
      obtain ⟨⟨n, rfl, -⟩, hslot⟩ := htomb i hd
      have hi := hstores.masked.probeAt_lt traits (traits.extract value) n
      rw [slotAt_of_lt hi] at hslot
      dsimp only [Option.getD]
      rw [load_eq hi]
      dsimp only
      rw [if_pos (HashTraits.isDeletedBucket_iff.mpr hslot)]
      rfl

theorem Represents.lookup (hvalid : traits.ValidKey key) :
    ∃ p, t.lookup traits key = .ok p ∧ p.bind (t.buckets[·]?) = entries key ∧
      p.isSome = (entries key).isSome := by
  rcases h.cases with ⟨hnull, hents⟩ | ⟨memory, hstores, hroom⟩
  · refine ⟨none, ?_, (hents key).symm, by rw [hents]; rfl⟩
    rw [HashTable.lookup, hnull.table_eq]
    rfl
  · obtain ⟨k, hk⟩ := hstores.exists_empty hroom
    have hb := hstores.buckets_eq
    obtain ⟨r, n, hr, hprobed, -⟩ := probe_spec (t := t) (by rw [hb]; exact hstores.masked)
      (inspectForReading_inspects hvalid) (i := k) (by rw [hb, hk])
    rw [hb] at hprobed
    rw [HashTable.lookup, hstores.table_eq, hr, hb]
    cases hrf : r.found with
    | true =>
      obtain ⟨a, ha, hkey⟩ := hprobed.found hrf
      have hentry := hstores.of_full ha
      rw [hkey] at hentry
      refine ⟨some r.entry, ?_, ?_, by rw [hentry]; rfl⟩
      · dsimp only [bind, Except.bind]
        rw [hrf]
        rfl
      · rw [hentry]
        exact getElem?_of_full ha
    | false =>
      have hempty := hprobed.empty hrf
      rw [hprobed.entry_eq] at hempty
      have hentry : entries key = none := by
        cases he : entries key with
        | none => rfl
        | some a =>
          exact absurd ((hstores.present_iff _ _).mpr he)
            (absent_of_passed hstores.findable hprobed.passed hempty a)
      refine ⟨none, ?_, hentry.symm, by rw [hentry]; rfl⟩
      dsimp only [bind, Except.bind]
      rw [hrf]
      rfl

end

theorem find_eq_lookup (t : HashTable Value) (key : Key) : t.find traits key = t.lookup traits key := by
  rw [find, lookup]
  cases t.table <;> rfl

theorem Stores.find_full (h : t.Stores traits memory entries) (hroom : t.Room)
    (hvalid : traits.ValidKey key) :
    ∃ p, t.find traits key = .ok p ∧ p.isSome = (entries key).isSome ∧
      ∀ i, p = some i → ∃ a, entries key = some a ∧ slotAt traits memory i = .full a := by
  obtain ⟨p, hp, hbucket, hsome⟩ := (h.represents hroom).lookup hvalid
  refine ⟨p, by rw [find_eq_lookup, hp], hsome, ?_⟩
  rintro i rfl
  obtain ⟨a, ha⟩ := isSome_iff_exists.mp hsome.symm
  refine ⟨a, ha, ?_⟩
  obtain ⟨hkey, hextract⟩ := h.valid ha
  rw [ha, h.buckets_eq] at hbucket
  rw [slotAt, show memory[i]? = some a from hbucket]
  exact slot_of_valid (hextract.symm ▸ hkey)

section

variable (h : t.Represents traits entries)
include h

theorem Represents.contains (hvalid : traits.ValidKey key) :
    t.contains traits key = .ok (entries key).isSome := by
  obtain ⟨p, hp, -, hsome⟩ := h.lookup hvalid
  rw [← hsome, HashTable.contains, hp]
  cases ht : t.table with
  | some memory => rfl
  | none =>
    rw [HashTable.lookup, ht] at hp
    cases hp
    rfl

theorem Represents.finite :
    {key | (entries key).isSome}.Finite := by
  classical
  refine (t.buckets.map traits.extract).toFinset.finite_toSet.subset fun key hx => ?_
  obtain ⟨value, hvalue⟩ := isSome_iff_exists.mp hx
  obtain ⟨rfl, i, hi⟩ := (h.present_iff key value).mpr hvalue
  obtain ⟨hlt, rfl, -⟩ := slotAt_eq_full hi
  simp only [coe_toFinset, Set.mem_ofPred_eq]
  exact mem_map_of_mem (getElem_mem hlt)

theorem Represents.size_eq :
    t.size.toNat = {x | (entries x).isSome}.ncard := by
  have hset : {x | (entries x).isSome} =
      {x | ∃ a, Present traits.extract (slotAt traits t.buckets) x a} := by
    ext x
    simp only [Set.mem_ofPred_eq, isSome_iff_exists, h.present_iff]
  rw [hset]
  rcases h.cases with ⟨hnull, -⟩ | ⟨memory, hstores, -⟩
  · rw [ncard_present (by
        rw [hnull.buckets_eq]
        rintro i j a b ⟨⟩),
      hnull.buckets_eq, size, hnull.keyCount_eq]
    rfl
  · rw [hstores.buckets_eq, ncard_present hstores.unique, size, hstores.keyCount_eq]

end

/-! ## Removing -/

theorem Stores.deleteEntry (h : t.Stores traits memory entries) (hroom : t.Room) {a : Value}
    (hi : slotAt traits memory i = .full a) :
    ∃ t', t.deleteEntry traits i = .ok t' ∧ t'.Stores traits (memory.set i traits.deletedValue)
        (update entries (traits.extract a) none) ∧ t'.Room ∧
      t'.tableSize = t.tableSize ∧ t'.keyCount.toNat + 1 = t.keyCount.toNat := by
  obtain ⟨hlt, rfl, hfull, -⟩ := slotAt_eq_full hi
  have hset : slotAt traits (memory.set i traits.deletedValue) =
      update (slotAt traits memory) i .deleted := by
    rw [slotAt_set hlt, slot_deletedValue]
  obtain ⟨-, hdel⟩ := hroom.toNat_succ h.size_pow
  have hcount := fullCount_delete hi
  have hkeys : (t.keyCount - 1).toNat + 1 = t.keyCount.toNat := by
    have hone : (1 : UInt32) ≤ t.keyCount := by
      rw [UInt32.le_iff_toNat_le, h.keyCount_eq, ← hcount]
      exact Nat.le_add_left 1 _
    rw [UInt32.toNat_sub_of_le _ _ hone]
    exact Nat.sub_add_cancel hone
  refine ⟨{ t with
      table := some (memory.set i traits.deletedValue)
      deletedCount := t.deletedCount + 1
      keyCount := t.keyCount - 1 }, ?_,
    ⟨⟨⟨rfl, ?_, ⟨?_, ?_⟩, ?_, ?_⟩, ?_, ?_⟩, fun x b => ?_⟩, ⟨?_, ?_⟩, rfl, hkeys⟩
  · rw [HashTable.deleteEntry, HashTable.write, h.buckets_eq, store_eq hlt]
    rfl
  · rw [length_set]
    exact h.tableSize_eq
  · rw [length_set]
    exact h.masked.length_eq
  · rw [length_set]
    exact h.masked.mask_eq
  · rw [hset, length_set]
    exact h.findable.delete i
  · rw [hset]
    exact h.unique.delete i
  · have hk := h.keyCount_eq
    dsimp only
    omega
  · rw [tombstoneCount_delete hi, ← h.deletedCount_eq]
    exact hdel
  · rw [hset, present_delete h.unique hi, h.present_iff]
    by_cases hx : x = traits.extract memory[i]
    · subst hx
      simp
    · simp [hx]
  · have hl := hroom.lt
    dsimp only
    omega
  · have hl := hroom.largest
    dsimp only
    omega

/-- The table is rehashed to half its size if it has become too empty. -/
theorem Stores.shrinkIfNeeded (h : t.Stores traits memory entries) (hroom : t.Room)
    (hlose : t.CanLose traits t.keyCount.toNat) :
    ∃ t', t.shrinkIfNeeded traits = .ok t' ∧ t'.Represents traits entries := by
  have hpow := h.size_pow
  obtain ⟨hpos, hcases⟩ := size_cases hpow
  have hmin := (size_cases traits.minimumTableSize_eq).1
  have hl := hroom.lt
  rw [HashTable.shrinkIfNeeded]
  by_cases hs : t.shouldShrink traits = true
  · rw [if_pos hs]
    rw [shouldShrink_iff] at hs
    obtain ⟨hload, hsize⟩ := hs
    have hhalf : (t.tableSize / 2).toNat = t.tableSize.toNat / 2 := UInt32.toNat_div _ _
    have hlt : t.keyCount.toNat < t.tableSize.toNat / 2 := by
      rcases hcases with hsmall | hmiddle | hlarge
      · rw [Nat.mod_eq_of_lt (by omega)] at hload
        omega
      · rcases hlose hmiddle (by omega) with hfew | hmany
        · rw [Nat.mod_eq_of_lt hfew] at hload
          omega
        · rw [Nat.mod_eq_sub_mod (by omega), Nat.mod_eq_of_lt (by omega)] at hload
          omega
      · have hle := hroom.largest hlarge
        -- a table of this size that is half full is not shrunk
        have hne : t.keyCount.toNat ≠ 2 ^ 30 := by
          intro hhalf
          rw [hhalf, hlarge] at hload
          exact absurd hload (by decide)
        omega
    have hb := h.buckets_eq
    obtain ⟨t', e, memory', heq, hholds, hsize', hkeys, hdel, hfull, -⟩ :=
      rehash_spec traits t (t.tableSize / 2) none (by rw [hb]; exact h.unique)
        (by rw [hb]; exact h.tableSize_eq) (by rw [hb]; exact h.keyCount_eq)
        (by rw [hhalf]; exact size_half hpow (by omega)) (by rw [hhalf]; exact hlt.le)
    rw [hb] at hfull
    refine ⟨t', ?_, (h.transfer hholds hfull).represents ⟨?_, ?_⟩⟩
    · rw [shrink, heq]
      rfl
    · rw [hsize', hkeys, hdel, hhalf]
      exact hlt
    · rw [hsize', hhalf]
      omega
  · rw [if_neg hs]
    exact ⟨t, rfl, h.represents hroom⟩

theorem Represents.remove (h : t.Represents traits entries) (hvalid : traits.ValidKey key)
    (hlose : entries key ≠ none → t.CanLose traits (t.keyCount.toNat - 1)) :
    ∃ t', t.remove traits key = .ok t' ∧ t'.Represents traits (update entries key none) := by
  rw [HashTable.remove]
  rcases h.cases with ⟨hnull, hents⟩ | ⟨memory, hstores, hroom⟩
  · refine ⟨t, ?_, ?_⟩
    · rw [find, hnull.table_eq]
      rfl
    · rw [← hents key, update_eq_self]
      exact h
  obtain ⟨p, hp, hsome, hfull⟩ := hstores.find_full hroom hvalid
  rw [hp]
  cases p with
  | none =>
    have he : entries key = none := by simpa using hsome.symm
    refine ⟨t, rfl, ?_⟩
    rw [← he, update_eq_self]
    exact h
  | some i =>
    obtain ⟨a, he, hi⟩ := hfull i rfl
    obtain ⟨-, hextract⟩ := hstores.valid he
    obtain ⟨t1, heq, hstores1, hroom1, hsize, hkeys⟩ := hstores.deleteEntry hroom hi
    rw [hextract] at hstores1
    have hlose1 : t1.CanLose traits t1.keyCount.toNat := by
      have hcan := hlose (by rw [he]; simp)
      rw [CanLose, hsize]
      rwa [CanLose, ← hkeys, Nat.add_sub_cancel] at hcan
    obtain ⟨t', heq', hrep⟩ := hstores1.shrinkIfNeeded hroom1 hlose1
    refine ⟨t', ?_, hrep⟩
    dsimp only [bind, Except.bind]
    rw [removeAt, heq]
    exact heq'

/-- What the loop of `removeIf` has done when it has read the buckets from `i` on. -/
structure Filtered (t : HashTable Value) (traits : HashTraits Key Value) (memory : List Value)
    (functor : Value → Bool) (i : ℕ) (t' : HashTable Value) (memory' : List Value) : Prop where
  stores : ∃ entries, t'.Stores traits memory' entries
  room : t'.Room
  tableSize_eq : t'.tableSize = t.tableSize
  full_iff : ∀ j a, slotAt traits memory' j = .full a ↔
    slotAt traits memory j = .full a ∧ (i ≤ j → functor a = false)

theorem Filtered.pred {functor : Value → Bool} {memory' : List Value}
    (h : t.Filtered traits memory functor (i + 1) t' memory') (hi : i < memory'.length) :
    ∃ t'', removeBucketIf traits functor t' i = .ok t'' ∧
      ∃ memory'', t.Filtered traits memory functor i t'' memory'' := by
  obtain ⟨entries, hstores⟩ := h.stores
  -- the bucket at `i` has not been touched yet
  have hold : ∀ a, slotAt traits memory' i = .full a ↔ slotAt traits memory i = .full a := by
    intro a
    rw [h.full_iff i a]
    exact ⟨And.left, fun ha => ⟨ha, fun hle => absurd hle (Nat.not_succ_le_self i)⟩⟩
  have hslot : slotAt traits memory' i = traits.slot memory'[i] := slotAt_of_lt hi
  -- a bucket that stays as it is because nothing is to be removed there
  have hstay : (∀ a, slotAt traits memory i = .full a → functor a = false) →
      t.Filtered traits memory functor i t' memory' := by
    intro hkeep
    refine ⟨⟨entries, hstores⟩, h.room, h.tableSize_eq, fun j a => ?_⟩
    rw [h.full_iff j a]
    refine and_congr_right fun ha => ⟨fun hf hle => ?_, fun hf hle => hf (Nat.le_of_succ_le hle)⟩
    rcases eq_or_lt_of_le hle with rfl | hlt
    · exact hkeep a ha
    · exact hf hlt
  rw [removeBucketIf, hstores.buckets_eq, load_eq hi]
  dsimp only [bind, Except.bind]
  cases hb : traits.isEmptyOrDeletedBucket memory'[i] with
  | true =>
    refine ⟨t', rfl, memory', hstay fun a ha => ?_⟩
    have hne := isEmptyOrDeletedBucket_iff.mp hb a
    rw [← hslot] at hne
    exact absurd ((hold a).mpr ha) hne
  | false =>
    have hfull : slotAt traits memory' i = .full memory'[i] := by
      rw [hslot, ← not_isEmptyOrDeletedBucket_iff, hb]
      rfl
    cases hf : functor memory'[i] with
    | false =>
      refine ⟨t', rfl, memory', hstay fun a ha => ?_⟩
      rw [(hold a).mpr ha] at hfull
      cases hfull
      exact hf
    | true =>
      obtain ⟨t'', heq, hstores', hroom', hsize', -⟩ := hstores.deleteEntry h.room hfull
      refine ⟨t'', heq, _, ⟨_, hstores'⟩, hroom', hsize'.trans h.tableSize_eq, fun j a => ?_⟩
      rw [slotAt_set hi, slot_deletedValue]
      by_cases hj : j = i
      · subst hj
        rw [update_self]
        simp only [reduceCtorEq, false_iff, not_and, Classical.not_imp]
        intro ha
        rw [(hold a).mpr ha] at hfull
        cases hfull
        exact ⟨le_rfl, by rw [hf]; simp⟩
      · rw [update_of_ne hj, h.full_iff j a]
        refine and_congr_right fun _ => imp_congr_left ⟨Nat.le_of_succ_le, fun hle => ?_⟩
        exact lt_of_le_of_ne hle (Ne.symm hj)

/-- The entries that a functor does not reject. -/
def withoutIf (entries : Key → Option Value) (functor : Value → Bool) : Key → Option Value :=
  fun x => (entries x).filter fun a => !functor a

theorem Stores.filter (hstores : t.Stores traits memory entries) (hroom : t.Room)
    (functor : Value → Bool) :
    ∃ t1 memory1,
      (range t.tableSize.toNat).reverse.foldlM (removeBucketIf traits functor) t = .ok t1 ∧
      t1.Stores traits memory1 (withoutIf entries functor) ∧ t1.Room ∧
      t1.tableSize = t.tableSize := by
  obtain ⟨t1, heq, memory1, hfiltered⟩ := foldlM_range_reverse
    (I := fun i t' => ∃ memory', t.Filtered traits memory functor i t' memory')
    (f := removeBucketIf traits functor) (n := t.tableSize.toNat) (s := t)
    ⟨memory, ⟨entries, hstores⟩, hroom, rfl, fun j a => ⟨fun ha => ⟨ha, fun hle => by
      obtain ⟨hlt, -⟩ := slotAt_eq_full ha
      rw [hstores.tableSize_eq] at hle
      exact absurd hle (Nat.not_le_of_lt hlt)⟩, And.left⟩⟩ (by
      rintro i hi t' ⟨memory', hf⟩
      obtain ⟨entries', hs⟩ := hf.stores
      exact hf.pred (by rwa [← hs.tableSize_eq, hf.tableSize_eq]))
  obtain ⟨entries1, hstores1⟩ := hfiltered.stores
  refine ⟨t1, memory1, heq, ⟨hstores1.toHolds, fun x a => ?_⟩, hfiltered.room,
    hfiltered.tableSize_eq⟩
  rw [withoutIf, filter_eq_some_iff, ← hstores.present_iff x a]
  simp only [Present, hfiltered.full_iff, zero_le, forall_true_left, Bool.not_eq_true']
  tauto

section

variable (h : t.Represents traits entries)
include h

theorem Represents.ncard_withoutIf_le (functor : Value → Bool) :
    {x | (withoutIf entries functor x).isSome}.ncard ≤ t.keyCount.toNat := by
  have hsize : t.keyCount.toNat = {x | (entries x).isSome}.ncard := h.size_eq
  rw [hsize]
  refine Set.ncard_le_ncard (fun x hx => ?_) h.finite
  obtain ⟨a, ha⟩ := isSome_iff_exists.mp hx
  rw [withoutIf, filter_eq_some_iff] at ha
  exact isSome_iff_exists.mpr ⟨a, ha.1⟩

theorem Represents.removeIf (functor : Value → Bool)
    (hlose : t.CanLose traits {x | (withoutIf entries functor x).isSome}.ncard) :
    ∃ t', t.removeIf traits functor = .ok t' ∧
      t'.Represents traits (withoutIf entries functor) := by
  rw [HashTable.removeIf]
  rcases h.cases with ⟨hnull, hents⟩ | ⟨memory, hstores, hroom⟩
  · have hshrink : ¬ t.shouldShrink traits = true := by
      rw [shouldShrink_iff, hnull.tableSize_eq]
      simp
    refine ⟨t, ?_, ?_⟩
    · rw [hnull.tableSize_eq]
      change t.shrinkIfNeeded traits = _
      rw [shrinkIfNeeded, if_neg hshrink]
      rfl
    · have hfun : withoutIf entries functor = fun _ => none := by
        funext x
        rw [withoutIf, hents x]
        rfl
      rw [hfun]
      exact hnull.represents
  · obtain ⟨t1, memory1, heq, hpres, hroom1, hsize⟩ := hstores.filter hroom functor
    have hkeys : t1.keyCount.toNat = {x | (withoutIf entries functor x).isSome}.ncard :=
      (hpres.represents hroom1).size_eq
    have hlose1 : t1.CanLose traits t1.keyCount.toNat := by
      rw [hkeys, CanLose, hsize]
      exact hlose
    obtain ⟨t', heq', hrep⟩ := hpres.shrinkIfNeeded hroom1 hlose1
    refine ⟨t', ?_, hrep⟩
    rw [heq]
    exact heq'

theorem Represents.clear :
    t.clear.Represents traits fun _ => none := by
  refine Null.represents ?_
  rcases h.cases with ⟨hnull, -⟩ | ⟨memory, hstores, -⟩
  · rw [HashTable.clear, hnull.table_eq]
    exact hnull
  · rw [HashTable.clear, hstores.table_eq]
    exact ⟨rfl, rfl, rfl⟩

end

theorem create_null : (create : HashTable Value).Null := ⟨rfl, rfl, rfl⟩

/-- The entries in the first buckets. -/
structure Copied (traits : HashTraits Key Value) (memory : List Value)
    (entries : Key → Option Value) (i : ℕ) (t : HashTable Value) : Prop where
  represents : ∃ entries', t.Represents traits entries' ∧ ∀ x a, entries' x = some a ↔
    entries x = some a ∧ ∃ j < i, slotAt traits memory j = .full a
  keyCount_eq : t.keyCount.toNat = fullCount traits (memory.take i)
  deletedCount_eq : t.deletedCount = 0

theorem Copied.succ {t0 : HashTable Value} (hstores : t0.Stores traits memory entries)
    (hcopy : t0.keyCount.toNat < 2 ^ 30) (h : Copied traits memory entries i t)
    (hi : i < memory.length) :
    ∃ t', copyBucket traits memory t i = .ok t' ∧ Copied traits memory entries (i + 1) t' := by
  obtain ⟨entries', hrep, hents⟩ := h.represents
  have hcount := fullCount_take_succ traits hi
  have hslot : slotAt traits memory i = traits.slot memory[i] := slotAt_of_lt hi
  rw [copyBucket, load_eq hi]
  dsimp only [bind, Except.bind]
  cases hb : traits.isEmptyOrDeletedBucket memory[i] with
  | true =>
    refine ⟨t, rfl, ⟨entries', hrep, fun x a => ?_⟩, ?_, h.deletedCount_eq⟩
    · rw [hents x a]
      refine and_congr_right fun _ => ⟨fun ⟨j, hj, ha⟩ => ⟨j, Nat.lt_succ_of_lt hj, ha⟩, ?_⟩
      rintro ⟨j, hj, ha⟩
      refine ⟨j, lt_of_le_of_ne (Nat.le_of_lt_succ hj) ?_, ha⟩
      rintro rfl
      rw [hslot] at ha
      exact isEmptyOrDeletedBucket_iff.mp hb a ha
    · rw [hcount, hb]
      exact h.keyCount_eq
  | false =>
    have hfull : slotAt traits memory i = .full memory[i] := by
      rw [hslot, ← not_isEmptyOrDeletedBucket_iff, hb]
      rfl
    have hentry := hstores.of_full hfull
    have hvalid := (hstores.valid hentry).1
    have hnone : entries' (traits.extract memory[i]) = none := by
      cases he : entries' (traits.extract memory[i]) with
      | none => rfl
      | some a =>
        obtain ⟨ha, j, hj, hslotj⟩ := (hents _ a).mp he
        rw [hentry] at ha
        cases ha
        exact absurd (hstores.unique j i _ _ hslotj hfull rfl) hj.ne
    have hle := fullCount_take_le traits memory (i + 1)
    rw [hcount, hb, ← h.keyCount_eq, ← hstores.keyCount_eq] at hle
    obtain ⟨t', p, heq, hrep', -, hkeys, hdel⟩ := hrep.add hvalid fun _ _ => by
      rw [h.deletedCount_eq]
      refine .inl ?_
      change t.keyCount.toNat + 0 + 1 < _
      simp only [Bool.false_eq_true, if_false] at hle
      omega
    rw [hnone] at heq hkeys
    refine ⟨t', ?_, ⟨_, hrep', fun x a => ?_⟩, ?_, ?_⟩
    · rw [if_neg Bool.false_ne_true, heq]
      rfl
    · rw [withEntry, hnone]
      by_cases hx : x = traits.extract memory[i]
      · subst hx
        rw [update_self, hentry]
        constructor
        · rintro ⟨⟩
          exact ⟨rfl, i, Nat.lt_succ_self i, hfull⟩
        · rintro ⟨⟨⟩, -⟩
          rfl
      · rw [update_of_ne hx, hents x a]
        refine and_congr_right fun ha => ⟨fun ⟨j, hj, hs⟩ => ⟨j, Nat.lt_succ_of_lt hj, hs⟩, ?_⟩
        rintro ⟨j, hj, hs⟩
        refine ⟨j, lt_of_le_of_ne (Nat.le_of_lt_succ hj) ?_, hs⟩
        rintro rfl
        rw [hfull] at hs
        cases hs
        exact hx (hstores.valid ha).2.symm
    · rw [hkeys, hcount, hb, ← h.keyCount_eq]
      exact Nat.mod_eq_of_lt (by simp; omega)
    · rw [h.deletedCount_eq] at hdel
      exact UInt32.toNat_inj.mp (Nat.le_zero.mp hdel)

theorem Represents.copy (h : t.Represents traits entries) (hcopy : t.keyCount.toNat < 2 ^ 30) :
    ∃ t', t.copy traits = .ok t' ∧ t'.Represents traits entries := by
  rcases h.cases with ⟨hnull, hents⟩ | ⟨memory, hstores, hroom⟩
  · refine ⟨create, ?_, ?_⟩
    · rw [HashTable.copy, if_pos (by rw [isEmpty, hnull.keyCount_eq]; rfl)]
      rfl
    · obtain rfl : entries = fun _ => none := funext hents
      exact create_null.represents
  rw [HashTable.copy]
  by_cases hempty : t.isEmpty = true
  · rw [if_pos hempty]
    refine ⟨create, rfl, ?_⟩
    have hzero : t.keyCount.toNat = 0 := by
      rw [isEmpty, decide_eq_true_eq] at hempty
      rw [hempty]
      rfl
    have hnone : entries = fun _ => none := by
      funext x
      cases hx : entries x with
      | none => rfl
      | some a =>
        obtain ⟨-, i, hi⟩ := (hstores.present_iff x a).mpr hx
        have hcount := fullCount_delete hi
        rw [← hstores.keyCount_eq] at hcount
        omega
    rw [hnone]
    exact create_null.represents
  · rw [if_neg hempty, hstores.buckets_eq]
    obtain ⟨t', heq, hcopied⟩ := foldlM_range (I := fun i t' => Copied traits memory entries i t')
      (f := copyBucket traits memory) (n := t.tableSize.toNat) (s := create)
      ⟨⟨_, create_null.represents, fun x a => by simp⟩, rfl, rfl⟩ fun i hi t' hc =>
        hc.succ hstores hcopy (by rwa [← hstores.tableSize_eq])
    obtain ⟨entries', hrep, hents⟩ := hcopied.represents
    refine ⟨t', heq, ?_⟩
    have hsame : entries' = entries := by
      funext x
      refine ext fun a => ?_
      rw [hents x a]
      refine ⟨And.left, fun ha => ⟨ha, ?_⟩⟩
      obtain ⟨-, j, hj⟩ := (hstores.present_iff x a).mpr ha
      obtain ⟨hlt, -⟩ := slotAt_eq_full hj
      exact ⟨j, by rwa [hstores.tableSize_eq], hj⟩
    rwa [← hsame]

end HashTable

end WebKit.WTF
