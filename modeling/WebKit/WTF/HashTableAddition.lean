import WebKit.WTF.HashTableBalance
import WebKit.WTF.HashTableRun

/-!
# Tables that only get entries

`add` does not test the key it is given. A value with the key of the empty or of the deleted
value is written to a bucket and counted, but no iterator meets it: the buckets with entries get
no more than one for each valid key that is added (`add_fullCount`). A table to which nothing but
valid keys is added is less than half full as long as that succeeds (`Represents.add_roomy`), so
its number of entries stays below `2 ^ 30`.
-/

namespace WebKit.WTF

open Transition Probing List

variable {Key Value : Type} [DecidableEq Key] {traits : HashTraits Key Value}
  {memory : List Value} {value : Value} {i : ℕ}

/-- What a bucket with the value counts. -/
def bucketCount (traits : HashTraits Key Value) (value : Value) : ℕ :=
  if traits.isEmptyOrDeletedBucket value then 0 else 1

theorem fullCount_set_le (i : ℕ) (value : Value) : fullCount traits (memory.set i value) ≤
      fullCount traits memory + bucketCount traits value := by
  by_cases hi : i < memory.length
  · rw [fullCount, fullCount, countP_set hi, bucketCount]
    cases traits.isEmptyOrDeletedBucket value <;> simp
  · rw [set_eq_of_length_le (Nat.not_lt.mp hi)]
    exact Nat.le_add_right _ _

theorem bucketCount_emptyValue : bucketCount traits traits.emptyValue = 0 := by
  simp [bucketCount, HashTraits.isEmptyOrDeletedBucket, HashTraits.isEmptyBucket]

theorem bucketCount_le_one (value : Value) : bucketCount traits value ≤ 1 := by
  unfold bucketCount
  split <;> decide

theorem bucketCount_eq_one : bucketCount traits value = 1 ↔
    traits.ValidKey (traits.extract value) := by
  simp [bucketCount, HashTraits.isEmptyOrDeletedBucket, HashTraits.isEmptyBucket,
    HashTraits.isDeletedBucket, HashTraits.ValidKey]

namespace HashTable

variable {t t' : HashTable Value} {entries : Key → Option Value}

/-- The values that an iteration from `begin` to `end` meets. -/
def toList (t : HashTable Value) (traits : HashTraits Key Value) : List Value :=
  if t.isEmpty then []
  else t.buckets.filter fun value => !traits.isEmptyOrDeletedBucket value

theorem length_toList_le (t : HashTable Value) :
    (t.toList traits).length ≤ fullCount traits t.buckets := by
  unfold toList
  split
  · exact Nat.zero_le _
  · rw [fullCount, countP_eq_length_filter]

section

variable (traits : HashTraits Key Value) (t : HashTable Value)

theorem write_fullCount (i : ℕ) (value : Value) : Outcome (fun _ => True)
      (fun t' => fullCount traits t'.buckets ≤
        fullCount traits t.buckets + bucketCount traits value)
      (t.write i value) := by
  rw [write]
  by_cases hi : i < t.buckets.length
  · rw [store_eq hi]
    exact fullCount_set_le i value
  · rw [store, if_neg hi]
    trivial

theorem reinsert_fullCount (value : Value) : Outcome (fun _ => True)
      (fun r => fullCount traits r.1.buckets ≤
        fullCount traits t.buckets + bucketCount traits value)
      (t.reinsert traits value) :=
  (outcome_any (t.lookupForWriting traits (traits.extract value))).bind fun place _ =>
    (write_fullCount traits t place.1 value).bind fun _ ht => Outcome.pure ht

theorem rehash_fullCount (newTableSize : UInt32) (entry : Option ℕ) : Outcome (fun _ => True)
      (fun r => fullCount traits r.1.buckets ≤ fullCount traits t.buckets)
      (t.rehash traits newTableSize entry) := by
  have hloop : ∀ n (r : HashTable Value × Option ℕ), fullCount traits r.1.buckets = 0 →
      Outcome (fun _ => True)
        (fun r' => fullCount traits r'.1.buckets ≤ fullCount traits (t.buckets.take n))
        ((List.range n).foldlM (rehashBucket traits t.buckets entry) r) := by
    intro n r hr
    induction n with
    | zero => exact Outcome.pure (by rw [hr]; exact Nat.zero_le _)
    | succ n ih =>
      rw [range_succ, foldlM_append]
      refine ih.bind fun r' hr' => ?_
      have hstep : Outcome (fun _ => True)
          (fun r'' => fullCount traits r''.1.buckets ≤ fullCount traits (t.buckets.take (n + 1)))
          (rehashBucket traits t.buckets entry r' n) := by
        rw [rehashBucket]
        by_cases hn : n < t.buckets.length
        · rw [load_eq hn]
          dsimp only [bind, Except.bind]
          rw [fullCount_take_succ traits hn]
          split
          · exact Outcome.pure hr'
          · rename_i hfull
            have hcount : bucketCount traits t.buckets[n] = 1 := if_neg hfull
            refine (reinsert_fullCount traits r'.1 t.buckets[n]).bind fun r'' hr'' => ?_
            rw [hcount] at hr''
            exact Outcome.pure (hr''.trans (Nat.add_le_add_right hr' 1))
        · rw [load, List.getElem?_eq_none (Nat.not_lt.mp hn)]
          trivial
      exact hstep.bind fun r'' hr'' => Outcome.pure hr''
  refine (hloop _ _ (fullCount_allocateTable _)).bind fun r hr => Outcome.pure ?_
  exact hr.trans (fullCount_take_le traits _ _)

theorem addAt_fullCount (i : ℕ) (value : Value) : Outcome (fun _ => True)
      (fun r => fullCount traits r.1.buckets ≤
        fullCount traits t.buckets + bucketCount traits value)
      (t.addAt traits i value) := by
  refine (write_fullCount traits t i value).bind fun t1 ht1 => ?_
  dsimp only
  split
  · exact (rehash_fullCount traits _ _ _).bind fun r hr => Outcome.pure (le_trans hr ht1)
  · exact Outcome.pure ht1

theorem add_fullCount (value : Value) : Outcome (fun _ => True)
      (fun r => fullCount traits r.1.buckets ≤
        fullCount traits t.buckets + bucketCount traits value)
      (t.add traits value) := by
  have halloc : Outcome (fun _ => True)
      (fun t' : HashTable Value => fullCount traits t'.buckets ≤ fullCount traits t.buckets)
      (t.allocateIfNeeded traits) := by
    rw [allocateIfNeeded]
    split
    · exact (rehash_fullCount traits _ _ _).bind fun r hr => Outcome.pure hr
    · exact Outcome.pure le_rfl
  refine halloc.bind fun t1 ht1 => ?_
  refine (outcome_any (t1.probe traits _ _)).bind fun r _ => ?_
  split
  · exact Outcome.pure (ht1.trans (Nat.le_add_right _ _))
  · split
    · rename_i i _
      have hrevive : Outcome (fun _ => True)
          (fun t2 : HashTable Value => fullCount traits t2.buckets ≤ fullCount traits t.buckets)
          (t1.reviveBucket traits i) := by
        refine (write_fullCount traits t1 i traits.emptyValue).bind fun t2 ht2 => ?_
        rw [bucketCount_emptyValue, add_zero] at ht2
        exact Outcome.pure (ht2.trans ht1)
      exact hrevive.bind fun t2 ht2 =>
        (addAt_fullCount traits t2 i value).mono fun r hr => hr.trans (Nat.add_le_add_right ht2 _)
    · exact (addAt_fullCount traits t1 r.entry value).mono fun r hr =>
        hr.trans (Nat.add_le_add_right ht1 _)

end

/-! ## The load of a table that only got entries -/

/-- The load of a table with buckets, none of which is deleted. -/
structure Roomy (t : HashTable Value) : Prop where
  size_pow : ∃ s < 32, t.tableSize.toNat = 2 ^ s
  two_le : 2 ≤ t.tableSize.toNat
  half : 2 * t.keyCount.toNat < t.tableSize.toNat
  deletedCount_eq : t.deletedCount = 0

def IsRoomy (t : HashTable Value) : Prop := t.Null ∨ t.Roomy

theorem IsRoomy.keyCount_lt (h : t.IsRoomy) : t.keyCount.toNat < 2 ^ 30 := by
  rcases h with hnull | hroomy
  · rw [hnull.keyCount_eq]
    decide
  · have hhalf := hroomy.half
    obtain ⟨-, hcases⟩ := size_cases hroomy.size_pow
    omega

theorem IsRoomy.of_layout (hr : t.IsRoomy) (h : t.Layout traits memory) : t.Roomy := by
  refine hr.resolve_left fun hnull => ?_
  have htable := h.table_eq
  rw [hnull.table_eq] at htable
  cases htable

theorem Stores.not_deleted (h : t.Stores traits memory entries) (hdel : t.deletedCount = 0)
    (hi : i < memory.length) : slotAt traits memory i ≠ .deleted := by
  intro hslot
  rw [slotAt_of_lt hi] at hslot
  have hpos : 0 < tombstoneCount traits memory :=
    countP_pos_iff.mpr ⟨_, getElem_mem hi, HashTraits.isDeletedBucket_iff.mpr hslot⟩
  rw [← h.deletedCount_eq, hdel] at hpos
  exact absurd hpos (lt_irrefl 0)

/-- A table that gets half full doubles; the largest one is left without buckets. -/
theorem Roomy.addAt (h : t.Roomy) (traits : HashTraits Key Value) (i : ℕ) (value : Value) :
    Outcome (fun _ => True) (fun r => r.1.tableSize.toNat = 0 ∨ r.1.Roomy)
      (t.addAt traits i value) := by
  refine (write_load t i value).bind fun t1 ⟨hsize, hkeys, hdel⟩ => ?_
  have htwo := h.two_le
  have hhalf := h.half
  obtain ⟨-, hcases⟩ := size_cases h.size_pow
  let t2 : HashTable Value := { t1 with keyCount := t1.keyCount + 1 }
  have hsize2 : t2.tableSize.toNat = t.tableSize.toNat := congrArg UInt32.toNat hsize
  have hkeys2 : t2.keyCount.toNat = t.keyCount.toNat + 1 := by
    change (t1.keyCount + 1).toNat = _
    rw [hkeys, UInt32.toNat_add]
    exact Nat.mod_eq_of_lt (by change _ + 1 < _; omega)
  have hdel2 : t2.deletedCount = 0 := hdel.trans h.deletedCount_eq
  have hpow2 : ∃ s < 32, t2.tableSize.toNat = 2 ^ s := by
    rw [hsize2]
    exact h.size_pow
  by_cases hexpand : t2.shouldExpand = true
  · rw [if_pos hexpand]
    rw [shouldExpand_iff, hdel2, hsize2, hkeys2, UInt32.toNat_zero,
      Nat.mod_eq_of_lt (by omega), Nat.mod_eq_of_lt (by omega)] at hexpand
    have hnotInPlace : ¬ t2.mustRehashInPlace = true := by
      rw [mustRehashInPlace_iff, hsize2, hkeys2]
      rcases hcases with hsmall | hmiddle | hlarge
      · rw [Nat.mod_eq_of_lt (by omega), Nat.mod_eq_of_lt (by omega)]
        omega
      · omega
      · rw [hlarge]
        exact Nat.not_lt_zero _
    have hexp := @expandedSize_toNat _ _ traits t2 hpow2
    rw [if_neg hnotInPlace, hsize2] at hexp
    refine (rehash_load traits t2 (t2.expandedSize traits) (some i)).bind fun r hr => ?_
    obtain ⟨hsize3, hkeys3, hdel3⟩ := hr
    rw [← hsize3] at hexp
    refine Outcome.pure ?_
    change r.1.tableSize.toNat = 0 ∨ r.1.Roomy
    by_cases hlargest : t.tableSize.toNat = 2 ^ 31
    · left
      rw [hexp, hlargest]
      rfl
    · rw [Nat.mod_eq_of_lt (by omega)] at hexp
      refine .inr ⟨?_, by omega, ?_, hdel3⟩
      · rw [hexp]
        exact size_double h.size_pow (by omega)
      · rw [hexp, hkeys3, hkeys2]
        omega
  · rw [if_neg hexpand]
    rw [shouldExpand_iff, hdel2, hsize2, hkeys2, UInt32.toNat_zero,
      Nat.mod_eq_of_lt (by omega), Nat.mod_eq_of_lt (by omega)] at hexpand
    have hroomy : t2.Roomy := ⟨hpow2, by omega, by omega, hdel2⟩
    exact Outcome.pure (.inr hroomy)

section

variable (h : t.Represents traits entries)
include h

theorem Represents.allocateIfNeeded_roomy (hr : t.IsRoomy)
    (hmin : 2 ≤ traits.minimumTableSize.toNat) :
    Outcome (fun _ => True) Roomy (t.allocateIfNeeded traits) := by
  refine h.allocateIfNeeded_cases (fun r hsize hkeys hdel => ⟨?_, ?_, ?_, hdel⟩)
    fun memory hstores => hr.of_layout hstores.toLayout
  · rw [hsize]
    exact traits.minimumTableSize_eq
  · rw [hsize]
    exact hmin
  · rw [hsize, hkeys]
    exact Nat.zero_lt_of_lt hmin

theorem Represents.add_roomy (hr : t.IsRoomy)
    (hmin : 2 ≤ traits.minimumTableSize.toNat) (hvalid : traits.ValidKey (traits.extract value)) :
    Outcome (fun _ => True) (fun r => r.1.tableSize.toNat = 0 ∨ r.1.Roomy)
      (t.add traits value) := by
  obtain ⟨t1, memory, halloc, hstores, hroom, -⟩ := h.allocateIfNeeded (traits.extract value)
  have hroomy : t1.Roomy := (h.allocateIfNeeded_roomy hr hmin).of_ok halloc
  obtain ⟨k, hk⟩ := hstores.exists_empty hroom
  obtain ⟨r, hprobe, -, hnot⟩ := hstores.probe_writing hk hvalid
  refine Outcome.bind_of_eq_ok halloc (Outcome.bind_of_eq_ok hprobe ?_)
  cases hfound : r.found with
  | true => exact Outcome.pure (.inr hroomy)
  | false =>
    cases hd : r.deletedEntry with
    | none => exact hroomy.addAt traits r.entry value
    | some i =>
      obtain ⟨⟨m, rfl, -⟩, hslot⟩ := (hnot hfound).2.2.1 i hd
      have hi := hstores.masked.probeAt_lt traits (traits.extract value) m
      exact absurd hslot (hstores.not_deleted hroomy.deletedCount_eq hi)

theorem Represents.isRoomy (hr : t.tableSize.toNat = 0 ∨ t.Roomy) : t.IsRoomy := by
  rcases h.wellFormed with hnull | ⟨memory, -, hroom⟩
  · exact .inl hnull
  · have hlt := hroom.lt
    exact .inr (hr.resolve_left (by omega))

end

/-- With a valid key that has no entry `add` succeeds, unless the largest table gets half
full. -/
theorem Represents.canGain_or_fails (h : t.Represents traits entries) (hr : t.IsRoomy)
    (hvalid : traits.ValidKey (traits.extract value))
    (hnone : entries (traits.extract value) = none) :
    t.CanGain traits (traits.extract value) ∨
      2 ^ 30 ≤ t.keyCount.toNat + 1 ∧ t.add traits value = .error .badAccess := by
  rcases h.cases with ⟨hnull, -⟩ | ⟨memory, hstores, hroom⟩
  · refine .inl fun hlarge => ?_
    rw [hnull.tableSize_eq] at hlarge
    cases hlarge
  · have hroomy := hr.of_layout hstores.toLayout
    by_cases hlarge : t.tableSize.toNat = 2 ^ 31 ∧ 2 ^ 30 ≤ t.keyCount.toNat + 1
    · exact .inr ⟨hlarge.2, hstores.add_fails hroom hlarge.1 hlarge.2 hroomy.deletedCount_eq
        hvalid hnone⟩
    · refine .inl fun hsize => .inl ?_
      rw [hroomy.deletedCount_eq, UInt32.toNat_zero]
      omega

/-! ## Tables that values were added to -/

/-- The table has got the values, one after another, and each had a new valid key. -/
structure Filled (t : HashTable Value) (traits : HashTraits Key Value) (values : List Value) :
    Prop where
  represents : ∃ entries, t.Represents traits entries ∧
    ∀ key value, entries key = some value ↔ value ∈ values ∧ traits.extract value = key
  isRoomy : t.IsRoomy
  keyCount_eq : t.keyCount.toNat = values.length
  keys_nodup : (values.map traits.extract).Nodup
  valid : ∀ value ∈ values, traits.ValidKey (traits.extract value)

theorem create_filled (traits : HashTraits Key Value) : Filled create traits [] where
  represents := ⟨_, create_null.represents, by simp⟩
  isRoomy := .inl create_null
  keyCount_eq := rfl
  keys_nodup := nodup_nil
  valid := by simp

namespace Filled

variable {values : List Value}

theorem length_lt (h : t.Filled traits values) : values.length < 2 ^ 30 := by
  rw [← h.keyCount_eq]
  exact h.isRoomy.keyCount_lt

omit [DecidableEq Key] in
theorem entries_eq_none_iff {entries : Key → Option Value} {key : Key}
    (h : ∀ key value, entries key = some value ↔ value ∈ values ∧ traits.extract value = key) :
    entries key = none ↔ key ∉ values.map traits.extract := by
  rw [← not_iff_not, ← ne_eq, Option.ne_none_iff_exists', not_not, mem_map]
  exact exists_congr fun value => h key value

section

variable (h : t.Filled traits values) (hmin : 2 ≤ traits.minimumTableSize.toNat)
  (hvalid : traits.ValidKey (traits.extract value))
include h hmin hvalid

theorem add_of_canGain (hnew : traits.extract value ∉ values.map traits.extract)
    (hgain : t.CanGain traits (traits.extract value)) :
    ∃ t' p, t.add traits value = .ok (t', ⟨some p, true⟩) ∧
      t'.Filled traits (values ++ [value]) := by
  obtain ⟨entries, hrep, hents⟩ := h.represents
  have hnone := (entries_eq_none_iff hents).mpr hnew
  obtain ⟨t', p, heq, hrep', -, hkeys, -⟩ := hrep.add hvalid fun _ => hgain
  rw [hnone] at heq hkeys
  have hroomy := hrep'.isRoomy ((hrep.add_roomy h.isRoomy hmin hvalid).of_ok heq)
  refine ⟨t', p, heq, ⟨_, hrep', fun key a => ?_⟩, hroomy, ?_, ?_, ?_⟩
  · rw [withEntry, hnone, Option.getD_none, mem_append, mem_singleton]
    by_cases hkey : key = traits.extract value
    · subst hkey
      rw [Function.update_self]
      constructor
      · intro ha
        cases ha
        exact ⟨.inr rfl, rfl⟩
      · rintro ⟨ha | rfl, hextract⟩
        · exact absurd (mem_map.mpr ⟨a, ha, hextract⟩) hnew
        · rfl
    · rw [Function.update_of_ne hkey, hents]
      constructor
      · exact fun ha => ⟨.inl ha.1, ha.2⟩
      · rintro ⟨ha | rfl, hextract⟩
        · exact ⟨ha, hextract⟩
        · exact absurd hextract.symm hkey
  · have hlt := h.isRoomy.keyCount_lt
    change t'.keyCount = t.keyCount + 1 at hkeys
    rw [hkeys, UInt32.toNat_add, h.keyCount_eq, length_append]
    rw [h.keyCount_eq] at hlt
    exact Nat.mod_eq_of_lt (by change _ + 1 < _; omega)
  · rw [map_append, nodup_append]
    refine ⟨h.keys_nodup, nodup_singleton _, fun key hkey key' hkey' => ?_⟩
    rw [mem_singleton.mp hkey']
    exact fun heq => hnew (heq ▸ hkey)
  · intro a ha
    rcases mem_append.mp ha with ha | ha
    · exact h.valid a ha
    · rwa [mem_singleton.mp ha]

theorem of_add {r : AddResult}
    (hadd : t.add traits value = .ok (t', r)) (hnew : r.isNewEntry = true) :
    t'.Filled traits (values ++ [value]) := by
  obtain ⟨entries, hrep, hents⟩ := h.represents
  cases hnone : entries (traits.extract value) with
  | none =>
    rcases hrep.canGain_or_fails h.isRoomy hvalid hnone with hgain | ⟨-, hfails⟩
    · obtain ⟨t'', p, heq, hfilled⟩ :=
        h.add_of_canGain hmin hvalid ((entries_eq_none_iff hents).mp hnone) hgain
      rw [hadd] at heq
      cases heq
      exact hfilled
    · rw [hadd] at hfails
      cases hfails
  | some a =>
    obtain ⟨t'', p, heq, -⟩ := hrep.add hvalid fun h => by rw [hnone] at h; cases h
    rw [hadd, hnone] at heq
    cases heq
    cases hnew

theorem add (hnew : traits.extract value ∉ values.map traits.extract)
    (hlt : values.length + 1 < 2 ^ 30) :
    ∃ t' p, t.add traits value = .ok (t', ⟨some p, true⟩) ∧
      t'.Filled traits (values ++ [value]) := by
  obtain ⟨entries, hrep, hents⟩ := h.represents
  have hnone := (entries_eq_none_iff hents).mpr hnew
  rcases hrep.canGain_or_fails h.isRoomy hvalid hnone with hgain | ⟨hle, -⟩
  · exact h.add_of_canGain hmin hvalid hnew hgain
  · rw [h.keyCount_eq] at hle
    omega

end

theorem lookup (h : t.Filled traits values) (hvalue : value ∈ values) :
    ∃ p, t.lookup traits (traits.extract value) = .ok (some p) ∧ t.buckets[p]? = some value := by
  obtain ⟨entries, hrep, hents⟩ := h.represents
  have hentry := (hents _ value).mpr ⟨hvalue, rfl⟩
  obtain ⟨p, hp, hbucket, -⟩ := hrep.lookup (h.valid value hvalue)
  rw [hentry] at hbucket
  cases p with
  | none => cases hbucket
  | some p => exact ⟨p, hp, hbucket⟩

theorem toList_perm (h : t.Filled traits values) : (t.toList traits).Perm values := by
  obtain ⟨entries, hrep, hents⟩ := h.represents
  by_cases hempty : t.isEmpty = true
  · rw [toList, if_pos hempty]
    rw [isEmpty, decide_eq_true_eq] at hempty
    have hlen := h.keyCount_eq
    rw [hempty] at hlen
    rw [eq_nil_of_length_eq_zero hlen.symm]
  rcases hrep.cases with ⟨hnull, -⟩ | ⟨memory, hstores, -⟩
  · rw [isEmpty, hnull.keyCount_eq] at hempty
    exact absurd rfl hempty
  rw [toList, if_neg hempty, hstores.buckets_eq]
  refine (perm_ext_iff_of_nodup ?_ h.keys_nodup.of_map).mpr fun a => ?_
  · rw [List.Nodup, pairwise_filter, pairwise_iff_getElem]
    intro i j hi hj hij hfull hfull' heq
    have hslot : slotAt traits memory i = .full memory[i] := by
      rw [slotAt_of_lt hi, HashTraits.not_isEmptyOrDeletedBucket_iff.mp hfull]
    have hslot' : slotAt traits memory j = .full memory[j] := by
      rw [slotAt_of_lt hj, HashTraits.not_isEmptyOrDeletedBucket_iff.mp hfull']
    exact absurd (hstores.unique i j _ _ hslot hslot' (congrArg _ heq)) (ne_of_lt hij)
  · rw [mem_filter, HashTraits.not_isEmptyOrDeletedBucket_iff]
    constructor
    · rintro ⟨hmem, hfull⟩
      obtain ⟨i, hi, rfl⟩ := mem_iff_getElem.mp hmem
      have hslot : slotAt traits memory i = .full memory[i] := by rw [slotAt_of_lt hi, hfull]
      exact ((hents _ _).mp (hstores.of_full hslot)).1
    · intro ha
      obtain ⟨-, i, hi⟩ := (hstores.present_iff _ _).mpr ((hents _ a).mpr ⟨ha, rfl⟩)
      obtain ⟨hlt, rfl, hfull, -⟩ := slotAt_eq_full hi
      exact ⟨getElem_mem hlt, hfull⟩

end Filled

end HashTable

end WebKit.WTF
