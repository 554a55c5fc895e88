import WebKit.WTF.HashTableUpdate

/-!
# The load of `HashTable`

A table is balanced when it is neither too full nor too empty for its size. `add` and `remove`
keep this. `removeIf` halves the size only once, so it keeps the balance only if that is enough.
The arithmetic on `unsigned` limits the keys to a sixth of `2 ^ 32`.
-/

namespace WebKit.WTF

open Transition Probing

variable {Key Value : Type} [DecidableEq Key] {traits : HashTraits Key Value}
  {memory : List Value} {value : Value} {key : Key} {i n : ℕ}

namespace HashTable

variable {t t' : HashTable Value} {entries : Key → Option Value}

/-- The load of a table with buckets. -/
structure Balanced (t : HashTable Value) (traits : HashTraits Key Value) : Prop where
  minimum_le : traits.minimumTableSize.toNat ≤ t.tableSize.toNat
  full : 2 * (t.keyCount.toNat + t.deletedCount.toNat) < t.tableSize.toNat
  sparse : traits.minimumTableSize.toNat < t.tableSize.toNat →
    t.tableSize.toNat ≤ 6 * t.keyCount.toNat
  keyCount_lt : 6 * t.keyCount.toNat < 2 ^ 32

def IsBalanced (t : HashTable Value) (traits : HashTraits Key Value) : Prop :=
  t.Null ∨ t.Balanced traits

omit [DecidableEq Key] in
theorem Balanced.not_shouldExpand (h : t.Balanced traits) : t.shouldExpand = false := by
  have hfull := h.full
  have hlt := t.tableSize.toNat_lt
  rw [Bool.eq_false_iff, ne_eq, shouldExpand_iff, Nat.mod_eq_of_lt (by omega),
    Nat.mod_eq_of_lt (by omega)]
  omega

omit [DecidableEq Key] in
theorem Balanced.not_shouldShrink (h : t.Balanced traits) : t.shouldShrink traits = false := by
  have hsparse := h.sparse
  have hkeys := h.keyCount_lt
  rw [Bool.eq_false_iff, ne_eq, shouldShrink_iff, Nat.mod_eq_of_lt (by omega)]
  omega

theorem two_mul_le_of_pow_lt {m n : ℕ} (hm : ∃ s < 32, m = 2 ^ s) (hn : ∃ s < 32, n = 2 ^ s)
    (hlt : m < n) : 2 * m ≤ n := by
  obtain ⟨s, -, rfl⟩ := hm
  obtain ⟨r, -, rfl⟩ := hn
  have hsr : s < r := (Nat.pow_lt_pow_iff_right (by decide)).mp hlt
  calc 2 * 2 ^ s = 2 ^ (s + 1) := (Nat.pow_succ' ..).symm
    _ ≤ 2 ^ r := Nat.pow_le_pow_right (by decide) hsr

/-! ## Sizes and counts -/

/-- The size and the counts are the same. -/
def SameLoad (t t' : HashTable Value) : Prop :=
  t'.tableSize = t.tableSize ∧ t'.keyCount = t.keyCount ∧ t'.deletedCount = t.deletedCount

theorem outcome_any {α : Type} (x : Except Failure α) :
    Outcome (fun _ => True) (fun _ => True) x := by
  cases x <;> trivial

theorem write_load (t : HashTable Value) (i : ℕ) (value : Value) :
    Outcome (fun _ => True) (SameLoad t) (t.write i value) :=
  (outcome_any (store t.buckets i value)).bind fun _ _ => Outcome.pure ⟨rfl, rfl, rfl⟩

section

variable (traits : HashTraits Key Value)

theorem reinsert_load (t : HashTable Value) (value : Value) :
    Outcome (fun _ => True) (fun r => SameLoad t r.1) (t.reinsert traits value) :=
  (outcome_any (t.lookupForWriting traits (traits.extract value))).bind fun place _ =>
    (write_load t place.1 value).bind fun _ ht => Outcome.pure ht

theorem rehashBucket_load (oldTable : List Value)
    (entry : Option ℕ) (r : HashTable Value × Option ℕ) (i : ℕ) :
    Outcome (fun _ => True) (fun r' => SameLoad r.1 r'.1)
      (rehashBucket traits oldTable entry r i) := by
  refine (outcome_any (load oldTable i)).bind fun value _ => ?_
  split
  · exact Outcome.pure ⟨rfl, rfl, rfl⟩
  · exact (reinsert_load traits r.1 value).bind fun _ hr => Outcome.pure hr

theorem rehash_load (t : HashTable Value) (newTableSize : UInt32)
    (entry : Option ℕ) :
    Outcome (fun _ => True)
      (fun r => r.1.tableSize = newTableSize ∧ r.1.keyCount = t.keyCount ∧ r.1.deletedCount = 0)
      (t.rehash traits newTableSize entry) := by
  have hloop : ∀ (places : List ℕ) (r : HashTable Value × Option ℕ),
      Outcome (fun _ => True) (fun r' => SameLoad r.1 r'.1)
        (places.foldlM (rehashBucket traits t.buckets entry) r) := by
    intro places
    induction places with
    | nil => exact fun r => Outcome.pure ⟨rfl, rfl, rfl⟩
    | cons i places ih =>
      intro r
      refine (rehashBucket_load traits t.buckets entry r i).bind fun r' hr' => ?_
      refine (ih r').mono fun r'' hr'' => ?_
      exact ⟨hr''.1.trans hr'.1, hr''.2.1.trans hr'.2.1, hr''.2.2.trans hr'.2.2⟩
  exact (hloop _ _).bind fun r hr => Outcome.pure ⟨hr.1, hr.2.1, rfl⟩

end

omit [DecidableEq Key] in
theorem reviveBucket_load (traits : HashTraits Key Value) (t : HashTable Value) (i : ℕ) :
    Outcome (fun _ => True) (fun t' => t'.tableSize = t.tableSize ∧ t'.keyCount = t.keyCount ∧
        t'.deletedCount = t.deletedCount - 1)
      (t.reviveBucket traits i) :=
  (write_load t i traits.emptyValue).bind fun _ ⟨hsize, hkeys, hdel⟩ =>
    Outcome.pure ⟨hsize, hkeys, congrArg (· - 1) hdel⟩

omit [DecidableEq Key] in
theorem deleteEntry_load (traits : HashTraits Key Value) (t : HashTable Value) (i : ℕ) :
    Outcome (fun _ => True)
      (fun t' => t'.keyCount = t.keyCount - 1 ∧ t'.deletedCount = t.deletedCount + 1)
      (t.deleteEntry traits i) :=
  (write_load t i traits.deletedValue).bind fun _ ⟨_, hkeys, hdel⟩ =>
    Outcome.pure ⟨congrArg (· - 1) hkeys, congrArg (· + 1) hdel⟩

theorem removeBuckets_load (traits : HashTraits Key Value) (functor : Value → Bool)
    (places : List ℕ) (t : HashTable Value) :
    Outcome (fun _ => True) (fun t' => t'.keyCount + t'.deletedCount = t.keyCount + t.deletedCount)
      (places.foldlM (removeBucketIf traits functor) t) := by
  induction places generalizing t with
  | nil => exact Outcome.pure rfl
  | cons i places ih =>
    have hstep : Outcome (fun _ => True)
        (fun t' => t'.keyCount + t'.deletedCount = t.keyCount + t.deletedCount)
        (removeBucketIf traits functor t i) := by
      refine (outcome_any (load t.buckets i)).bind fun value _ => ?_
      split
      · exact Outcome.pure rfl
      · split
        · exact Outcome.pure rfl
        · refine (deleteEntry_load traits t i).mono fun t' ht' => ?_
          obtain ⟨hkeys, hdel⟩ := ht'
          grind
    exact hstep.bind fun t' ht' => (ih t').mono fun t'' ht'' => ht''.trans ht'

/-- The load of a table to which a key has been added. -/
structure AlmostBalanced (t : HashTable Value) (traits : HashTraits Key Value) : Prop where
  size_pow : ∃ s < 32, t.tableSize.toNat = 2 ^ s
  minimum_le : traits.minimumTableSize.toNat ≤ t.tableSize.toNat
  full : 2 * (t.keyCount.toNat + t.deletedCount.toNat) ≤ t.tableSize.toNat
  sparse : traits.minimumTableSize.toNat < t.tableSize.toNat →
    t.tableSize.toNat ≤ 6 * t.keyCount.toNat
  keyCount_lt : 6 * t.keyCount.toNat < 2 ^ 32

/-- The largest table cannot grow; `rehash` makes a table of no buckets of it. -/
theorem AlmostBalanced.grow (h : t.AlmostBalanced traits) (i : ℕ) :
    Outcome (fun _ => True) (fun r => r.1.tableSize.toNat = 0 ∨ r.1.Balanced traits)
      (if t.shouldExpand then do
          let (t, newEntry) ← t.expand traits (some i)
          pure (t, ⟨newEntry, true⟩)
        else pure (t, ⟨some i, true⟩) : Except Failure (HashTable Value × AddResult)) := by
  have hfull := h.full
  have hkeys := h.keyCount_lt
  obtain ⟨hpos, hcases⟩ := size_cases h.size_pow
  by_cases hexpand : t.shouldExpand = true
  · rw [if_pos hexpand]
    refine (rehash_load traits t (t.expandedSize traits) (some i)).bind fun r hr => ?_
    obtain ⟨hsize, hkeyCount, hdel⟩ := hr
    have hsize' := @expandedSize_toNat _ _ traits t h.size_pow
    rw [← hsize] at hsize'
    refine Outcome.pure ?_
    change r.1.tableSize.toNat = 0 ∨ r.1.Balanced traits
    by_cases hinPlace : t.mustRehashInPlace = true
    · rw [if_pos hinPlace] at hsize'
      rw [mustRehashInPlace_iff, Nat.mod_eq_of_lt (by omega)] at hinPlace
      refine .inr ⟨?_, ?_, ?_, ?_⟩
      · rw [hsize']
        exact h.minimum_le
      · rw [hsize', hkeyCount, hdel, UInt32.toNat_zero]
        omega
      · rw [hsize', hkeyCount]
        exact h.sparse
      · rwa [hkeyCount]
    · rw [if_neg hinPlace] at hsize'
      rw [mustRehashInPlace_iff, Nat.mod_eq_of_lt (by omega)] at hinPlace
      by_cases hlargest : t.tableSize.toNat = 2 ^ 31
      · left
        rw [hsize', hlargest]
        rfl
      · have hmin := h.minimum_le
        rw [Nat.mod_eq_of_lt (by omega)] at hsize' hinPlace
        refine .inr ⟨?_, ?_, ?_, ?_⟩
        · omega
        · rw [hsize', hkeyCount, hdel, UInt32.toNat_zero]
          omega
        · rw [hsize', hkeyCount]
          omega
        · rwa [hkeyCount]
  · rw [if_neg hexpand]
    rw [shouldExpand_iff, Nat.mod_eq_of_lt (by omega)] at hexpand
    have hload : 2 * (t.keyCount.toNat + t.deletedCount.toNat) < t.tableSize.toNat := by
      rcases hcases with hsmall | hmiddle | hlarge <;>
        rw [Nat.mod_eq_of_lt (by omega)] at hexpand <;> omega
    exact Outcome.pure (.inr ⟨h.minimum_le, hload, h.sparse, h.keyCount_lt⟩)

omit [DecidableEq Key] in
theorem AlmostBalanced.of_sameLoad (h : t.AlmostBalanced traits) (hsame : t.SameLoad t') :
    t'.AlmostBalanced traits := by
  obtain ⟨hsize, hkeys, hdel⟩ := hsame
  refine ⟨?_, ?_, ?_, ?_, ?_⟩
  · rw [hsize]
    exact h.size_pow
  · rw [hsize]
    exact h.minimum_le
  · rw [hsize, hkeys, hdel]
    exact h.full
  · rw [hsize, hkeys]
    exact h.sparse
  · rw [hkeys]
    exact h.keyCount_lt

omit [DecidableEq Key] in
theorem Balanced.gain (h : t.Balanced traits) (hmin : 2 ≤ traits.minimumTableSize.toNat)
    (hpow : ∃ s < 32, t.tableSize.toNat = 2 ^ s) (hsize : t'.tableSize = t.tableSize)
    (hkeys : t'.keyCount.toNat = t.keyCount.toNat + 1)
    (hdel : t'.deletedCount.toNat ≤ t.deletedCount.toNat)
    (hlt : 6 * (t.keyCount.toNat + 1) < 2 ^ 32) : t'.AlmostBalanced traits := by
  have hle := h.minimum_le
  have hfull := h.full
  have hsparse := h.sparse
  have heven : ∃ m, t.tableSize.toNat = 2 * m := by
    obtain ⟨s, -, hs⟩ := hpow
    cases s with
    | zero => omega
    | succ s => exact ⟨2 ^ s, by rw [hs, Nat.pow_succ']⟩
  obtain ⟨m, hm⟩ := heven
  refine ⟨?_, ?_, ?_, ?_, ?_⟩
  · rw [hsize]
    exact hpow
  · rw [hsize]
    exact hle
  · rw [hsize, hkeys]
    omega
  · rw [hsize, hkeys]
    omega
  · rw [hkeys]
    exact hlt

theorem addAt_balanced (t : HashTable Value) (i : ℕ) (value : Value)
    (h : ({ t with keyCount := t.keyCount + 1 } : HashTable Value).AlmostBalanced traits) :
    Outcome (fun _ => True) (fun r => r.1.tableSize.toNat = 0 ∨ r.1.Balanced traits)
      (t.addAt traits i value) := by
  refine (write_load t i value).bind fun t1 ht1 => ?_
  obtain ⟨hsize, hkeys, hdel⟩ := ht1
  have hsame : SameLoad ({ t with keyCount := t.keyCount + 1 } : HashTable Value)
      { t1 with keyCount := t1.keyCount + 1 } := ⟨hsize, congrArg (· + 1) hkeys, hdel⟩
  exact (h.of_sameLoad hsame).grow i

theorem IsBalanced.of_stores (hb : t.IsBalanced traits) (h : t.Stores traits memory entries) :
    t.Balanced traits := by
  refine hb.resolve_left fun hnull => ?_
  have htable := h.table_eq
  rw [hnull.table_eq] at htable
  cases htable

/-- A table in which an entry can be looked up has buckets, or none are needed. -/
theorem Represents.isBalanced (h : t.Represents traits entries)
    (hb : t.tableSize.toNat = 0 ∨ t.Balanced traits) : t.IsBalanced traits := by
  rcases h.wellFormed with hnull | ⟨memory, -, hroom⟩
  · exact .inl hnull
  · have hlt := hroom.lt
    exact .inr (hb.resolve_left (by omega))

/-- A table is allocated without any load, or is in place. -/
theorem Represents.allocateIfNeeded_cases {P : HashTable Value → Prop}
    (h : t.Represents traits entries)
    (hnew : ∀ r : HashTable Value, r.tableSize = traits.minimumTableSize → r.keyCount = 0 →
      r.deletedCount = 0 → P r)
    (hkept : ∀ memory, t.Stores traits memory entries → P t) :
    Outcome (fun _ => True) P (t.allocateIfNeeded traits) := by
  rw [HashTable.allocateIfNeeded]
  rcases h.cases with ⟨hnull, -⟩ | ⟨memory, hstores, -⟩
  · rw [hnull.table_eq]
    have hexp : t.expandedSize traits = traits.minimumTableSize := by
      rw [expandedSize, if_pos hnull.tableSize_eq]
    refine (rehash_load traits t (t.expandedSize traits) none).bind fun r hr => ?_
    obtain ⟨hsize, hkeys, hdel⟩ := hr
    exact Outcome.pure (hnew r.1 (hsize.trans hexp) (hkeys.trans hnull.keyCount_eq) hdel)
  · rw [hstores.table_eq]
    exact Outcome.pure (hkept memory hstores)

theorem Represents.allocateIfNeeded_balanced (h : t.Represents traits entries)
    (hb : t.IsBalanced traits) (hmin : 0 < traits.minimumTableSize.toNat) :
    Outcome (fun _ => True) (fun t' => t'.Balanced traits) (t.allocateIfNeeded traits) := by
  refine h.allocateIfNeeded_cases (fun r hsize hkeys hdel => ⟨?_, ?_, ?_, ?_⟩)
    fun memory hstores => hb.of_stores hstores
  · rw [hsize]
  · rw [hsize, hkeys, hdel]
    exact hmin
  · rw [hsize]
    exact fun hlt => absurd hlt (lt_irrefl _)
  · rw [hkeys]
    decide

theorem Represents.add_balanced (h : t.Represents traits entries) (hb : t.IsBalanced traits)
    (hmin : 2 ≤ traits.minimumTableSize.toNat) (hvalid : traits.ValidKey (traits.extract value))
    (hlt : entries (traits.extract value) = none → 6 * (t.keyCount.toNat + 1) < 2 ^ 32) :
    Outcome (fun _ => True) (fun r => r.1.tableSize.toNat = 0 ∨ r.1.Balanced traits)
      (t.add traits value) := by
  obtain ⟨t1, memory, halloc, hstores, hroom, hkeys, -⟩ := h.allocateIfNeeded (traits.extract value)
  have hbal : t1.Balanced traits := (h.allocateIfNeeded_balanced hb (by omega)).of_ok halloc
  obtain ⟨k, hk⟩ := hstores.exists_empty hroom
  obtain ⟨r, hr, -, hnot⟩ := hstores.probe_writing hk hvalid
  refine Outcome.bind_of_eq_ok halloc (Outcome.bind_of_eq_ok hr ?_)
  cases hrf : r.found with
  | true => exact Outcome.pure (.inr hbal)
  | false =>
    obtain ⟨habsent, -, htomb, -⟩ := hnot hrf
    have hnone : entries (traits.extract value) = none := by
      cases he : entries (traits.extract value) with
      | none => rfl
      | some a => exact absurd ((hstores.present_iff _ _).mpr he) (habsent a)
    have hlt1 : 6 * (t1.keyCount.toNat + 1) < 2 ^ 32 := by
      rw [hkeys]
      exact hlt hnone
    obtain ⟨hsucc, -⟩ := hroom.toNat_succ hstores.size_pow
    cases hd : r.deletedEntry with
    | none =>
      refine addAt_balanced t1 r.entry value ?_
      exact hbal.gain hmin hstores.size_pow rfl hsucc le_rfl hlt1
    | some i =>
      obtain ⟨⟨m, rfl, -⟩, hslot⟩ := htomb i hd
      have hi := hstores.masked.probeAt_lt traits (traits.extract value) m
      have hcount := tombstoneCount_reuse hi hslot hvalid
      have hdel : (t1.deletedCount - 1).toNat ≤ t1.deletedCount.toNat := by
        have hone : (1 : UInt32) ≤ t1.deletedCount := by
          rw [UInt32.le_iff_toNat_le, hstores.deletedCount_eq, ← hcount]
          exact Nat.le_add_left 1 _
        rw [UInt32.toNat_sub_of_le _ _ hone]
        exact Nat.sub_le _ _
      refine (reviveBucket_load traits t1 _).bind fun t2 ht2 => ?_
      obtain ⟨hsize2, hkeys2, hdel2⟩ := ht2
      refine addAt_balanced t2 _ value ?_
      refine hbal.gain hmin hstores.size_pow hsize2 ?_ ?_ hlt1
      · rw [← hsucc, ← hkeys2]
      · rw [← hdel2] at hdel
        exact hdel

/-- The load of a table that has lost keys; one step down is enough. -/
structure Thinned (t : HashTable Value) (traits : HashTraits Key Value) : Prop where
  size_pow : ∃ s < 32, t.tableSize.toNat = 2 ^ s
  minimum_le : traits.minimumTableSize.toNat ≤ t.tableSize.toNat
  full : 2 * (t.keyCount.toNat + t.deletedCount.toNat) < t.tableSize.toNat
  half : traits.minimumTableSize.toNat < t.tableSize.toNat / 2 →
    t.tableSize.toNat / 2 ≤ 6 * t.keyCount.toNat
  keyCount_lt : 6 * t.keyCount.toNat < 2 ^ 32

theorem Thinned.shrinkIfNeeded (h : t.Thinned traits) :
    Outcome (fun _ => True) (fun t' => t'.Balanced traits) (t.shrinkIfNeeded traits) := by
  have hkeys := h.keyCount_lt
  have hfull := h.full
  have hmin := (size_cases traits.minimumTableSize_eq).1
  rw [HashTable.shrinkIfNeeded]
  by_cases hshrink : t.shouldShrink traits = true
  · rw [if_pos hshrink]
    rw [shouldShrink_iff, Nat.mod_eq_of_lt (by omega)] at hshrink
    have htwice := two_mul_le_of_pow_lt traits.minimumTableSize_eq h.size_pow hshrink.2
    have hhalf : (t.tableSize / 2).toNat = t.tableSize.toNat / 2 := UInt32.toNat_div _ _
    refine (rehash_load traits t (t.tableSize / 2) none).bind fun r hr => ?_
    obtain ⟨hsize, hkeyCount, hdel⟩ := hr
    have hsize' : r.1.tableSize.toNat = t.tableSize.toNat / 2 := by rw [hsize, hhalf]
    have hdel' : r.1.deletedCount.toNat = 0 := by rw [hdel]; rfl
    have hbal : r.1.Balanced traits := by
      refine ⟨by omega, ?_, ?_, ?_⟩
      · rw [hkeyCount]
        omega
      · rw [hsize', hkeyCount]
        exact h.half
      · rwa [hkeyCount]
    exact Outcome.pure hbal
  · rw [if_neg hshrink]
    rw [shouldShrink_iff, Nat.mod_eq_of_lt (by omega)] at hshrink
    exact Outcome.pure ⟨h.minimum_le, hfull, by omega, hkeys⟩

omit [DecidableEq Key] in
theorem Balanced.lose (h : t.Balanced traits) (hmin : 2 ≤ traits.minimumTableSize.toNat)
    (hpow : ∃ s < 32, t.tableSize.toNat = 2 ^ s) (hsize : t'.tableSize = t.tableSize)
    (hkeys : t'.keyCount.toNat + 1 = t.keyCount.toNat)
    (hdel : t'.deletedCount.toNat = t.deletedCount.toNat + 1) : t'.Thinned traits := by
  have hle := h.minimum_le
  have hfull := h.full
  have hsparse := h.sparse
  have hkeyCount := h.keyCount_lt
  refine ⟨?_, ?_, ?_, ?_, by omega⟩
  · rw [hsize]
    exact hpow
  · rw [hsize]
    exact hle
  · rw [hsize]
    omega
  · rw [hsize]
    intro hlt
    -- half of the size is a power of two above two
    have hfour := two_mul_le_of_pow_lt traits.minimumTableSize_eq (size_half hpow (by omega)) hlt
    omega

section

variable (h : t.Represents traits entries) (hb : t.IsBalanced traits)
include h hb

theorem Represents.remove_balanced
    (hmin : 2 ≤ traits.minimumTableSize.toNat) (hvalid : traits.ValidKey key) :
    Outcome (fun _ => True) (fun t' => t'.IsBalanced traits) (t.remove traits key) := by
  rw [HashTable.remove]
  rcases h.cases with ⟨hnull, -⟩ | ⟨memory, hstores, hroom⟩
  · rw [find, hnull.table_eq]
    exact Outcome.pure hb
  obtain ⟨p, hp, -, hfull⟩ := hstores.find_full hroom hvalid
  have hbal := hb.of_stores hstores
  refine Outcome.bind_of_eq_ok hp ?_
  cases p with
  | none => exact Outcome.pure hb
  | some i =>
    obtain ⟨a, -, hi⟩ := hfull i rfl
    obtain ⟨t1, heq, -, -, hsize, hkeys⟩ := hstores.deleteEntry hroom hi
    have hdel : t1.deletedCount = t.deletedCount + 1 := ((deleteEntry_load traits t i).of_ok heq).2
    have hthinned : t1.Thinned traits := by
      refine hbal.lose hmin hstores.size_pow hsize hkeys ?_
      rw [hdel]
      exact (hroom.toNat_succ hstores.size_pow).2
    refine Outcome.bind_of_eq_ok heq ?_
    exact hthinned.shrinkIfNeeded.mono fun _ => .inr

/-- `removeIf` keeps the balance if it leaves enough entries for half the size. -/
theorem Represents.removeIf_balanced {functor : Value → Bool}
    (hhalf : traits.minimumTableSize.toNat < t.tableSize.toNat / 2 →
      t.tableSize.toNat / 2 ≤ 6 * {x | (withoutIf entries functor x).isSome}.ncard) :
    Outcome (fun _ => True) (fun t' => t'.IsBalanced traits) (t.removeIf traits functor) := by
  rw [HashTable.removeIf]
  rcases h.cases with ⟨hnull, -⟩ | ⟨memory, hstores, hroom⟩
  · have hshrink : ¬ t.shouldShrink traits = true := by
      rw [shouldShrink_iff, hnull.tableSize_eq]
      simp
    rw [hnull.tableSize_eq]
    change Outcome _ _ (t.shrinkIfNeeded traits)
    rw [HashTable.shrinkIfNeeded, if_neg hshrink]
    exact Outcome.pure hb
  have hbal := hb.of_stores hstores
  obtain ⟨t1, memory1, heq, hstores1, hroom1, hsize⟩ := hstores.filter hroom functor
  have hsum : t1.keyCount + t1.deletedCount = t.keyCount + t.deletedCount :=
    (removeBuckets_load traits functor _ t).of_ok heq
  have hkeys : t1.keyCount.toNat = {x | (withoutIf entries functor x).isSome}.ncard :=
    (hstores1.represents hroom1).size_eq
  refine Outcome.bind_of_eq_ok heq ?_
  have hthinned : t1.Thinned traits := by
    have hle := hbal.minimum_le
    have hfull := hbal.full
    have hkeyCount := hbal.keyCount_lt
    have hlt1 := hroom1.lt
    have hsize' := congrArg UInt32.toNat hsize
    have hsum' := congrArg UInt32.toNat hsum
    have hbound := t.tableSize.toNat_lt
    rw [UInt32.toNat_add, UInt32.toNat_add, Nat.mod_eq_of_lt (by omega),
      Nat.mod_eq_of_lt (by omega)] at hsum'
    refine ⟨?_, by omega, by omega, ?_, ?_⟩
    · rw [hsize]
      exact hstores.size_pow
    · rw [hsize, hkeys]
      exact hhalf
    · have hle := h.ncard_withoutIf_le functor
      omega
  exact hthinned.shrinkIfNeeded.mono fun _ => .inr

theorem Represents.copy_balanced (hmin : 2 ≤ traits.minimumTableSize.toNat) :
    Outcome (fun _ => True) (fun t' => t'.IsBalanced traits) (t.copy traits) := by
  rw [HashTable.copy]
  by_cases hempty : t.isEmpty = true
  · rw [if_pos hempty]
    exact Outcome.pure (.inl create_null)
  rw [if_neg hempty]
  rcases h.cases with ⟨hnull, -⟩ | ⟨memory, hstores, hroom⟩
  · rw [isEmpty, hnull.keyCount_eq] at hempty
    exact absurd rfl hempty
  have hbal := hb.of_stores hstores
  have hcopy : t.keyCount.toNat < 2 ^ 30 := by
    have hlt := hbal.keyCount_lt
    omega
  rw [hstores.buckets_eq]
  obtain ⟨t', heq, -, hb'⟩ := foldlM_range
    (I := fun i t' => Copied traits memory entries i t' ∧ t'.IsBalanced traits)
    (f := copyBucket traits memory) (n := t.tableSize.toNat) (s := create)
    ⟨⟨⟨_, create_null.represents, fun x a => by simp⟩, rfl, rfl⟩, .inl create_null⟩ (by
      rintro i hi t1 ⟨hcopied, hb1⟩
      rw [hstores.tableSize_eq] at hi
      obtain ⟨t2, heq, hcopied2⟩ := hcopied.succ hstores hcopy hi
      refine ⟨t2, heq, hcopied2, ?_⟩
      obtain ⟨entries1, hrep1, -⟩ := hcopied.represents
      obtain ⟨entries2, hrep2, -⟩ := hcopied2.represents
      refine hrep2.isBalanced ?_
      rw [copyBucket, load_eq hi] at heq
      dsimp only [bind, Except.bind] at heq
      have hcount := fullCount_take_succ traits hi
      have hle := fullCount_take_le traits memory (i + 1)
      cases hbucket : traits.isEmptyOrDeletedBucket memory[i] with
      | true =>
        rw [hbucket] at heq
        cases heq
        exact hb1.imp_left fun hnull => by rw [hnull.tableSize_eq]; rfl
      | false =>
        have hslot : traits.slot memory[i] = .full memory[i] := by
          rw [← HashTraits.not_isEmptyOrDeletedBucket_iff, hbucket]
          rfl
        have hvalid := (HashTraits.slot_eq_full hslot).2.2
        rw [hcount, hbucket, ← hcopied.keyCount_eq, ← hstores.keyCount_eq] at hle
        simp only [Bool.false_eq_true, if_false] at hle
        have hadd := hrep1.add_balanced hb1 hmin hvalid fun _ => by
          have hlt := hbal.keyCount_lt
          omega
        rw [if_neg (by simp [hbucket])] at heq
        cases hres : t1.add traits memory[i] with
        | error e =>
          rw [hres] at heq
          cases heq
        | ok r =>
          rw [hres] at heq hadd
          cases heq
          exact hadd)
  exact Outcome.of_eq_ok heq hb'

end

end HashTable

end WebKit.WTF
