import WebKit.WTF.HashTableBalance
import WebKit.WTF.HashTableRun

/-!
# `checkTableConsistency`

The check that every operation makes of its table in a debug build. It holds after every
operation of a run in which no `removeIf` has to halve the table more than once, and in which
six times a number of keys fits in a word. `ValueCheck`, which checks nothing unless it is
specialised, is left out.
-/

namespace WebKit.WTF

open Transition Probing Function List

variable {ι Key Value : Type} [DecidableEq ι] [DecidableEq Key]

/-- What `checkTableConsistencyExceptSize` has seen: whether its assertions have held, and what it
has counted. -/
structure ConsistencyCheck where
  holds : Bool := true
  count : UInt32 := 0
  deletedCount : UInt32 := 0

namespace HashTable

section Definitions

variable (traits : HashTraits Key Value) (t : HashTable Value)

def checkBucket (r : ConsistencyCheck) (j : ℕ) : Except Failure ConsistencyCheck := do
  let entry ← load t.buckets j
  if traits.isEmptyBucket entry then pure r
  else if traits.isDeletedBucket entry then pure { r with deletedCount := r.deletedCount + 1 }
  else
    let it ← t.find traits (traits.extract entry)
    pure { r with holds := r.holds && it = some j, count := r.count + 1 }

def checkTableConsistencyExceptSize : Except Failure Bool :=
  match t.table with
  | none => pure true
  | some _ => do
    let r ← (List.range t.tableSize.toNat).foldlM (t.checkBucket traits) {}
    pure (r.holds && r.count = t.keyCount && r.deletedCount = t.deletedCount &&
      traits.minimumTableSize ≤ t.tableSize && t.tableSizeMask ≠ 0 &&
      t.tableSize = t.tableSizeMask + 1)

def checkTableConsistency : Except Failure Bool := do
  let exceptSize ← t.checkTableConsistencyExceptSize traits
  pure (exceptSize && (t.table.isNone || !t.shouldExpand) && !t.shouldShrink traits)

end Definitions

variable {traits : HashTraits Key Value} {memory : List Value} {t : HashTable Value}
  {entries : Key → Option Value} {i : ℕ}

/-- What has been counted in the first `i` buckets. -/
structure Checked (traits : HashTraits Key Value) (memory : List Value) (i : ℕ)
    (r : ConsistencyCheck) : Prop where
  holds : r.holds = true
  count : r.count.toNat = fullCount traits (memory.take i)
  deletedCount : r.deletedCount.toNat = tombstoneCount traits (memory.take i)

theorem tombstoneCount_take_succ (traits : HashTraits Key Value) (hi : i < memory.length) :
    tombstoneCount traits (memory.take (i + 1)) = tombstoneCount traits (memory.take i) +
        if traits.isDeletedBucket memory[i] then 1 else 0 := by
  rw [tombstoneCount, take_succ_eq_append_getElem hi, countP_append, countP_singleton]
  rfl

theorem Checked.succ {r : ConsistencyCheck} (h : Checked traits memory i r)
    (hstores : t.Stores traits memory entries) (hroom : t.Room) (hi : i < memory.length) :
    ∃ r', t.checkBucket traits r i = .ok r' ∧ Checked traits memory (i + 1) r' := by
  have hfull := fullCount_take_succ traits hi
  have htombstone := tombstoneCount_take_succ traits hi
  have hlen := hstores.tableSize_eq
  have hlt := t.tableSize.toNat_lt
  have hsucc : ∀ count : UInt32, count.toNat ≤ i → (count + 1).toNat = count.toNat + 1 := by
    intro count hle
    rw [UInt32.toNat_add, UInt32.toNat_one, Nat.mod_eq_of_lt (by omega)]
  have hcount : ∀ p : Value → Bool, (memory.take i).countP p ≤ i := by
    intro p
    exact countP_le_length.trans (by simp)
  rw [checkBucket, hstores.buckets_eq, load_eq hi]
  dsimp only [bind, Except.bind]
  cases hempty : traits.isEmptyBucket memory[i] with
  | true =>
    have hnot : traits.isDeletedBucket memory[i] = false := by
      simp only [HashTraits.isEmptyBucket, HashTraits.isDeletedBucket, decide_eq_true_eq,
        decide_eq_false_iff_not] at hempty ⊢
      rw [hempty]
      exact traits.deleted_ne_empty.symm
    refine ⟨r, rfl, h.holds, ?_, ?_⟩
    · rw [hfull, HashTraits.isEmptyOrDeletedBucket, hempty]
      exact h.count
    · rw [htombstone, hnot]
      exact h.deletedCount
  | false =>
    cases hdel : traits.isDeletedBucket memory[i] with
    | true =>
      refine ⟨_, rfl, h.holds, ?_, ?_⟩
      · rw [hfull, HashTraits.isEmptyOrDeletedBucket, hdel, Bool.or_true]
        exact h.count
      · rw [htombstone, hdel, if_pos rfl, ← h.deletedCount]
        exact hsucc _ (h.deletedCount.trans_le (hcount _))
    | false =>
      have hbucket : traits.isEmptyOrDeletedBucket memory[i] = false := by
        rw [HashTraits.isEmptyOrDeletedBucket, hempty, hdel]
        rfl
      have hslot : slotAt traits memory i = .full memory[i] := by
        rw [slotAt_of_lt hi, ← HashTraits.not_isEmptyOrDeletedBucket_iff, hbucket]
        rfl
      obtain ⟨-, -, -, hvalid⟩ := slotAt_eq_full hslot
      obtain ⟨p, hp, hsome, hfind⟩ := hstores.find_full hroom hvalid
      have hentry := hstores.of_full hslot
      -- no other bucket has an entry of the same key
      have hpos : p = some i := by
        rw [hentry] at hsome
        obtain ⟨j, rfl⟩ := Option.isSome_iff_exists.mp hsome
        obtain ⟨a, ha, hj⟩ := hfind j rfl
        rw [hentry] at ha
        cases ha
        rw [hstores.unique j i _ _ hj hslot rfl]
      rw [hp, hpos]
      refine ⟨_, rfl, ?_, ?_, ?_⟩
      · simp [h.holds]
      · rw [hfull, hbucket, ← h.count]
        exact hsucc _ (h.count.trans_le (hcount _))
      · rw [htombstone, hdel]
        exact h.deletedCount

theorem Represents.checkTableConsistency_eq (h : t.Represents traits entries)
    (hb : t.IsBalanced traits) (hmin : 2 ≤ traits.minimumTableSize.toNat) :
    t.checkTableConsistency traits = .ok true := by
  rw [checkTableConsistency, checkTableConsistencyExceptSize]
  rcases h.cases with ⟨hnull, -⟩ | ⟨memory, hstores, hroom⟩
  · have hshrink : t.shouldShrink traits = false := by
      rw [Bool.eq_false_iff, ne_eq, shouldShrink_iff, hnull.tableSize_eq]
      simp
    rw [hnull.table_eq, hshrink]
    rfl
  have hbal := hb.of_stores hstores
  obtain ⟨r, heq, hr⟩ := foldlM_range
    (I := fun i r => Checked traits memory i r) (f := t.checkBucket traits)
    (n := t.tableSize.toNat) (s := {}) ⟨rfl, rfl, rfl⟩ fun i hi r hr =>
      hr.succ hstores hroom (by rwa [← hstores.tableSize_eq])
  have hall : memory.take t.tableSize.toNat = memory := by
    rw [hstores.tableSize_eq, take_length]
  have hcount := hr.count
  have hdeletedCount := hr.deletedCount
  rw [hall] at hcount hdeletedCount
  have hkeys : r.count = t.keyCount := by
    rw [← UInt32.toNat_inj, hcount, hstores.keyCount_eq]
  have hdel : r.deletedCount = t.deletedCount := by
    rw [← UInt32.toNat_inj, hdeletedCount, hstores.deletedCount_eq]
  have hmask := hstores.masked.mask_eq
  have hsize := hstores.tableSize_eq
  have hminimum := hbal.minimum_le
  have hlt := t.tableSize.toNat_lt
  have hmaskSize : t.tableSize = t.tableSizeMask + 1 := by
    rw [← UInt32.toNat_inj, UInt32.toNat_add, UInt32.toNat_one, Nat.mod_eq_of_lt (by omega)]
    omega
  have hmaskNe : t.tableSizeMask ≠ 0 := by
    rw [ne_eq, ← UInt32.toNat_inj, UInt32.toNat_zero]
    omega
  have hminimum' : traits.minimumTableSize ≤ t.tableSize := UInt32.le_iff_toNat_le.mpr hminimum
  rw [hstores.table_eq, heq]
  dsimp only [bind, Except.bind, pure, Except.pure]
  rw [hr.holds, hkeys, hdel, hbal.not_shouldExpand, hbal.not_shouldShrink]
  simp [hminimum', hmaskNe, ← hmaskSize]

end HashTable

/-- The operations after which the load of the tables is right: a key is added where it can be
and six times the keys fit in a word, and what `removeIf` leaves is enough for half the size. -/
def HashTableOperation.KeepsLoad (traits : HashTraits Key Value) (tables : HashTables ι Value)
    (entries : ι → Key → Option Value) : HashTableOperation ι Key Value → Prop
  | .add i value | .addPassingHashCode i value =>
    entries i (traits.extract value) = none →
      (tables i).CanGain traits (traits.extract value) ∧
        6 * ((tables i).keyCount.toNat + 1) < 2 ^ 32
  | .removeIf i functor =>
    traits.minimumTableSize.toNat < (tables i).tableSize.toNat / 2 →
      (tables i).tableSize.toNat / 2 ≤
        6 * {key | (HashTable.withoutIf (entries i) functor key).isSome}.ncard
  | _ => True

namespace HashTables

variable {traits : HashTraits Key Value} {tables : HashTables ι Value}
  {entries : ι → Key → Option Value} {operation : HashTableOperation ι Key Value}

/-- The tables are those of the maps, and balanced. -/
def AreBalanced (traits : HashTraits Key Value) (tables : HashTables ι Value)
    (entries : ι → Key → Option Value) : Prop :=
  tables.Represent traits entries ∧ ∀ i, (tables i).IsBalanced traits

omit [DecidableEq ι] in
theorem AreBalanced.canLose (h : AreBalanced traits tables entries) (i : ι) {keys : ℕ}
    (hle : keys ≤ (tables i).keyCount.toNat) : (tables i).CanLose traits keys := by
  refine fun _ _ => .inl ?_
  rcases h.2 i with hnull | hbal
  · rw [hnull.keyCount_eq, UInt32.toNat_zero] at hle
    omega
  · have hlt := hbal.keyCount_lt
    omega

omit [DecidableEq ι] in
theorem AreBalanced.fits (h : AreBalanced traits tables entries)
    (hkeeps : operation.KeepsLoad traits tables entries) :
    operation.Fits traits tables entries := by
  cases operation with
  | add | addPassingHashCode => exact fun hnone => (hkeeps hnone).1
  | remove i key => exact fun _ => h.canLose i (Nat.sub_le _ _)
  | removeIf i functor => exact h.canLose i ((h.1 i).ncard_withoutIf_le functor)
  | assign i other =>
    change (tables other).keyCount.toNat < 2 ^ 30
    rcases h.2 other with hnull | hbal
    · rw [hnull.keyCount_eq]
      decide
    · have hlt := hbal.keyCount_lt
      omega
  | clear | moveAssign | swap => trivial

omit [DecidableEq Key] in
theorem isBalanced_update (h : ∀ i, (tables i).IsBalanced traits) {i : ι} {t : HashTable Value}
    (ht : t.IsBalanced traits) (j : ι) :
    (update tables i t j).IsBalanced traits := by
  by_cases hj : j = i
  · subst hj
    rwa [update_self]
  · rw [update_of_ne hj]
    exact h j

theorem AreBalanced.add (h : AreBalanced traits tables entries) {i : ι} {value : Value}
    (hmin : 2 ≤ traits.minimumTableSize.toNat) (hlegal : traits.ValidKey (traits.extract value))
    (hkeeps : (HashTableOperation.add i value : HashTableOperation ι Key Value).KeepsLoad traits
      tables entries) :
    Outcome (fun _ => True) (fun r => ∀ j, (r.1 j).IsBalanced traits)
      (tables.execute traits (.add i value)) := by
  obtain ⟨t, p, heq, hrep, -⟩ := (h.1 i).add hlegal fun hnone => (hkeeps hnone).1
  have hload := ((h.1 i).add_balanced (h.2 i) hmin hlegal fun hnone => (hkeeps hnone).2).of_ok heq
  rw [execute, heq]
  exact isBalanced_update h.2 (hrep.isBalanced hload)

theorem AreBalanced.execute (h : AreBalanced traits tables entries)
    (hmin : 2 ≤ traits.minimumTableSize.toNat) (hlegal : operation.Legal traits)
    (hkeeps : operation.KeepsLoad traits tables entries) :
    Outcome (fun _ => True) (fun r => AreBalanced traits r.1 (operation.apply traits entries))
      (tables.execute traits operation) := by
  obtain ⟨r, heq, hrep, -⟩ := h.1.execute hlegal (h.fits hkeeps)
  have hload : Outcome (fun _ => True) (fun r => ∀ j, (r.1 j).IsBalanced traits)
      (tables.execute traits operation) := by
    cases operation with
    | add i value => exact h.add hmin hlegal hkeeps
    | addPassingHashCode i value =>
      rw [HashTables.execute, (h.1 i).addPassingHashCode_eq hlegal]
      exact h.add hmin hlegal hkeeps
    | remove i key =>
      exact ((h.1 i).remove_balanced (h.2 i) hmin hlegal).bind fun t ht =>
        Outcome.pure (isBalanced_update h.2 ht)
    | removeIf i functor =>
      exact ((h.1 i).removeIf_balanced (h.2 i) hkeeps).bind fun t ht =>
        Outcome.pure (isBalanced_update h.2 ht)
    | clear i =>
      refine Outcome.pure (isBalanced_update h.2 (.inl ?_))
      rcases (h.1 i).wellFormed with hnull | ⟨memory, hholds, -⟩
      · rw [HashTable.clear, hnull.table_eq]
        exact hnull
      · rw [HashTable.clear, hholds.table_eq]
        exact ⟨rfl, rfl, rfl⟩
    | assign i other =>
      exact ((h.1 other).copy_balanced (h.2 other) hmin).bind fun t ht =>
        Outcome.pure (isBalanced_update h.2 ht)
    | moveAssign i other =>
      exact Outcome.pure (isBalanced_update
        (isBalanced_update h.2 (.inl HashTable.create_null)) (h.2 other))
    | swap i other => exact Outcome.pure (isBalanced_update (isBalanced_update h.2 (h.2 other)) (h.2 i))
  rw [heq] at hload ⊢
  exact ⟨hrep, hload⟩

end HashTables

namespace HashTableState

variable {traits : HashTraits Key Value} {state : HashTableState ι Key Value}
  {operations : List (HashTableOperation ι Key Value)}

def KeepsLoad (traits : HashTraits Key Value) (state : HashTableState ι Key Value)
    (operation : HashTableOperation ι Key Value) : Prop :=
  operation.KeepsLoad traits state.tables state.entries

/-- After every operation of a run that keeps the load, all tables are consistent. -/
theorem tables_are_consistent (hmin : 2 ≤ traits.minimumTableSize.toNat)
    (hrun : Run (guarded (Step traits) (KeepsLoad traits)) start operations state) (i : ι) :
    (state.tables i).checkTableConsistency traits = .ok true := by
  have h : state.tables.AreBalanced traits state.entries := by
    refine hrun.preserves (I := fun state => state.tables.AreBalanced traits state.entries)
      (fun s operation t h ⟨hkeeps, hstep⟩ => ?_)
      ⟨fun _ => HashTable.create_null.represents, fun _ => .inl HashTable.create_null⟩
    obtain ⟨r, heq⟩ := hstep.execute
    have hstep' := (h.execute hmin hstep.legal hkeeps).of_ok heq
    rwa [hstep.apply]
  exact (h.1 i).checkTableConsistency_eq (h.2 i) hmin

/-- The number five is added to an empty table. -/
theorem tables_are_consistent_add :
    (⟨some [0, 0, 0, 0, 0, 5, 0, 0], 8, 7, 1, 0⟩ : HashTable ℕ).checkTableConsistency
      numberTraits = .ok true := by
  have hrun : Run (guarded (Step numberTraits) (KeepsLoad numberTraits)) start [.add () 5]
      ⟨update (fun _ => .create) () ⟨some [0, 0, 0, 0, 0, 5, 0, 0], 8, 7, 1, 0⟩,
        update (fun _ _ => none) () (update (fun _ => none) 5 (some 5))⟩ :=
    .single ⟨fun _ => ⟨nofun, by decide⟩, ⟨by decide, by decide⟩, ⟨_, rfl⟩, rfl⟩
  exact tables_are_consistent (by decide) hrun ()

theorem run_adds {t t' : HashTable ℕ} {entries : Unit → ℕ → Option ℕ} {values : List ℕ}
    (hvalid : ∀ value ∈ values, numberTraits.ValidKey value)
    (hadds : values.foldlM (fun t value => (·.1) <$> t.add numberTraits value) t = .ok t') :
    ∃ entries', Run (Step numberTraits) ⟨fun _ => t, entries⟩
      (values.map (HashTableOperation.add ())) ⟨fun _ => t', entries'⟩ := by
  induction values generalizing t entries with
  | nil =>
    cases hadds
    exact ⟨entries, .nil _⟩
  | cons value values ih =>
    rw [foldlM_cons] at hadds
    cases hadd : t.add numberTraits value with
    | error e =>
      rw [hadd] at hadds
      cases hadds
    | ok r =>
      rw [hadd] at hadds
      obtain ⟨entries', hrun⟩ := ih (fun v hv => hvalid v (mem_cons_of_mem _ hv)) hadds
      refine ⟨entries', .cons ⟨hvalid value (mem_cons_self ..), ⟨some r.2, ?_⟩, rfl⟩ hrun⟩
      have htables : update (fun _ : Unit => t) () r.1 = fun _ => r.1 := by
        funext i
        cases i
        exact update_self ..
      rw [HashTables.execute, hadd, ← htables]
      rfl

/-- Eight numbers are added, and then `removeIf` takes all of them away: the table of thirty-two
buckets gets sixteen, which is still too many. -/
theorem not_tables_are_consistent :
    ¬ ∀ (ι Key Value : Type) [DecidableEq ι] [DecidableEq Key] (traits : HashTraits Key Value)
      (operations : List (HashTableOperation ι Key Value)) (state : HashTableState ι Key Value),
      Run (Step traits) start operations state →
      ∀ i, (state.tables i).checkTableConsistency traits = .ok true := by
  intro h
  let full : HashTable ℕ :=
    ⟨some [0, 0, 2, 3, 4, 5, 6, 7, 8, 9, 0, 0, 0, 0, 0, 0, 0, 0, 0, 0, 0, 0, 0, 0, 0, 0, 0, 0, 0, 0,
      0, 0], 32, 31, 8, 0⟩
  let thin : HashTable ℕ := ⟨some [0, 0, 0, 0, 0, 0, 0, 0, 0, 0, 0, 0, 0, 0, 0, 0], 16, 15, 0, 0⟩
  have hadds : [2, 3, 4, 5, 6, 7, 8, 9].foldlM
      (fun t value => (·.1) <$> HashTable.add numberTraits t value) .create = .ok full := by
    rfl
  have hvalid : ∀ value ∈ [2, 3, 4, 5, 6, 7, 8, 9], numberTraits.ValidKey value := by
    intro value hvalue
    have hlt : 1 < value := by
      simp only [mem_cons, not_mem_nil, or_false] at hvalue
      omega
    exact ⟨fun h => absurd h (by simp [numberTraits]; omega),
      fun h => absurd h (by simp [numberTraits]; omega)⟩
  obtain ⟨entries, hrun⟩ := @run_adds _ _ (fun _ _ => none) _ hvalid hadds
  have hremove : full.removeIf numberTraits (fun _ => true) = .ok thin := by decide +kernel
  have hstep : Step numberTraits ⟨fun _ : Unit => full, entries⟩ (.removeIf () fun _ => true)
      ⟨fun _ => thin, HashTableOperation.apply numberTraits entries (.removeIf () fun _ => true)⟩ := by
    refine ⟨trivial, ⟨none, ?_⟩, rfl⟩
    have htables : update (fun _ : Unit => full) () thin = fun _ => thin := by
      funext i
      cases i
      exact update_self ..
    rw [HashTables.execute, hremove, ← htables]
    rfl
  have hcheck := h Unit ℕ ℕ numberTraits _ _ (hrun.snoc hstep) ()
  have hfalse : thin.checkTableConsistency numberTraits = .ok false := by rfl
  rw [hfalse] at hcheck
  cases hcheck

end HashTableState

end WebKit.WTF
