import WebKit.Transition.Run
import WebKit.WTF.HashTableUpdate

/-!
# Runs of `HashTable` operations

A program runs operations of its hash tables beside the same operations of finite maps. As
long as no count is multiplied beyond `2 ^ 32`, the tables are the maps. A table to which
keys are added without end gets to the point where it is not.
-/

namespace WebKit.WTF

open Transition Probing Function HashTable HashTableOperation HashTables

variable {ι Key Value : Type} [DecidableEq ι] [DecidableEq Key] {traits : HashTraits Key Value}

namespace HashTableOperation

open HashTable (withEntry withoutIf CanGain CanLose)

/-- The maps after an operation. -/
def apply (traits : HashTraits Key Value) (entries : ι → Key → Option Value) :
    HashTableOperation ι Key Value → ι → Key → Option Value
  | .add i value | .addPassingHashCode i value =>
    update entries i (withEntry (entries i) (traits.extract value) value)
  | .remove i key => update entries i (update (entries i) key none)
  | .removeIf i functor => update entries i (withoutIf (entries i) functor)
  | .clear i => update entries i fun _ => none
  | .assign i other => update entries i (entries other)
  | .moveAssign i other =>
    update (update entries other fun _ => none) i (entries other)
  | .swap i other => update (update entries i (entries other)) other (entries i)

/-- Keys are neither the empty nor the deleted one. -/
def Legal (traits : HashTraits Key Value) : HashTableOperation ι Key Value → Prop
  | .add _ value | .addPassingHashCode _ value => traits.ValidKey (traits.extract value)
  | .remove _ key => traits.ValidKey key
  | _ => True

/-- No count gets so large that the arithmetic on it wraps around. -/
def Fits (traits : HashTraits Key Value) (tables : HashTables ι Value)
    (entries : ι → Key → Option Value) : HashTableOperation ι Key Value → Prop
  | .add i value | .addPassingHashCode i value =>
    entries i (traits.extract value) = none → (tables i).CanGain traits (traits.extract value)
  | .remove i key =>
    entries i key ≠ none → (tables i).CanLose traits ((tables i).keyCount.toNat - 1)
  | .removeIf i functor =>
    (tables i).CanLose traits {x | (withoutIf (entries i) functor x).isSome}.ncard
  | .assign _ other => (tables other).keyCount.toNat < 2 ^ 30
  | _ => True

/-- What an operation returns, with the tables it leaves: `add` says that the entry is new if
the key had none, and returns the bucket that the entry of the key is in. -/
def Returns (traits : HashTraits Key Value) (tables : HashTables ι Value)
    (entries : ι → Key → Option Value) (result : Option AddResult) :
    HashTableOperation ι Key Value → Prop
  | .add i value | .addPassingHashCode i value =>
    ∃ p, result = some ⟨some p, (entries i (traits.extract value)).isNone⟩ ∧
      (tables i).buckets[p]? = withEntry (entries i) (traits.extract value) value
        (traits.extract value)
  | _ => result = none

end HashTableOperation

namespace HashTables

variable {tables : HashTables ι Value} {entries : ι → Key → Option Value} {t : HashTable Value}
  {e : Key → Option Value} {i j : ι} {operation : HashTableOperation ι Key Value}

def Represent (traits : HashTraits Key Value) (tables : HashTables ι Value)
    (entries : ι → Key → Option Value) : Prop :=
  ∀ i, (tables i).Represents traits (entries i)

section

variable (h : Represent traits tables entries)
include h

theorem Represent.update (ht : t.Represents traits e) :
    Represent traits (update tables i t) (update entries i e) := by
  intro j
  by_cases hj : j = i
  · subst hj
    rw [update_self, update_self]
    exact ht
  · rw [update_of_ne hj, update_of_ne hj]
    exact h j

theorem Represent.add {value : Value}
    (hlegal : traits.ValidKey (traits.extract value))
    (hfits : entries i (traits.extract value) = none →
      (tables i).CanGain traits (traits.extract value)) :
    ∃ r, tables.execute traits (.add i value) = .ok r ∧
      Represent traits r.1 (apply traits entries (.add i value)) ∧
      HashTableOperation.Returns traits r.1 entries r.2 (.add i value) := by
  obtain ⟨t, p, heq, hrep, hbucket, -⟩ := (h i).add hlegal hfits
  refine ⟨(Function.update tables i t, some _), ?_, h.update hrep, p, rfl, ?_⟩
  · rw [execute, heq]
    rfl
  · dsimp only
    rw [Function.update_self, hbucket, withEntry, Function.update_self]

theorem Represent.execute (hlegal : operation.Legal traits)
    (hfits : operation.Fits traits tables entries) :
    ∃ r, tables.execute traits operation = .ok r ∧
      Represent traits r.1 (operation.apply traits entries) ∧
      operation.Returns traits r.1 entries r.2 := by
  cases operation with
  | add i value => exact h.add hlegal hfits
  | addPassingHashCode i value =>
    obtain ⟨r, heq, hr⟩ := h.add (i := i) hlegal hfits
    refine ⟨r, ?_, hr⟩
    rw [execute, (h i).addPassingHashCode_eq hlegal]
    exact heq
  | remove i key =>
    obtain ⟨t, heq, hrep⟩ := (h i).remove hlegal hfits
    refine ⟨(Function.update tables i t, none), ?_, h.update hrep, rfl⟩
    rw [execute, heq]
    rfl
  | removeIf i functor =>
    obtain ⟨t, heq, hrep⟩ := (h i).removeIf functor hfits
    refine ⟨(Function.update tables i t, none), ?_, h.update hrep, rfl⟩
    rw [execute, heq]
    rfl
  | clear i => exact ⟨_, rfl, h.update (h i).clear, rfl⟩
  | assign i other =>
    obtain ⟨t, heq, hrep⟩ := (h other).copy hfits
    refine ⟨(Function.update tables i t, none), ?_, h.update hrep, rfl⟩
    rw [execute, heq]
    rfl
  | moveAssign i other =>
    exact ⟨_, rfl, (h.update create_null.represents).update (h other), rfl⟩
  | swap i other => exact ⟨_, rfl, (h.update (h other)).update (h i), rfl⟩

end

end HashTables

/-! ## Runs -/

/-- The table is the map, as far as its users can see. -/
structure HashTable.Agrees (t : HashTable Value) (traits : HashTraits Key Value)
    (entries : Key → Option Value) : Prop where
  lookup : ∀ key, traits.ValidKey key → ∃ p, t.lookup traits key = .ok p ∧
    p.bind (t.buckets[·]?) = entries key ∧ p.isSome = (entries key).isSome
  find : ∀ key, t.find traits key = t.lookup traits key
  contains : ∀ key, traits.ValidKey key → t.contains traits key = .ok (entries key).isSome
  keyed : ∀ key value, entries key = some value →
    traits.ValidKey key ∧ traits.extract value = key
  finite : {key | (entries key).isSome}.Finite
  size : t.size.toNat = {key | (entries key).isSome}.ncard

theorem HashTable.Represents.agrees {t : HashTable Value} {entries : Key → Option Value}
    (h : t.Represents traits entries) : t.Agrees traits entries where
  lookup _ := h.lookup
  find := t.find_eq_lookup
  contains _ := h.contains
  keyed key value hx := by
    rcases h.cases with ⟨-, hents⟩ | ⟨memory, hstores, -⟩
    · rw [hents key] at hx
      cases hx
    · exact hstores.valid hx
  finite := h.finite
  size := h.size_eq

/-- The tables of a program and what they should be. -/
structure HashTableState (ι Key Value : Type) where
  tables : HashTables ι Value
  entries : ι → Key → Option Value

namespace HashTableState

variable {state state' : HashTableState ι Key Value}
  {operations : List (HashTableOperation ι Key Value)}

/-- All tables are empty. -/
def start : HashTableState ι Key Value := ⟨fun _ => .create, fun _ _ => none⟩

/-- An operation with a key that is allowed, which returns. -/
structure Step (traits : HashTraits Key Value) (state : HashTableState ι Key Value)
    (operation : HashTableOperation ι Key Value) (state' : HashTableState ι Key Value) :
    Prop where
  legal : operation.Legal traits
  execute : ∃ r, state.tables.execute traits operation = .ok (state'.tables, r)
  apply : state'.entries = operation.apply traits state.entries

def Fits (traits : HashTraits Key Value) (state : HashTableState ι Key Value)
    (operation : HashTableOperation ι Key Value) : Prop :=
  operation.Fits traits state.tables state.entries

theorem represent (hrun : Run (guarded (Step traits) (Fits traits)) start operations state) :
    state.tables.Represent traits state.entries := by
  refine hrun.preserves (I := fun state => state.tables.Represent traits state.entries)
    (fun s operation t h ⟨hfits, hstep⟩ => ?_) fun _ => create_null.represents
  obtain ⟨r, heq⟩ := hstep.execute
  obtain ⟨r', heq', hrep, -⟩ := h.execute hstep.legal hfits
  rw [heq] at heq'
  cases heq'
  rw [hstep.apply]
  exact hrep

/-- In every run in which no count gets too large, the tables are the maps. An operation that
may come next returns, with the result it should have. -/
theorem hash_table_refines_map
    (hrun : Run (guarded (Step traits) (Fits traits)) start operations state) :
    (∀ i, (state.tables i).Agrees traits (state.entries i)) ∧
      ∀ operation : HashTableOperation ι Key Value, operation.Legal traits →
        operation.Fits traits state.tables state.entries →
        ∃ r, state.tables.execute traits operation = .ok r ∧
          operation.Returns traits r.1 state.entries r.2 := by
  have h := represent hrun
  refine ⟨fun i => (h i).agrees, fun operation hlegal hfits => ?_⟩
  obtain ⟨r, heq, -, hreturns⟩ := h.execute hlegal hfits
  exact ⟨r, heq, hreturns⟩

end HashTableState

/-- Numbers from two on, in tables of eight buckets at least. -/
def numberTraits : HashTraits ℕ ℕ where
  hash := UInt32.ofNat
  extract := id
  emptyValue := 0
  deletedValue := 1
  safeToCompareToEmptyOrDeleted := true
  minimumTableSize := 8
  deleted_ne_empty := by decide
  minimumTableSize_eq := ⟨3, by decide, rfl⟩

namespace HashTableState

/-- The number five is added to an empty table. -/
theorem hash_table_refines_map_add :
    HashTable.Agrees ⟨some [0, 0, 0, 0, 0, 5, 0, 0], 8, 7, 1, 0⟩ numberTraits
      (update (fun _ => none) 5 (some 5)) := by
  have hrun : Run (guarded (Step numberTraits) (Fits numberTraits)) start [.add () 5]
      ⟨update (fun _ => .create) () ⟨some [0, 0, 0, 0, 0, 5, 0, 0], 8, 7, 1, 0⟩,
        update (fun _ _ => none) () (update (fun _ => none) 5 (some 5))⟩ :=
    .single ⟨fun _ => nofun, ⟨by decide, by decide⟩, ⟨_, rfl⟩, rfl⟩
  exact (hash_table_refines_map hrun).1 ()

end HashTableState

namespace HashTable

variable {t : HashTable Value} {entries : Key → Option Value} {memory : List Value} {value : Value}
  {i : ℕ}

theorem rehashBucket_emptied {old : List Value} {e f : Option ℕ}
    (hi : slotAt traits old i = .full value) :
    rehashBucket traits old e (t.emptied traits 0, f) i = .error .badAccess := by
  obtain ⟨hlt, rfl, hfull, -⟩ := slotAt_eq_full hi
  have hb : traits.isEmptyOrDeletedBucket old[i] = false := (HashTraits.slot_eq_full hfull).2.1
  rw [rehashBucket, load_eq hlt]
  dsimp only [bind, Except.bind]
  rw [if_neg (by rw [hb]; exact Bool.false_ne_true)]
  rfl

theorem rehash_zero_skips (t : HashTable Value) {old : List Value} (e f : Option ℕ) {n : ℕ}
    (hn : n ≤ old.length) (hnone : ∀ i < n, ∀ a, slotAt traits old i ≠ .full a) :
    (List.range n).foldlM (rehashBucket traits old e) (t.emptied traits 0, f) =
      .ok (t.emptied traits 0, f) := by
  obtain ⟨r, hr, rfl⟩ := foldlM_range (I := fun _ r => r = (t.emptied traits 0, f))
    (f := rehashBucket traits old e) (n := n) rfl (by
      rintro i hi r rfl
      have hlt := lt_of_lt_of_le hi hn
      have hb : traits.isEmptyOrDeletedBucket old[i] = true := by
        rw [HashTraits.isEmptyOrDeletedBucket_iff, ← slotAt_of_lt hlt]
        exact hnone i hi
      refine ⟨_, ?_, rfl⟩
      rw [rehashBucket, load_eq hlt]
      dsimp only [bind, Except.bind]
      rw [if_pos hb]
      rfl)
  exact hr

theorem rehash_zero_fails (t : HashTable Value) {old : List Value} (e f : Option ℕ) {n : ℕ}
    (hn : n ≤ old.length) (hfull : ∃ i < n, ∃ a, slotAt traits old i = .full a) :
    (List.range n).foldlM (rehashBucket traits old e) (t.emptied traits 0, f) =
      .error .badAccess := by
  induction n with
  | zero =>
    obtain ⟨i, hi, -⟩ := hfull
    exact absurd hi (Nat.not_lt_zero i)
  | succ n ih =>
    rw [List.range_succ, List.foldlM_append]
    by_cases hbef : ∃ i < n, ∃ a, slotAt traits old i = .full a
    · rw [ih (Nat.le_of_succ_le hn) hbef]
      rfl
    · have hnone : ∀ i < n, ∀ a, slotAt traits old i ≠ .full a :=
        fun i hi a ha => hbef ⟨i, hi, a, ha⟩
      obtain ⟨i, hi, a, ha⟩ := hfull
      obtain rfl : i = n :=
        le_antisymm (Nat.le_of_lt_succ hi) (Nat.not_lt.mp fun hlt => hnone i hlt a ha)
      rw [rehash_zero_skips t e f (Nat.le_of_succ_le hn) hnone]
      change (rehashBucket traits old e (t.emptied traits 0, f) i >>= _) = _
      rw [rehashBucket_emptied ha]
      rfl

theorem Stores.add_fails (h : t.Stores traits memory entries) (hroom : t.Room)
    (hlarge : t.tableSize.toNat = 2 ^ 31) (hhalf : 2 ^ 30 ≤ t.keyCount.toNat + 1)
    (hdel : t.deletedCount = 0) (hvalid : traits.ValidKey (traits.extract value))
    (hnone : entries (traits.extract value) = none) :
    t.add traits value = .error .badAccess := by
  obtain ⟨k, hk⟩ := h.exists_empty hroom
  obtain ⟨r, hr, hfound, hnot⟩ := h.probe_writing hk hvalid
  have hrf : r.found = false := by
    by_contra hne
    obtain ⟨a, ha, hkey⟩ := hfound (by simpa using hne)
    have hentry := h.of_full ha
    rw [hkey, hnone] at hentry
    cases hentry
  obtain ⟨habsent, ⟨hreach, hempty⟩, htomb, -⟩ := hnot hrf
  have hd : r.deletedEntry = none := by
    cases hd : r.deletedEntry with
    | none => rfl
    | some j =>
      have hslot := (htomb j hd).2
      obtain ⟨⟨n, rfl, -⟩, -⟩ := htomb j hd
      have hlt := h.masked.probeAt_lt traits (traits.extract value) n
      rw [slotAt_of_lt hlt] at hslot
      have hpos : 0 < tombstoneCount traits memory :=
        List.countP_pos_iff.mpr ⟨_, List.getElem_mem hlt, HashTraits.isDeletedBucket_iff.mpr hslot⟩
      rw [← h.deletedCount_eq, hdel] at hpos
      exact absurd hpos (lt_irrefl 0)
  have hplace : Place traits memory value r.entry := ⟨hvalid, habsent, hreach, by simp [hempty]⟩
  have hlt := hplace.lt h.masked
  have hle := hroom.largest hlarge
  have hkeys := (hroom.toNat_succ h.size_pow).1
  let t1 : HashTable Value :=
    { t with table := some (memory.set r.entry value), keyCount := t.keyCount + 1 }
  have hexpand : t1.shouldExpand = true := by
    rw [shouldExpand_iff]
    change t.tableSize.toNat ≤ ((t.keyCount + 1).toNat + t.deletedCount.toNat) % 2 ^ 32 * 2 % 2 ^ 32
    omega
  have hsize : t1.expandedSize traits = 0 := by
    rw [← UInt32.toNat_inj, expandedSize_toNat (t := t1) h.size_pow, if_neg]
    · rw [hlarge]
      rfl
    · rw [mustRehashInPlace_iff]
      rw [hlarge]
      exact Nat.not_lt_zero _
  rw [add, allocateIfNeeded, h.table_eq]
  dsimp only [bind, Except.bind, pure, Except.pure]
  rw [hr]
  dsimp only
  rw [hrf, if_neg Bool.false_ne_true, hd]
  rw [addAt, HashTable.write, h.buckets_eq, store_eq hlt]
  change (if t1.shouldExpand = true then _ else _) = _
  rw [if_pos hexpand, expand, hsize, rehash]
  have hlen : t1.tableSize.toNat ≤ t1.buckets.length := by
    change t.tableSize.toNat ≤ (memory.set r.entry value).length
    rw [List.length_set, h.tableSize_eq]
  have hfull : ∃ i < t1.tableSize.toNat, ∃ a, slotAt traits t1.buckets i = .full a := by
    refine ⟨r.entry, ?_, value, (hplace.slotAt_eq_full_iff hlt).mpr (.inr ⟨rfl, rfl⟩)⟩
    rwa [h.tableSize_eq]
  have hloop := rehash_zero_fails t1 (some r.entry) none hlen hfull
  rw [emptied] at hloop
  rw [hloop]
  rfl

end HashTable

namespace HashTableState

/-- The state after `n` numbers have been added to a table. -/
def Grown (n : ℕ) (state : HashTableState Unit ℕ ℕ) : Prop :=
  (∃ operations, Run (Step numberTraits) start operations state) ∧
    (state.tables ()).Represents numberTraits (state.entries ()) ∧
    (state.tables ()).keyCount.toNat = n ∧ (state.tables ()).deletedCount = 0 ∧
    ∀ x, n + 2 ≤ x → state.entries () x = none

theorem Grown.succ
    (hall : ∀ (operations : List (HashTableOperation Unit ℕ ℕ)) (state : HashTableState Unit ℕ ℕ),
      Run (Step numberTraits) start operations state →
        ∀ operation : HashTableOperation Unit ℕ ℕ, operation.Legal numberTraits →
          ∃ r, state.tables.execute numberTraits operation = .ok r)
    {n : ℕ} {state : HashTableState Unit ℕ ℕ} (h : Grown n state) :
    ∃ state', Grown (n + 1) state' := by
  obtain ⟨⟨operations, hrun⟩, hrep, hkeys, hdel, hnone⟩ := h
  have hvalid : numberTraits.ValidKey (numberTraits.extract (n + 2)) := by
    constructor
    · exact Nat.succ_ne_zero _
    · exact fun h => Nat.succ_ne_zero n (Nat.succ.inj h)
  have habsent := hnone (n + 2) le_rfl
  have hcan : (state.tables ()).CanGain numberTraits (n + 2) := by
    intro hlarge
    refine .inl ?_
    rw [hdel]
    by_contra hhalf
    change ¬ (state.tables ()).keyCount.toNat + 0 + 1 < 2 ^ 30 at hhalf
    obtain ⟨r, hr⟩ := hall operations state hrun (.add () (n + 2)) hvalid
    rcases hrep.cases with ⟨hnull, -⟩ | ⟨memory, hstores, hroom⟩
    · rw [hnull.tableSize_eq] at hlarge
      cases hlarge
    · rw [execute, hstores.add_fails hroom hlarge (by omega) hdel hvalid habsent]
        at hr
      cases hr
  obtain ⟨t', p, heq, hrep', -, hkeys', hdel'⟩ := hrep.add hvalid fun _ => hcan
  have hkeysSucc : (state.tables ()).keyCount.toNat + 1 < 2 ^ 32 := by
    rcases hrep.cases with ⟨hnull, -⟩ | ⟨memory, hstores, hroom⟩
    · rw [hnull.keyCount_eq]
      decide
    · have hlt := hroom.lt
      obtain ⟨-, hcases⟩ := size_cases hstores.size_pow
      omega
  have hstep : Step numberTraits state (.add () (n + 2)) ⟨update state.tables () t',
      (add () (n + 2)).apply numberTraits state.entries⟩ := by
    have hexecute := congrArg (fun r => r >>= fun x : HashTable ℕ × AddResult =>
      (pure (update state.tables () x.1, some x.2) : Except Failure _)) heq
    exact ⟨hvalid, ⟨_, hexecute⟩, rfl⟩
  refine ⟨_, ⟨_, hrun.snoc hstep⟩, ?_, ?_, ?_, ?_⟩
  · exact hrep'
  · dsimp only
    have hnew : (state.entries () (numberTraits.extract (n + 2))).isNone = true := by
      rw [show state.entries () (numberTraits.extract (n + 2)) = none from habsent]
      rfl
    rw [update_self, hkeys', hnew, if_pos rfl, UInt32.toNat_add, hkeys]
    exact Nat.mod_eq_of_lt (by rw [hkeys] at hkeysSucc; exact hkeysSucc)
  · rw [hdel] at hdel'
    exact UInt32.toNat_inj.mp (Nat.le_zero.mp hdel')
  · intro x hx
    dsimp only
    rw [apply, update_self, withEntry, update_of_ne]
    · exact hnone x (by omega)
    · change x ≠ n + 2
      omega

/-- Numbers are added to a table until `add` fails. -/
theorem not_hash_table_refines_map :
    ¬ ∀ (operations : List (HashTableOperation Unit ℕ ℕ)) (state : HashTableState Unit ℕ ℕ),
      Run (Step numberTraits) start operations state →
        ∀ operation : HashTableOperation Unit ℕ ℕ, operation.Legal numberTraits →
          ∃ r, state.tables.execute numberTraits operation = .ok r := by
  intro hall
  have hgrown : ∀ n, ∃ state, Grown n state := by
    intro n
    induction n with
    | zero =>
      exact ⟨start, ⟨[], .nil _⟩, create_null.represents, rfl, rfl, fun _ _ => rfl⟩
    | succ n ih =>
      obtain ⟨state, h⟩ := ih
      exact h.succ hall
  -- no table has room for so many
  obtain ⟨state, -, hrep, hkeys, -⟩ := hgrown (2 ^ 31)
  rcases hrep.cases with ⟨hnull, -⟩ | ⟨memory, hstores, hroom⟩
  · rw [hnull.keyCount_eq] at hkeys
    cases hkeys
  · have hlt := hroom.lt
    obtain ⟨-, hcases⟩ := size_cases hstores.size_pow
    omega

end HashTableState

end WebKit.WTF
