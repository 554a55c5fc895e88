import Mathlib.Data.List.Count
import Mathlib.Data.List.Dedup
import WebKit.Storage.StorageSystem

/-!
# How a map should handle messages

`settle` is `handle` but for one case: a clear that arrives keeps the values that are
pending, and leaves an unloaded map alone (`handle_eq_settle`). A message resets the map, or
keeps its seed and whether it is loaded (`settle_cases`). Two maps that agree on some keys
agree on them after any messages (`AgreeOn.settleAll`), so a local change can be moved past
the messages that are still on their way.
-/

namespace WebKit.Storage

open Replica List StorageMap StorageAreaMap Change Option

variable {messages : List AreaMapMessage}

namespace StorageAreaMap

variable {map a b : StorageAreaMap} {storageMap : StorageMap} {key k : WTFString}
  {pending : List WTFString} {message : AreaMapMessage}

/-- The clear that keeps the pending values. -/
def mergeClear (map : StorageAreaMap) : StorageAreaMap :=
  if map.hasPendingClear || map.hasPendingGetValues then map
  else match map.storageMap with
    | none => map
    | some storageMap =>
      { map with
        storageMap := some (keepPending storageMap some map.pendingValueChanges.dedup
          (.create map.quotaInBytes)) }

def settle (map : StorageAreaMap) : AreaMapMessage → StorageAreaMap
  | .dispatchStorageEvent id none _ => if id = 0 then map.mergeClear else map
  | message => map.handle message

theorem lookup_keepPending (newStorageMap : StorageMap) :
    (keepPending storageMap some pending newStorageMap).items.lookup k =
      if k ∈ pending then ((storageMap.getItem k).map some).or (newStorageMap.items.lookup k)
      else newStorageMap.items.lookup k := by
  induction pending generalizing newStorageMap with
  | nil => rfl
  | cons key pending ih =>
    unfold keepPending at ih ⊢
    rw [foldl_cons, ih]
    cases hget : storageMap.getItem key with
    | none =>
      by_cases hk : k = key
      · subst hk
        simp [hget]
      · simp [hk]
    | some value =>
      rw [lookup_setItemIgnoringQuota]
      by_cases hk : key = k
      · subst hk
        simp [hget]
      · simp [hk, Ne.symm hk]

theorem keepPending_of_none {stored : WTFString → Option WTFString} {newStorageMap : StorageMap}
    (h : ∀ key ∈ pending, storageMap.getItem key = none) :
    keepPending storageMap stored pending newStorageMap = newStorageMap := by
  induction pending with
  | nil => rfl
  | cons key pending ih =>
    unfold keepPending at ih ⊢
    rw [foldl_cons, h key mem_cons_self]
    exact ih fun key hkey => h key (mem_cons_of_mem _ hkey)

/-- The message is a clear by another process that nothing pending holds back. -/
def AppliesClear (map : StorageAreaMap) (message : AreaMapMessage) : Prop :=
  (∃ newValue, message = .dispatchStorageEvent 0 none newValue) ∧
    map.hasPendingClear = false ∧ map.hasPendingGetValues = false

theorem handle_eq_settle_of_not (h : ¬ map.AppliesClear message) :
    map.handle message = map.settle message := by
  cases message with
  | dispatchStorageEvent id key newValue =>
    cases key with
    | some key => rfl
    | none =>
      unfold handle settle dispatchStorageEvent applyChange mergeClear
      by_cases hid : id = 0
      · subst hid
        by_cases hpend : (map.hasPendingClear || map.hasPendingGetValues) = true
        · simp only [if_pos hpend]
        · exact absurd ⟨⟨newValue, rfl⟩, by simpa using hpend⟩ h
      · simp only [if_neg hid]
  | didGetValues | didSetItem | didRemoveItem | didClear | clearCache => rfl

theorem handle_eq_settle (hmap : map.storageMap = some storageMap)
    (h : ∀ key ∈ map.pendingValueChanges, storageMap.getItem key = none) :
    map.handle message = map.settle message := by
  by_cases happl : map.AppliesClear message
  · obtain ⟨⟨newValue, rfl⟩, hclear, hvalues⟩ := happl
    have hdedup : ∀ key ∈ map.pendingValueChanges.dedup, storageMap.getItem key = none :=
      fun key hkey => h key (mem_dedup.mp hkey)
    unfold handle settle dispatchStorageEvent applyChange mergeClear applyClear
    simp only [if_pos, hclear, hvalues, hmap, keepPending_of_none hdedup, Bool.or_false,
      Bool.false_eq_true, if_false]
  · exact handle_eq_settle_of_not happl

/-! ## Messages reset a map or keep its seed -/

/-- Every event only changes the items of a map, and leaves an unloaded map unloaded. -/
theorem settle_event (map : StorageAreaMap) (id : Nat) (key newValue : Option WTFString) :
    ∃ items, map.settle (.dispatchStorageEvent id key newValue) = { map with storageMap := items } ∧
      items.isSome = map.storageMap.isSome := by
  cases key with
  | none =>
    unfold settle mergeClear
    dsimp only
    split
    · split
      · exact ⟨map.storageMap, rfl, rfl⟩
      · split
        · exact ⟨map.storageMap, rfl, rfl⟩
        · rename_i storageMap hmap
          exact ⟨_, rfl, by rw [hmap]; rfl⟩
    · exact ⟨map.storageMap, rfl, rfl⟩
  | some key =>
    unfold settle handle dispatchStorageEvent applyChange applyKeyChange
    dsimp only
    split
    · split
      · exact ⟨map.storageMap, rfl, rfl⟩
      · split
        · exact ⟨map.storageMap, rfl, rfl⟩
        · cases newValue with
          | none => exact ⟨_, rfl, isSome_map⟩
          | some value => exact ⟨_, rfl, isSome_map⟩
    · exact ⟨map.storageMap, rfl, rfl⟩

/-- A message resets the map, or the map stays loaded or unloaded under the same seed. -/
theorem settle_cases (map : StorageAreaMap) (message : AreaMapMessage) :
    map.settle message = map.resetValues ∨ ((map.settle message).currentSeed = map.currentSeed ∧
        (map.settle message).storageMap.isSome = map.storageMap.isSome ∧
        (map.settle message).quotaInBytes = map.quotaInBytes ∧
        ((map.settle message).hasPendingGetValues = true →
          map.hasPendingGetValues = true ∧ message ≠ .didGetValues map.currentSeed)) := by
  cases message with
  | dispatchStorageEvent id key newValue =>
    obtain ⟨items, heq, hsome⟩ := settle_event map id key newValue
    rw [heq]
    exact .inr ⟨rfl, hsome, rfl, fun h => ⟨h, by simp⟩⟩
  | didGetValues seed =>
    refine .inr ?_
    unfold settle handle didGetValues
    dsimp only
    split
    · rename_i hseed
      exact ⟨rfl, rfl, rfl, fun h => ⟨h, fun heq => hseed (by injection heq with heq; exact heq.symm)⟩⟩
    · exact ⟨rfl, rfl, rfl, fun h => by cases h⟩
  | didSetItem seed key quotaError =>
    unfold settle handle didSetItem
    dsimp only
    split
    · exact .inr ⟨rfl, rfl, rfl, fun h => ⟨h, by simp⟩⟩
    · split
      · exact .inl rfl
      · exact .inr ⟨rfl, rfl, rfl, fun h => ⟨h, by simp⟩⟩
  | didRemoveItem seed key =>
    refine .inr ?_
    unfold settle handle didRemoveItem
    dsimp only
    split
    all_goals exact ⟨rfl, rfl, rfl, fun h => ⟨h, by simp⟩⟩
  | didClear seed =>
    refine .inr ?_
    unfold settle handle didClear
    dsimp only
    split
    all_goals exact ⟨rfl, rfl, rfl, fun h => ⟨h, by simp⟩⟩
  | clearCache => exact .inl rfl

theorem settle_storageMap_none (hmap : map.storageMap = none) :
    (map.settle message).storageMap = none := by
  rcases settle_cases map message with hreset | ⟨_, hsome, _, _⟩
  · rw [hreset]
    rfl
  · rw [hmap] at hsome
    exact not_isSome_iff_eq_none.mp (by rw [hsome]; simp)

/-- After the messages `messages`, in order. -/
def settleAll (map : StorageAreaMap) (messages : List AreaMapMessage) : StorageAreaMap :=
  messages.foldl settle map

@[simp] theorem settleAll_nil : map.settleAll [] = map := rfl

@[simp] theorem settleAll_cons (messages : List AreaMapMessage) :
    map.settleAll (message :: messages) = (map.settle message).settleAll messages := rfl

theorem settleAll_append (messages messages' : List AreaMapMessage) :
    map.settleAll (messages ++ messages') = (map.settleAll messages).settleAll messages' :=
  foldl_append

theorem settleAll_none (hmap : map.storageMap = none) (messages : List AreaMapMessage) :
    (map.settleAll messages).storageMap = none := by
  induction messages generalizing map with
  | nil => exact hmap
  | cons message messages ih => exact ih (settle_storageMap_none hmap)

theorem settleAll_loaded
    (hloaded : (map.settleAll messages).storageMap ≠ none) :
    map.storageMap ≠ none ∧ (map.settleAll messages).currentSeed = map.currentSeed := by
  induction messages generalizing map with
  | nil => exact ⟨hloaded, rfl⟩
  | cons message messages ih =>
    obtain ⟨hsettled, hseed⟩ := ih hloaded
    rcases settle_cases map message with hreset | ⟨hseed', hsome, _, _⟩
    · rw [hreset] at hsettled
      exact absurd rfl hsettled
    · refine ⟨fun hnone => hsettled (settle_storageMap_none hnone), ?_⟩
      rw [settleAll_cons, hseed, hseed']

/-- The answer to `GetValues` is on its way while the map waits for it. -/
def AwaitsValues (map : StorageAreaMap) (messages : List AreaMapMessage) : Prop :=
  map.hasPendingGetValues = true → .didGetValues map.currentSeed ∈ messages

theorem AwaitsValues.settle
    (h : map.AwaitsValues (message :: messages)) : (map.settle message).AwaitsValues messages := by
  intro hpend
  rcases settle_cases map message with hreset | ⟨hseed, _, _, hvalues⟩
  · rw [hreset] at hpend
    cases hpend
  · obtain ⟨hpend', hne⟩ := hvalues hpend
    rw [hseed]
    exact (mem_cons.mp (h hpend')).resolve_left (Ne.symm hne)

theorem AwaitsValues.settleAll (h : map.AwaitsValues messages) :
    (map.settleAll messages).hasPendingGetValues = false := by
  induction messages generalizing map with
  | nil => exact Bool.eq_false_iff.mpr fun hpend => not_mem_nil (h hpend)
  | cons message messages ih => exact ih h.settle

/-! ## Maps that agree on some keys -/

/-- Two maps in the same phase that agree on the keys in `P`. -/
structure AgreeOn (P : WTFString → Prop) (a b : StorageAreaMap) : Prop where
  seed : a.currentSeed = b.currentSeed
  clear : a.hasPendingClear = b.hasPendingClear
  values : a.hasPendingGetValues = b.hasPendingGetValues
  pending : ∀ k, P k → a.pendingValueChanges.count k = b.pendingValueChanges.count k
  items : Option.Rel (fun x y => ∀ k, P k → x.items.lookup k = y.items.lookup k)
    a.storageMap b.storageMap

variable {P : WTFString → Prop}

theorem lookup_mergeClear (hclear : map.hasPendingClear = false)
    (hvalues : map.hasPendingGetValues = false) (hmap : map.storageMap = some storageMap) :
    ∃ merged, map.mergeClear = { map with storageMap := some merged } ∧ ∀ k, merged.items.lookup k =
        if k ∈ map.pendingValueChanges then (storageMap.getItem k).map some else none := by
  refine ⟨keepPending storageMap some map.pendingValueChanges.dedup (.create map.quotaInBytes),
    ?_, fun k => ?_⟩
  · unfold mergeClear
    simp [hclear, hvalues, hmap]
  · rw [lookup_keepPending, lookup_create, or_none]
    simp only [mem_dedup]

/-- What a change of one key does to the items of a map that nothing holds back. -/
theorem lookup_applyKeyChange (key : WTFString) (newValue : Option WTFString)
    (hmap : map.storageMap = some storageMap) :
    ∃ changed, map.applyKeyChange key newValue = { map with storageMap := some changed } ∧
      ∀ k, changed.items.lookup k =
        if key = k ∧ key ∉ map.pendingValueChanges then newValue.map some
        else storageMap.items.lookup k := by
  unfold applyKeyChange shouldApplyChangeForKey
  by_cases hmem : key ∈ map.pendingValueChanges
  · refine ⟨storageMap, ?_, fun k => by simp [hmem]⟩
    rw [← hmap]
    simp [hmem]
  · cases newValue with
    | none =>
      refine ⟨(storageMap.removeItem key).1, by simp [hmap, hmem], fun k => ?_⟩
      rw [lookup_removeItem]
      simp [hmem]
    | some value =>
      refine ⟨storageMap.setItemIgnoringQuota key (some value), by simp [hmap, hmem], fun k => ?_⟩
      rw [lookup_setItemIgnoringQuota]
      simp [hmem]

theorem AgreeOn.storageMap_eq_none (h : AgreeOn P a b) :
    a.storageMap = none ↔ b.storageMap = none := by
  have hitems := h.items
  cases ha : a.storageMap with
  | none =>
    rw [ha] at hitems
    cases hb : b.storageMap with
    | none => simp
    | some y => rw [hb] at hitems; cases hitems
  | some x =>
    rw [ha] at hitems
    cases hb : b.storageMap with
    | none => rw [hb] at hitems; cases hitems
    | some y => simp

theorem AgreeOn.resetValues (h : AgreeOn P a b) : AgreeOn P a.resetValues b.resetValues where
  seed := congrArg (· + 1) h.seed
  clear := rfl
  values := rfl
  pending _ _ := rfl
  items := .none

theorem AgreeOn.erase (h : AgreeOn P a b) (key : WTFString) :
    AgreeOn P { a with pendingValueChanges := a.pendingValueChanges.erase key }
      { b with pendingValueChanges := b.pendingValueChanges.erase key } where
  seed := h.seed
  clear := h.clear
  values := h.values
  pending k hk := by
    rw [count_erase, count_erase, h.pending k hk]
  items := h.items

theorem AgreeOn.mem_pending (h : AgreeOn P a b) (hk : P k) :
    k ∈ a.pendingValueChanges ↔ k ∈ b.pendingValueChanges := by
  rw [← count_pos_iff, ← count_pos_iff, h.pending k hk]

theorem AgreeOn.setItems (h : AgreeOn P a b) {x y : StorageMap}
    (hxy : ∀ k, P k → x.items.lookup k = y.items.lookup k) :
    AgreeOn P { a with storageMap := some x } { b with storageMap := some y } where
  seed := h.seed
  clear := h.clear
  values := h.values
  pending := h.pending
  items := .some hxy

theorem AgreeOn.event (h : AgreeOn P a b) (id : Nat) (key newValue : Option WTFString) :
    AgreeOn P (a.settle (.dispatchStorageEvent id key newValue))
      (b.settle (.dispatchStorageEvent id key newValue)) := by
  by_cases hid : id = 0
  swap
  · cases key <;> simpa [settle, handle, dispatchStorageEvent, hid] using h
  subst hid
  by_cases hpend : (a.hasPendingClear || a.hasPendingGetValues) = true
  · have hpend' : (b.hasPendingClear || b.hasPendingGetValues) = true := by
      rw [← h.clear, ← h.values]
      exact hpend
    cases key <;>
      simpa only [settle, handle, dispatchStorageEvent, applyChange, mergeClear, if_pos,
        hpend, hpend'] using h
  have hpend' : (b.hasPendingClear || b.hasPendingGetValues) = false := by
    rw [← h.clear, ← h.values]
    exact Bool.eq_false_iff.mpr hpend
  have hpend := Bool.eq_false_iff.mpr hpend
  obtain ⟨hca, hva⟩ := Bool.or_eq_false_iff.mp hpend
  obtain ⟨hcb, hvb⟩ := Bool.or_eq_false_iff.mp hpend'
  rcases ha : a.storageMap with _ | x
  · have hb := h.storageMap_eq_none.mp ha
    cases key <;>
      simpa [settle, handle, dispatchStorageEvent, applyChange, mergeClear, applyKeyChange,
        shouldApplyChangeForKey, hpend, hpend', ha, hb] using h
  obtain ⟨y, hb, hxy⟩ : ∃ y, b.storageMap = some y ∧
      ∀ k, P k → x.items.lookup k = y.items.lookup k := by
    have hitems := h.items
    rw [ha] at hitems
    cases hrel : b.storageMap with
    | none => rw [hrel] at hitems; cases hitems
    | some y => rw [hrel] at hitems; cases hitems with | some hxy => exact ⟨y, rfl, hxy⟩
  cases key with
  | none =>
    obtain ⟨merged, heq, hget⟩ := lookup_mergeClear hca hva ha
    obtain ⟨merged', heq', hget'⟩ := lookup_mergeClear hcb hvb hb
    simp only [settle, if_pos, heq, heq']
    refine h.setItems fun k hk => ?_
    rw [hget, hget', getItem, getItem, hxy k hk]
    simp only [h.mem_pending hk]
  | some key =>
    obtain ⟨changed, heq, hget⟩ := lookup_applyKeyChange key newValue ha
    obtain ⟨changed', heq', hget'⟩ := lookup_applyKeyChange key newValue hb
    simp only [settle, handle, dispatchStorageEvent, applyChange, hpend, hpend', if_pos,
      Bool.false_eq_true, if_false, heq, heq']
    refine h.setItems fun k hk => ?_
    rw [hget, hget', hxy k hk]
    by_cases hkey : key = k
    · subst hkey
      simp only [h.mem_pending hk]
    · simp only [hkey, false_and, if_false]

theorem AgreeOn.settle (h : AgreeOn P a b) (message : AreaMapMessage) :
    AgreeOn P (a.settle message) (b.settle message) := by
  have hiff : ∀ seed, a.currentSeed ≠ seed ↔ b.currentSeed ≠ seed := fun seed => by rw [h.seed]
  cases message with
  | dispatchStorageEvent id key newValue => exact h.event id key newValue
  | didGetValues seed =>
    simp only [StorageAreaMap.settle, handle, didGetValues, hiff]
    split
    · exact h
    · exact ⟨h.seed, h.clear, rfl, h.pending, h.items⟩
  | didSetItem seed key quotaError =>
    simp only [StorageAreaMap.settle, handle, didSetItem, hiff]
    split
    · exact h
    · split
      · exact h.resetValues
      · exact h.erase key
  | didRemoveItem seed key =>
    simp only [StorageAreaMap.settle, handle, didRemoveItem, hiff]
    split
    · exact h
    · exact h.erase key
  | didClear seed =>
    simp only [StorageAreaMap.settle, handle, didClear, hiff]
    split
    · exact h
    · exact ⟨h.seed, rfl, h.values, h.pending, h.items⟩
  | clearCache => exact h.resetValues

theorem AgreeOn.settleAll (h : AgreeOn P a b) (messages : List AreaMapMessage) :
    AgreeOn P (a.settleAll messages) (b.settleAll messages) := by
  induction messages generalizing a b with
  | nil => exact h
  | cons message messages ih => exact ih (h.settle message)

/-- What the items of a map are on the keys that no change on its way touches. -/
def Agrees (map : StorageAreaMap) (changes : List (Change WTFString (Option WTFString)))
    (f : WTFString → Option (Option WTFString)) : Prop :=
  ∀ storageMap, map.storageMap = some storageMap → ∀ key, lastValue changes key = none →
    storageMap.items.lookup key = f key

theorem AgreeOn.agrees {changes : List (Change WTFString (Option WTFString))}
    {f : WTFString → Option (Option WTFString)} (h : AgreeOn P a b) (ha : a.Agrees changes f)
    (hP : ∀ key, lastValue changes key = none → P key) : b.Agrees changes f := by
  intro y hb key hkey
  have hitems := h.items
  rw [hb] at hitems
  cases hx : a.storageMap with
  | none => rw [hx] at hitems; cases hitems
  | some x =>
    rw [hx] at hitems
    cases hitems with
    | some hxy => rw [← hxy key (hP key hkey), ha x hx key hkey]

end StorageAreaMap

/-!
## What is pending in one map

`Kept` ties the pending keys, the pending clear and the items of a map to the list of its
changes that have no answer yet: those sent under the current seed are counted as pending,
and they show in the items. A message that is no answer keeps it (`Kept.settle`), an answer
takes the first change off the list (`Kept.settle_answer`), and a local change adds one at
the end (`Kept.change`, `Kept.clear`).
-/

open Replica

/-- The changes that were sent under a seed. -/
def currentChanges (seed : Nat) (sent : List SentChange) :
    List (Change WTFString (Option WTFString)) :=
  (sent.filter (·.seed = seed)).map (·.change)

section currentChanges

variable {seed : Nat} {u : SentChange} {sent : List SentChange} {key : WTFString}

theorem currentChanges_cons_of_eq (h : u.seed = seed) :
    currentChanges seed (u :: sent) = u.change :: currentChanges seed sent := by
  simp [currentChanges, h]

theorem currentChanges_cons_of_ne (h : u.seed ≠ seed) :
    currentChanges seed (u :: sent) = currentChanges seed sent := by
  simp [currentChanges, h]

theorem currentChanges_concat (h : u.seed = seed) :
    currentChanges seed (sent ++ [u]) = currentChanges seed sent ++ [u.change] := by
  simp [currentChanges, h]

theorem currentChanges_append (sent' : List SentChange) :
    currentChanges seed (sent ++ sent') = currentChanges seed sent ++ currentChanges seed sent' := by
  simp [currentChanges]

theorem currentChanges_of_lt (h : ∀ u ∈ sent, u.seed < seed) : currentChanges seed sent = [] := by
  unfold currentChanges
  rw [filter_eq_nil_iff.mpr fun u hu => ?_]
  · rfl
  · have := h u hu
    simp
    omega

theorem mem_of_mem_currentChanges {c : Change WTFString (Option WTFString)}
    (h : c ∈ currentChanges seed sent) : c ∈ sent.map (·.change) := by
  obtain ⟨u, hu, rfl⟩ := mem_map.mp h
  exact mem_map_of_mem (mem_of_mem_filter hu)

theorem lastValue_currentChanges_eq_none (seed : Nat)
    (h : lastValue (sent.map (·.change)) key = none) :
    lastValue (currentChanges seed sent) key = none :=
  lastValue_eq_none.mpr fun c hc => lastValue_eq_none.mp h c (mem_of_mem_currentChanges hc)

end currentChanges

namespace StorageAreaMap

/-- The changes of a map without answer, in the order in which they were sent. -/
structure Kept (map : StorageAreaMap) (sent : List SentChange) : Prop where
  sorted : sent.Pairwise (·.seed ≤ ·.seed)
  le : ∀ u ∈ sent, u.seed ≤ map.currentSeed
  notNull : ∀ u ∈ sent, ∀ key, u.change ≠ .set key none
  unloaded : map.storageMap = none → map.pendingValueChanges = [] ∧
    map.hasPendingClear = false ∧ map.hasPendingGetValues = false ∧
    ∀ u ∈ sent, u.seed < map.currentSeed
  pending : ∀ key, map.pendingValueChanges.count key =
    (currentChanges map.currentSeed sent).countP (·.isAbout key)
  cleared : (currentChanges map.currentSeed sent).countP (·.isClear) = map.hasPendingClear.toNat
  shows : ∀ storageMap, map.storageMap = some storageMap → ∀ key value,
    lastValue (currentChanges map.currentSeed sent) key = some value →
      storageMap.items.lookup key = value

namespace Kept

variable {map : StorageAreaMap} {storageMap : StorageMap} {sent : List SentChange}
  {u : SentChange} {key : WTFString} {message : AreaMapMessage}

/-- Only a pending key, or any key while a clear is pending, is touched by the changes under
the current seed. -/
theorem lastValue_eq_none (h : map.Kept sent) (hclear : map.hasPendingClear = false)
    (hkey : key ∉ map.pendingValueChanges) :
    lastValue (currentChanges map.currentSeed sent) key = none := by
  refine Replica.lastValue_eq_none.mpr fun c hc => valueAt_eq_none_of_ne ?_ ?_
  · have hcount := h.pending key
    rw [count_eq_zero.mpr hkey, eq_comm, countP_eq_zero] at hcount
    exact Bool.eq_false_iff.mpr (hcount c hc)
  · have hcount := h.cleared
    rw [hclear, Bool.toNat_false, countP_eq_zero] at hcount
    exact Bool.eq_false_iff.mpr (hcount c hc)

theorem not_mem_pending (h : map.Kept sent)
    (hkey : lastValue (currentChanges map.currentSeed sent) key = none) :
    key ∉ map.pendingValueChanges := by
  rw [← count_eq_zero, h.pending key, countP_eq_zero]
  intro c hc
  rw [isAbout_eq_false (Replica.lastValue_eq_none.mp hkey c hc)]
  exact Bool.false_ne_true

theorem not_hasPendingClear (h : map.Kept sent)
    (hkey : lastValue (currentChanges map.currentSeed sent) key = none) :
    map.hasPendingClear = false := by
  have hcount := h.cleared
  rw [countP_eq_zero.mpr fun c hc => by
    rw [isClear_eq_false (Replica.lastValue_eq_none.mp hkey c hc)]
    exact Bool.false_ne_true] at hcount
  cases hmap : map.hasPendingClear with
  | false => rfl
  | true => rw [hmap] at hcount; cases hcount

theorem value_ne_null (h : map.Kept sent) {value : Option (Option WTFString)}
    (hvalue : lastValue (currentChanges map.currentSeed sent) key = some value) :
    value ≠ some none := by
  rintro rfl
  obtain ⟨c, hc, hset⟩ := exists_of_lastValue hvalue
  obtain ⟨u, hu, rfl⟩ := mem_map.mp (mem_of_mem_currentChanges hc)
  obtain ⟨key', heq⟩ := eq_set_of_valueAt hset
  exact h.notNull u hu _ heq

theorem resetValues (h : map.Kept sent) : map.resetValues.Kept sent := by
  have hlt : ∀ u ∈ sent, u.seed < map.resetValues.currentSeed := fun u hu =>
    Nat.lt_succ_of_le (h.le u hu)
  have hnil := currentChanges_of_lt hlt
  refine ⟨h.sorted, fun u hu => (hlt u hu).le, h.notNull, fun _ => ⟨rfl, rfl, rfl, hlt⟩,
    fun key => ?_, ?_, fun storageMap hmap => ?_⟩
  · rw [hnil]
    rfl
  · rw [hnil]
    rfl
  · cases hmap

theorem setItems (h : map.Kept sent) {storageMap : StorageMap}
    (hshows : ∀ key value, lastValue (currentChanges map.currentSeed sent) key = some value →
      storageMap.items.lookup key = value) :
    Kept { map with storageMap := some storageMap } sent where
  sorted := h.sorted
  le := h.le
  notNull := h.notNull
  unloaded hnone := by cases hnone
  pending := h.pending
  cleared := h.cleared
  shows storageMap' heq := by
    cases heq
    exact hshows

theorem event (h : map.Kept sent) (id : Nat) (key newValue : Option WTFString) :
    (map.settle (.dispatchStorageEvent id key newValue)).Kept sent := by
  by_cases hid : id = 0
  swap
  · cases key <;> simpa [settle, handle, dispatchStorageEvent, hid] using h
  subst hid
  by_cases hpend : (map.hasPendingClear || map.hasPendingGetValues) = true
  · cases key <;>
      simpa only [settle, handle, dispatchStorageEvent, applyChange, mergeClear, if_pos,
        hpend] using h
  have hpend := Bool.eq_false_iff.mpr hpend
  obtain ⟨hclear, hvalues⟩ := Bool.or_eq_false_iff.mp hpend
  cases hmap : map.storageMap with
  | none =>
    cases key <;>
      simpa [settle, handle, dispatchStorageEvent, applyChange, mergeClear, applyKeyChange,
        shouldApplyChangeForKey, hpend, hmap] using h
  | some storageMap =>
    cases key with
    | none =>
      obtain ⟨merged, heq, hget⟩ := lookup_mergeClear hclear hvalues hmap
      simp only [settle, if_pos, heq]
      refine h.setItems fun key value hvalue => ?_
      have hmem : key ∈ map.pendingValueChanges := by
        by_contra hkey
        rw [h.lastValue_eq_none hclear hkey] at hvalue
        cases hvalue
      have hnull := h.value_ne_null hvalue
      rw [hget, if_pos hmem, getItem, h.shows storageMap hmap key value hvalue]
      rcases value with _ | _ | value
      · rfl
      · exact absurd rfl hnull
      · rfl
    | some key =>
      obtain ⟨changed, heq, hget⟩ := lookup_applyKeyChange key newValue hmap
      simp only [settle, handle, dispatchStorageEvent, applyChange, hpend, if_pos,
        Bool.false_eq_true, if_false, heq]
      refine h.setItems fun k value hvalue => ?_
      rw [hget, if_neg, h.shows storageMap hmap k value hvalue]
      rintro ⟨rfl, hkey⟩
      rw [h.lastValue_eq_none hclear hkey] at hvalue
      cases hvalue

theorem settle (h : map.Kept sent) (hans : message.isAnswer = false) :
    (map.settle message).Kept sent := by
  cases message with
  | dispatchStorageEvent id key newValue => exact h.event id key newValue
  | didGetValues seed =>
    unfold settle handle didGetValues
    dsimp only
    split
    · exact h
    · exact ⟨h.sorted, h.le, h.notNull,
        fun hnone => ⟨(h.unloaded hnone).1, (h.unloaded hnone).2.1, rfl, (h.unloaded hnone).2.2.2⟩,
        h.pending, h.cleared, h.shows⟩
  | didSetItem | didRemoveItem | didClear => cases hans
  | clearCache => exact h.resetValues

theorem tail (h : map.Kept (u :: sent)) {pending : List WTFString} {clear : Bool}
    (hpend : ∀ key, pending.count key =
      (currentChanges map.currentSeed sent).countP (·.isAbout key))
    (hclear : (currentChanges map.currentSeed sent).countP (·.isClear) = clear.toNat) :
    Kept { map with pendingValueChanges := pending, hasPendingClear := clear } sent where
  sorted := (pairwise_cons.mp h.sorted).2
  le v hv := h.le v (mem_cons_of_mem _ hv)
  notNull v hv := h.notNull v (mem_cons_of_mem _ hv)
  unloaded hnone := by
    obtain ⟨_, _, hvalues, hlt⟩ := h.unloaded hnone
    have hlt' : ∀ v ∈ sent, v.seed < map.currentSeed := fun v hv =>
      hlt v (mem_cons_of_mem _ hv)
    rw [currentChanges_of_lt hlt'] at hpend hclear
    refine ⟨eq_nil_iff_forall_not_mem.mpr fun key => ?_, ?_, hvalues, hlt'⟩
    · exact count_eq_zero.mp (hpend key)
    · cases clear with
      | false => rfl
      | true => cases hclear
  pending := hpend
  cleared := hclear
  shows storageMap hmap key value hvalue := by
    refine h.shows storageMap hmap key value ?_
    by_cases hseed : u.seed = map.currentSeed
    · rw [currentChanges_cons_of_eq hseed, lastValue, hvalue]
      rfl
    · rw [currentChanges_cons_of_ne hseed, hvalue]

theorem tail_of_ne (h : map.Kept (u :: sent)) (hseed : u.seed ≠ map.currentSeed) :
    map.Kept sent := by
  have hpend := h.pending
  have hcleared := h.cleared
  rw [currentChanges_cons_of_ne hseed] at hpend hcleared
  exact h.tail hpend hcleared

theorem tail_erase (h : map.Kept (u :: sent)) (hseed : u.seed = map.currentSeed)
    (habout : ∀ k, u.change.isAbout k = decide (key = k)) (hclear : u.change.isClear = false) :
    Kept { map with pendingValueChanges := map.pendingValueChanges.erase key } sent := by
  refine h.tail (fun k => ?_) ?_
  · have hcount := h.pending k
    rw [currentChanges_cons_of_eq hseed, countP_cons, habout] at hcount
    rw [count_erase, hcount]
    by_cases hk : key = k <;> simp [hk]
  · have hcount := h.cleared
    rw [currentChanges_cons_of_eq hseed, countP_cons, hclear] at hcount
    simpa using hcount

theorem tail_clear (h : map.Kept (u :: sent)) (hseed : u.seed = map.currentSeed)
    (hclear : u.change = .clear) : Kept { map with hasPendingClear := false } sent := by
  refine h.tail (fun k => ?_) ?_
  · have hcount := h.pending k
    rw [currentChanges_cons_of_eq hseed, countP_cons, hclear] at hcount
    simpa [isAbout] using hcount
  · have hcount := h.cleared
    rw [currentChanges_cons_of_eq hseed, countP_cons_of_pos (by rw [hclear]; rfl)] at hcount
    have hle := Bool.toNat_le map.hasPendingClear
    rw [Bool.toNat_false]
    omega

end Kept

/-- The message answers the change. -/
inductive Answers : AreaMapMessage → SentChange → Prop
  | didSetItem (seed : Nat) (key : WTFString) (value : Option WTFString) (quotaError : Bool) :
    Answers (.didSetItem seed key quotaError) ⟨seed, .set key value⟩
  | didRemoveItem (seed : Nat) (key : WTFString) :
    Answers (.didRemoveItem seed key) ⟨seed, .remove key⟩
  | didClear (seed : Nat) : Answers (.didClear seed) ⟨seed, .clear⟩

namespace Kept

variable {map : StorageAreaMap} {storageMap : StorageMap} {sent : List SentChange}
  {u : SentChange} {key : WTFString} {message : AreaMapMessage}

theorem settle_answer (h : map.Kept (u :: sent)) (hans : Answers message u) :
    (map.settle message).Kept sent := by
  cases hans with
  | didSetItem seed key value quotaError =>
    unfold StorageAreaMap.settle handle didSetItem
    dsimp only
    split
    · rename_i hseed
      exact h.tail_of_ne (Ne.symm hseed)
    · rename_i hseed
      split
      · have hreset := h.resetValues
        exact hreset.tail_of_ne ((hreset.unloaded rfl).2.2.2 _ mem_cons_self).ne
      · exact h.tail_erase (not_not.mp hseed).symm (fun k => rfl) rfl
  | didRemoveItem seed key =>
    unfold StorageAreaMap.settle handle didRemoveItem
    dsimp only
    split
    · rename_i hseed
      exact h.tail_of_ne (Ne.symm hseed)
    · rename_i hseed
      exact h.tail_erase (not_not.mp hseed).symm (fun k => rfl) rfl
  | didClear seed =>
    unfold StorageAreaMap.settle handle didClear
    dsimp only
    split
    · rename_i hseed
      exact h.tail_of_ne (Ne.symm hseed)
    · rename_i hseed
      exact h.tail_clear (not_not.mp hseed).symm rfl

theorem settleAll {answered : List SentChange}
    (hans : List.Forall₂ Answers (messages.filter (·.isAnswer)) answered)
    (h : map.Kept (answered ++ sent)) : (map.settleAll messages).Kept sent := by
  induction messages generalizing map answered with
  | nil =>
    cases hans
    exact h
  | cons message messages ih =>
    cases hisAnswer : message.isAnswer with
    | false =>
      rw [filter_cons_of_neg (by simp [hisAnswer])] at hans
      exact ih hans (h.settle hisAnswer)
    | true =>
      rw [filter_cons_of_pos hisAnswer] at hans
      cases hans with
      | cons hanswer hans => exact ih hans (h.settle_answer hanswer)

theorem load (h : map.Kept sent) (hnone : map.storageMap = none) (storageMap : StorageMap)
    (values : Bool) :
    Kept { map with storageMap := some storageMap, hasPendingGetValues := values } sent where
  sorted := h.sorted
  le := h.le
  notNull := h.notNull
  unloaded hnone' := by cases hnone'
  pending := h.pending
  cleared := h.cleared
  shows storageMap' _ key value hvalue := by
    rw [currentChanges_of_lt (h.unloaded hnone).2.2.2] at hvalue
    cases hvalue

theorem change (h : map.Kept sent) (hmap : map.storageMap = some storageMap)
    (hseed : u.seed = map.currentSeed) (habout : ∀ k, u.change.isAbout k = decide (key = k))
    (hclear : u.change.isClear = false) (hnull : ∀ key, u.change ≠ .set key none)
    {changed : StorageMap}
    (hget : ∀ k, changed.items.lookup k = u.change.apply storageMap.items.lookup k) :
    Kept { map with
      storageMap := some changed
      pendingValueChanges := key :: map.pendingValueChanges } (sent ++ [u]) where
  sorted := pairwise_append.mpr ⟨h.sorted, pairwise_singleton _ _, fun v hv w hw => by
    rw [mem_singleton.mp hw, hseed]
    exact h.le v hv⟩
  le v hv := by
    rcases mem_append.mp hv with hv | hv
    · exact h.le v hv
    · rw [mem_singleton.mp hv]
      exact hseed.le
  notNull v hv := by
    rcases mem_append.mp hv with hv | hv
    · exact h.notNull v hv
    · rw [mem_singleton.mp hv]
      exact hnull
  unloaded hnone := by cases hnone
  pending k := by
    rw [currentChanges_concat hseed, countP_append, count_cons, h.pending k,
      countP_singleton, habout]
    by_cases hk : key = k <;> simp [hk]
  cleared := by
    rw [currentChanges_concat hseed, countP_append, h.cleared, countP_singleton, hclear]
    simp
  shows storageMap' heq k value hvalue := by
    cases heq
    rw [currentChanges_concat hseed, lastValue_concat] at hvalue
    rw [hget]
    cases hat : u.change.valueAt k with
    | none =>
      rw [hat, none_or] at hvalue
      rw [apply_of_none _ hat, h.shows storageMap hmap k value hvalue]
    | some value' =>
      rw [hat, some_or, some.injEq] at hvalue
      rw [apply_of_some _ hat, hvalue]

theorem clear (h : map.Kept sent) (id : ℕ+) :
    (map.clear id).1.Kept (sent ++ [⟨map.currentSeed + 1, .clear⟩]) := by
  have hlt : ∀ u ∈ sent, u.seed < map.currentSeed + 1 := (h.resetValues.unloaded rfl).2.2.2
  have hcur : currentChanges (map.currentSeed + 1)
      (sent ++ [⟨map.currentSeed + 1, .clear⟩]) = [.clear] := by
    have hseed : (⟨map.currentSeed + 1, .clear⟩ : SentChange).seed = map.currentSeed + 1 := rfl
    rw [currentChanges_concat hseed, currentChanges_of_lt hlt]
    rfl
  refine ⟨pairwise_append.mpr ⟨h.sorted, pairwise_singleton _ _, fun v hv w hw => ?_⟩,
    fun v hv => ?_, fun v hv => ?_, (fun hnone => by cases hnone), fun key => ?_, ?_,
    fun storageMap heq key value hvalue => ?_⟩
  · rw [mem_singleton.mp hw]
    exact (hlt v hv).le
  · rcases mem_append.mp hv with hv | hv
    · exact (hlt v hv).le
    · rw [mem_singleton.mp hv]
      exact le_rfl
  · rcases mem_append.mp hv with hv | hv
    · exact h.notNull v hv
    · rw [mem_singleton.mp hv]
      simp
  · change [].count key = (currentChanges (map.currentSeed + 1) _).countP _
    rw [hcur]
    rfl
  · change (currentChanges (map.currentSeed + 1) _).countP _ = _
    rw [hcur]
    rfl
  · cases heq
    change lastValue (currentChanges (map.currentSeed + 1) _) key = _ at hvalue
    rw [hcur] at hvalue
    cases hvalue
    exact lookup_create _

end Kept

/-- What a local change of one key comes to: it has no effect and is not sent, or it is
made, counted as pending and sent. -/
def MakesChange (map : StorageAreaMap) (storageMap : StorageMap) (key : WTFString)
    (request : ManagerMessage) (change : Change WTFString (Option WTFString))
    (result : StorageAreaMap × Option ManagerMessage) : Prop :=
  (∃ storageMap' : StorageMap, result = ({ map with storageMap := some storageMap' }, none) ∧
    ∀ k, storageMap'.items.lookup k = storageMap.items.lookup k) ∨
  ∃ storageMap' : StorageMap, result = ({ map with
      storageMap := some storageMap'
      pendingValueChanges := key :: map.pendingValueChanges }, some request) ∧
    ∀ k, storageMap'.items.lookup k = change.apply storageMap.items.lookup k

theorem makesChange_setItem (map : StorageAreaMap) (storageMap : StorageMap) (id : ℕ+)
    (key value : WTFString) :
    MakesChange map storageMap key (.setItem id map.currentSeed key value)
      (.set key (some value)) (map.setItem storageMap id key value) := by
  unfold setItem
  dsimp only
  split
  · rename_i hquota
    exact .inl ⟨_, rfl, fun k => by rw [setItem_of_quotaException hquota]⟩
  · rename_i hquota
    have hitems := setItem_items (Bool.eq_false_iff.mpr hquota)
    split
    · rename_i hsame
      refine .inl ⟨_, rfl, fun k => ?_⟩
      rw [setItem_oldValue, getItem, join_eq_some_iff] at hsame
      rw [hitems, lookup_insert]
      split
      · rename_i hk
        rw [← hk, hsame]
      · rfl
    · refine .inr ⟨_, rfl, fun k => ?_⟩
      rw [hitems, lookup_insert, apply, valueAt]
      split <;> rfl

theorem makesChange_removeItem (map : StorageAreaMap) {storageMap : StorageMap} (id : ℕ+)
    {key : WTFString} (hnull : storageMap.items.lookup key ≠ some none) :
    MakesChange map storageMap key (.removeItem id map.currentSeed key) (.remove key)
      (map.removeItem storageMap id key) := by
  unfold removeItem
  dsimp only
  split
  · rename_i hnone
    refine .inl ⟨_, rfl, fun k => ?_⟩
    rw [removeItem_oldValue, isNone_iff_eq_none, getItem, join_eq_none_iff] at hnone
    rw [lookup_removeItem]
    split
    · rename_i hk
      rw [← hk, hnone.resolve_right hnull]
    · rfl
  · refine .inr ⟨_, rfl, fun k => ?_⟩
    rw [lookup_removeItem, apply, valueAt]
    split <;> rfl

end StorageAreaMap

end WebKit.Storage
