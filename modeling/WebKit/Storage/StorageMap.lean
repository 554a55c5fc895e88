import Mathlib.Data.List.AList
import Mathlib.Data.PNat.Basic

/-!
# `StorageMap`

The items of one storage area with its quota, as both processes keep them. A `String` is
the list of its UTF-16 code units and a null `String` is `none`. The map's values may be
null: `setItem` is only asserted to be called with a value that is not, and an empty string
comes back from the database as a null one.

Lengths are `unsigned` in the source and wrap around here too. The reference count and the
copy on write that goes with it do not appear: every holder has its own value.
-/

namespace WebKit.Storage

open Option

/-- A `String` that is not null. -/
abbrev WTFString := List UInt16

abbrev Items := AList fun _ : WTFString => Option WTFString

/-- `String::length`, 0 for a null string. -/
def length : Option WTFString → UInt32
  | none => 0
  | some s => .ofNat s.length

structure StorageMap where
  items : Items
  quotaSize : UInt32
  currentLength : UInt32

namespace StorageMap

def noQuota : UInt32 := 0xffffffff

def create (quotaSize : UInt32) : StorageMap := ⟨∅, quotaSize, 0⟩

/-- `HashMap::get`: a null string for a key that is not in the map. -/
def getItem (map : StorageMap) (key : WTFString) : Option WTFString :=
  (map.items.lookup key).join

structure SetItemResult where
  storageMap : StorageMap
  oldValue : Option WTFString
  quotaException : Bool

/-- The quota tracking of `setItem`: the new length, and whether it overflowed. -/
def lengthAfterSet (map : StorageMap) (key : WTFString) (value : Option WTFString) :
    UInt32 × Bool :=
  let newLength := map.currentLength
  let overflow : Bool := newLength + length value < newLength
  let newLength := newLength + length value
  let oldValue := map.getItem key
  let overflow : Bool := overflow || newLength - length oldValue > newLength
  let newLength := newLength - length oldValue
  let adjustedKeyLength := if oldValue.isNone then length (some key) else 0
  let overflow : Bool := overflow || newLength + adjustedKeyLength < newLength
  (newLength + adjustedKeyLength, overflow)

def setItem (map : StorageMap) (key : WTFString) (value : Option WTFString) : SetItemResult :=
  let newLength := (map.lengthAfterSet key value).1
  let overflow := (map.lengthAfterSet key value).2
  let overQuota : Bool := newLength > map.quotaSize / 2
  if map.quotaSize ≠ noQuota ∧ (overflow || overQuota) then ⟨map, map.getItem key, true⟩
  else ⟨⟨map.items.insert key value, map.quotaSize, newLength⟩, map.getItem key, false⟩

/-- `setItem` with the quota lifted for the time of the call. -/
def setItemIgnoringQuota (map : StorageMap) (key : WTFString) (value : Option WTFString) :
    StorageMap :=
  let result := ({ map with quotaSize := noQuota }.setItem key value).storageMap
  { result with quotaSize := map.quotaSize }

/-- The map without the key, and the old value. -/
def removeItem (map : StorageMap) (key : WTFString) : StorageMap × Option WTFString :=
  let oldValue := map.getItem key
  let keyLength := if oldValue.isSome then length (some key) else 0
  (⟨map.items.erase key, map.quotaSize, map.currentLength - keyLength - length oldValue⟩, oldValue)

/-- `HashMap::add`: a key that is there keeps its value. -/
def importItem (map : StorageMap) (key : WTFString) (value : Option WTFString) : StorageMap :=
  ⟨if key ∈ map.items then map.items else map.items.insert key value, map.quotaSize,
    map.currentLength + length (some key) + length value⟩

def importItems (map : StorageMap) (items : Items) : StorageMap :=
  items.entries.foldl (fun map entry => map.importItem entry.1 entry.2) map

variable {map : StorageMap} {key k : WTFString} {value : Option WTFString}

@[simp] theorem lookup_create (quota : UInt32) : (create quota).items.lookup k = none :=
  AList.lookup_empty k

theorem setItem_oldValue : (map.setItem key value).oldValue = map.getItem key := by
  unfold setItem
  dsimp only
  split <;> rfl

theorem setItem_of_quotaException (h : (map.setItem key value).quotaException = true) :
    (map.setItem key value).storageMap = map := by
  unfold setItem at h ⊢
  dsimp only at h ⊢
  split at h
  · rename_i hquota
    rw [if_pos hquota]
  · cases h

theorem setItem_items (h : (map.setItem key value).quotaException = false) :
    (map.setItem key value).storageMap.items = map.items.insert key value := by
  unfold setItem at h ⊢
  dsimp only at h ⊢
  split at h
  · cases h
  · rename_i hquota
    rw [if_neg hquota]

theorem lookup_insert (items : Items) :
    (items.insert key value).lookup k = if key = k then some value else items.lookup k := by
  by_cases hk : key = k
  · subst hk
    simp
  · rw [if_neg hk, AList.lookup_insert_ne (Ne.symm hk)]

theorem lookup_setItemIgnoringQuota : (map.setItemIgnoringQuota key value).items.lookup k =
      if key = k then some value else map.items.lookup k := by
  have hquota : (({ map with quotaSize := noQuota } : StorageMap).setItem key
      value).quotaException = false := by
    unfold setItem
    rw [if_neg fun h => h.1 rfl]
  unfold setItemIgnoringQuota
  rw [setItem_items hquota, lookup_insert]

theorem lookup_removeItem (map : StorageMap) (key k : WTFString) :
    (map.removeItem key).1.items.lookup k = if key = k then none else map.items.lookup k := by
  unfold removeItem
  by_cases hk : key = k
  · subst hk
    simp
  · rw [if_neg hk, AList.lookup_erase_ne (Ne.symm hk)]

@[simp] theorem removeItem_oldValue : (map.removeItem key).2 = map.getItem key := rfl

theorem lookup_importItem : (map.importItem key value).items.lookup k =
      (map.items.lookup k).or (if key = k then some value else none) := by
  unfold importItem
  by_cases hmem : key ∈ map.items
  · rw [if_pos hmem]
    by_cases hk : key = k
    · subst hk
      obtain ⟨v, hv⟩ := isSome_iff_exists.mp (AList.lookup_isSome.mpr hmem)
      rw [hv, some_or]
    · rw [if_neg hk, or_none]
  · rw [if_neg hmem, lookup_insert]
    by_cases hk : key = k
    · subst hk
      rw [if_pos rfl, if_pos rfl, AList.lookup_eq_none.mpr hmem, none_or]
    · rw [if_neg hk, if_neg hk, or_none]

theorem lookup_importItems (items : Items) (quota : UInt32) :
    ((create quota).importItems items).items.lookup k = items.lookup k := by
  have hfold : ∀ (entries : List (Sigma fun _ : WTFString => Option WTFString)) (map : StorageMap),
      (entries.foldl (fun map entry => map.importItem entry.1 entry.2) map).items.lookup k =
        (map.items.lookup k).or (entries.dlookup k) := by
    intro entries
    induction entries with
    | nil => intro map; simp
    | cons entry entries ih =>
      intro map
      obtain ⟨key, value⟩ := entry
      rw [List.foldl_cons, ih, lookup_importItem, Option.or_assoc]
      by_cases hk : key = k
      · subst hk
        simp
      · rw [if_neg hk, List.dlookup_cons_ne _ _ (Ne.symm hk), none_or]
  unfold importItems
  rw [hfold, lookup_create, none_or]
  rfl

end StorageMap

/-!
## `StorageManager::StorageArea`

The UI process's side of DOM storage: the area holds the items, carries out the messages of
the web processes, reports each change to every connection that listens, and answers the
sender. The area of a local storage namespace imports its items from the database when it is
first used. The URL and the old value in the messages only serve the DOM's storage events and
are left out, and so is the writing of changes to the database, which this area does not
read again.
-/

/-- What a `StorageAreaMap` sends. The storage areas of a web process are numbered from 1. -/
inductive ManagerMessage
  | getValues (seed : Nat)
  | setItem (sourceStorageAreaID : ℕ+) (seed : Nat) (key value : WTFString)
  | removeItem (sourceStorageAreaID : ℕ+) (seed : Nat) (key : WTFString)
  | clear (sourceStorageAreaID : ℕ+) (seed : Nat)
  deriving DecidableEq

/-- What a `StorageAreaMap` receives. -/
inductive AreaMapMessage
  | dispatchStorageEvent (sourceStorageAreaID : Nat) (key newValue : Option WTFString)
  | didGetValues (seed : Nat)
  | didSetItem (seed : Nat) (key : WTFString) (quotaError : Bool)
  | didRemoveItem (seed : Nat) (key : WTFString)
  | didClear (seed : Nat)
  | clearCache
  deriving DecidableEq, Repr

/-- The key and the new value that `dispatchEvents` reports: a null key is a clear, a null
value a removal. -/
structure StorageEvent where
  key : Option WTFString
  newValue : Option WTFString
  deriving DecidableEq, Repr

structure StorageArea where
  /-- `m_localStorageNamespace` is set. -/
  isLocalStorage : Bool
  /-- The rows of the area's `LocalStorageDatabase`. -/
  databaseRows : List (WTFString × WTFString)
  didImportItemsFromDatabase : Bool
  quotaInBytes : UInt32
  storageMap : StorageMap

namespace StorageArea

/-- `SQLiteStatement::getColumnBlobAsString`: SQLite has a null pointer for an empty blob. -/
def getColumnBlobAsString (value : WTFString) : Option WTFString :=
  if value = [] then none else some value

/-- The items that `LocalStorageDatabase::importItems` reads. -/
def databaseItems (area : StorageArea) : Items :=
  area.databaseRows.foldl (fun items row => items.insert row.1 (getColumnBlobAsString row.2)) ∅

def openDatabaseAndImportItemsIfNeeded (area : StorageArea) : StorageArea :=
  if !area.isLocalStorage || area.didImportItemsFromDatabase then area
  else { area with
    storageMap := area.storageMap.importItems area.databaseItems
    didImportItemsFromDatabase := true }

def items (area : StorageArea) : Items :=
  area.openDatabaseAndImportItemsIfNeeded.storageMap.items

/-- The area after a change, the event that it dispatches and whether the quota was
exceeded. -/
structure Result where
  area : StorageArea
  event : Option StorageEvent
  quotaError : Bool

def setItem (area : StorageArea) (key value : WTFString) : Result :=
  let area := area.openDatabaseAndImportItemsIfNeeded
  let result := area.storageMap.setItem key (some value)
  let area := { area with storageMap := result.storageMap }
  if result.quotaException then ⟨area, none, true⟩
  else ⟨area, some ⟨some key, some value⟩, false⟩

def removeItem (area : StorageArea) (key : WTFString) : Result :=
  let area := area.openDatabaseAndImportItemsIfNeeded
  let result := area.storageMap.removeItem key
  let area := { area with storageMap := result.1 }
  if result.2.isNone then ⟨area, none, false⟩
  else ⟨area, some ⟨some key, none⟩, false⟩

def clear (area : StorageArea) : Result :=
  let area := area.openDatabaseAndImportItemsIfNeeded
  if area.storageMap.items.keys.length = 0 then ⟨area, none, false⟩
  else ⟨{ area with storageMap := .create area.quotaInBytes }, some ⟨none, none⟩, false⟩

/-- The `clear` that drops the area's data when the user deletes it: the database is closed,
and its file is deleted before the next message is handled. -/
def clearCache (area : StorageArea) : StorageArea :=
  { area with storageMap := .create area.quotaInBytes, databaseRows := [] }

end StorageArea

namespace StorageManager

/-- What the manager does with a message: the area afterwards, the event it dispatches with
the area that the change came from, the answer, and the reply to `GetValues`. -/
structure Handled where
  area : StorageArea
  event : Option StorageEvent
  sourceStorageAreaID : Nat
  answer : AreaMapMessage
  values : Option Items

def getValues (area : StorageArea) (seed : Nat) : Handled :=
  ⟨area.openDatabaseAndImportItemsIfNeeded, none, 0, .didGetValues seed, some area.items⟩

def setItem (area : StorageArea) (sourceStorageAreaID : ℕ+) (seed : Nat) (key value : WTFString) :
    Handled :=
  let result := area.setItem key value
  ⟨result.area, result.event, sourceStorageAreaID, .didSetItem seed key result.quotaError, none⟩

def removeItem (area : StorageArea) (sourceStorageAreaID : ℕ+) (seed : Nat) (key : WTFString) :
    Handled :=
  let result := area.removeItem key
  ⟨result.area, result.event, sourceStorageAreaID, .didRemoveItem seed key, none⟩

def clear (area : StorageArea) (sourceStorageAreaID : ℕ+) (seed : Nat) : Handled :=
  let result := area.clear
  ⟨result.area, result.event, sourceStorageAreaID, .didClear seed, none⟩

/-- The manager handles one message. -/
def handle (area : StorageArea) : ManagerMessage → Handled
  | .getValues seed => getValues area seed
  | .setItem id seed key value => setItem area id seed key value
  | .removeItem id seed key => removeItem area id seed key
  | .clear id seed => clear area id seed

/-- The message that `dispatchEvents` sends to a connection: only the source connection is
told the ID of the area. -/
def dispatchEvents (handled : Handled) (isSource : Bool) : List AreaMapMessage :=
  match handled.event with
  | none => []
  | some event =>
    [.dispatchStorageEvent (if isSource then handled.sourceStorageAreaID else 0) event.key
      event.newValue]

end StorageManager

/-!
## `StorageAreaMap`

The web process's side of DOM storage: a copy of the area's items that local calls read and
change at once. Changes are sent to the manager and counted as pending until the manager's
answer arrives, and the events that other processes cause are applied to the copy unless
something pending forbids it.
-/

structure StorageAreaMap where
  storageMap : Option StorageMap
  quotaInBytes : UInt32
  /-- `m_pendingValueChanges`, a counted set: each key as often as it was added. -/
  pendingValueChanges : List WTFString
  hasPendingClear : Bool
  hasPendingGetValues : Bool
  currentSeed : Nat

namespace StorageAreaMap

def create (quotaInBytes : UInt32) : StorageAreaMap := ⟨none, quotaInBytes, [], false, false, 0⟩

def resetValues (map : StorageAreaMap) : StorageAreaMap :=
  { map with
    storageMap := none
    pendingValueChanges := []
    hasPendingClear := false
    hasPendingGetValues := false
    currentSeed := map.currentSeed + 1 }

/-- The part of `setItem` after `loadValuesIfNeeded`, with the loaded items. -/
def setItem (map : StorageAreaMap) (storageMap : StorageMap) (sourceStorageAreaID : ℕ+)
    (key value : WTFString) : StorageAreaMap × Option ManagerMessage :=
  let result := storageMap.setItem key (some value)
  let map := { map with storageMap := some result.storageMap }
  if result.quotaException then (map, none)
  else if result.oldValue = some value then (map, none)
  else ({ map with pendingValueChanges := key :: map.pendingValueChanges },
    some (.setItem sourceStorageAreaID map.currentSeed key value))

/-- The part of `removeItem` after `loadValuesIfNeeded`, with the loaded items. -/
def removeItem (map : StorageAreaMap) (storageMap : StorageMap) (sourceStorageAreaID : ℕ+)
    (key : WTFString) : StorageAreaMap × Option ManagerMessage :=
  let result := storageMap.removeItem key
  let map := { map with storageMap := some result.1 }
  if result.2.isNone then (map, none)
  else ({ map with pendingValueChanges := key :: map.pendingValueChanges },
    some (.removeItem sourceStorageAreaID map.currentSeed key))

def clear (map : StorageAreaMap) (sourceStorageAreaID : ℕ+) : StorageAreaMap × ManagerMessage :=
  let map := map.resetValues
  ({ map with hasPendingClear := true, storageMap := some (.create map.quotaInBytes) },
    .clear sourceStorageAreaID map.currentSeed)

/-- The part of `loadValuesIfNeeded` after the reply to `GetValues`. -/
def importValues (map : StorageAreaMap) (values : Items) : StorageAreaMap :=
  { map with
    storageMap := some ((StorageMap.create map.quotaInBytes).importItems values)
    hasPendingGetValues := true }

def didGetValues (map : StorageAreaMap) (seed : Nat) : StorageAreaMap :=
  if map.currentSeed ≠ seed then map else { map with hasPendingGetValues := false }

def didSetItem (map : StorageAreaMap) (seed : Nat) (key : WTFString) (quotaError : Bool) :
    StorageAreaMap :=
  if map.currentSeed ≠ seed then map
  else if quotaError then map.resetValues
  else { map with pendingValueChanges := map.pendingValueChanges.erase key }

def didRemoveItem (map : StorageAreaMap) (seed : Nat) (key : WTFString) : StorageAreaMap :=
  if map.currentSeed ≠ seed then map
  else { map with pendingValueChanges := map.pendingValueChanges.erase key }

def didClear (map : StorageAreaMap) (seed : Nat) : StorageAreaMap :=
  if map.currentSeed ≠ seed then map else { map with hasPendingClear := false }

def clearCache (map : StorageAreaMap) : StorageAreaMap := map.resetValues

/-- The loop over the pending changes when a clear arrives: `stored` is the value that is
stored under a pending key that has one. -/
def keepPending (storageMap : StorageMap) (stored : WTFString → Option WTFString)
    (pending : List WTFString) (newStorageMap : StorageMap) : StorageMap :=
  pending.foldl (fun newStorageMap key =>
    match storageMap.getItem key with
    | none => newStorageMap
    | some value => newStorageMap.setItemIgnoringQuota key (stored value)) newStorageMap

/-- The branch of `applyChange` for a null key. The value that is stored is `oldValue`, which
is null, and not `value`. An unloaded map, which has no pending changes, becomes an empty
one. -/
def applyClear (map : StorageAreaMap) : StorageMap :=
  match map.storageMap with
  | none => .create map.quotaInBytes
  | some storageMap =>
    keepPending storageMap (fun _ => none) map.pendingValueChanges.dedup (.create map.quotaInBytes)

def shouldApplyChangeForKey (map : StorageAreaMap) (key : WTFString) : Bool :=
  map.storageMap.isSome && !map.pendingValueChanges.contains key

/-- The part of `applyChange` for a key that is not null. -/
def applyKeyChange (map : StorageAreaMap) (key : WTFString) (newValue : Option WTFString) :
    StorageAreaMap :=
  if !map.shouldApplyChangeForKey key then map
  else match newValue with
    | none => { map with storageMap := map.storageMap.map fun m => (m.removeItem key).1 }
    | some value =>
      { map with storageMap := map.storageMap.map (·.setItemIgnoringQuota key (some value)) }

def applyChange (map : StorageAreaMap) (key newValue : Option WTFString) : StorageAreaMap :=
  if map.hasPendingClear || map.hasPendingGetValues then map
  else match key with
    | none => { map with storageMap := some map.applyClear }
    | some key => map.applyKeyChange key newValue

def dispatchStorageEvent (map : StorageAreaMap) (sourceStorageAreaID : Nat)
    (key newValue : Option WTFString) : StorageAreaMap :=
  if sourceStorageAreaID = 0 then map.applyChange key newValue else map

def handle (map : StorageAreaMap) : AreaMapMessage → StorageAreaMap
  | .dispatchStorageEvent id key newValue => map.dispatchStorageEvent id key newValue
  | .didGetValues seed => map.didGetValues seed
  | .didSetItem seed key quotaError => map.didSetItem seed key quotaError
  | .didRemoveItem seed key => map.didRemoveItem seed key
  | .didClear seed => map.didClear seed
  | .clearCache => map.clearCache

end StorageAreaMap

end WebKit.Storage
