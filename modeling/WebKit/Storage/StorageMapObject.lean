import WebKit.Storage.StorageMap
import WebKit.WTF.Memory

/-!
# `StorageMap` objects

A `StorageMap` with what its items do not show: the reference count, the copy on write that goes
with it, and the cached iterator of `key`. Values are not null here.

The `HashMap` is the list of its entries in the order of iteration. Where a new entry comes, and
whether the table is rehashed, is up to the hash table (`Placement`). An iterator points into
one table, and to nothing once that has been rehashed.
-/

namespace WebKit.Storage

open Function

open WTF (Failure)

structure Entry where
  key : WTFString
  value : WTFString
  deriving DecidableEq

/-- The order of the entries in a table that is made anew. -/
abbrev Order := { order : List Entry → List Entry // ∀ entries, (order entries).Perm entries }

/-- What a change does to the table. -/
inductive Placement
  | inPlace (index : ℕ)
  | rehashed (order : Order)

structure Table where
  entries : List Entry
  /-- How often the table has been rehashed. -/
  generation : ℕ

/-- `m_map.end()`, or the bucket of a key. -/
inductive Iterator
  | atEnd
  | bucket (generation : ℕ) (key : WTFString)
  deriving DecidableEq

namespace Table

def keys (table : Table) : List WTFString := table.entries.map (·.key)

def get (table : Table) (key : WTFString) : Option WTFString :=
  (table.entries.find? fun entry => entry.key = key).map (·.value)

/-- `HashMap::add`, with the value written to an entry that is there already. -/
def set (table : Table) (key value : WTFString) (placement : Placement) : Table :=
  if key ∈ table.keys then
    { table with
      entries := table.entries.map fun entry => if entry.key = key then ⟨key, value⟩ else entry }
  else
    match placement with
    | .inPlace index =>
      { table with entries := table.entries.take index ++ ⟨key, value⟩ :: table.entries.drop index }
    | .rehashed order => ⟨order.val (⟨key, value⟩ :: table.entries), table.generation + 1⟩

/-- `HashMap::add` alone. -/
def add (table : Table) (key value : WTFString) (placement : Placement) : Table :=
  if key ∈ table.keys then table else table.set key value placement

/-- `HashMap::take`. -/
def take (table : Table) (key : WTFString) (placement : Placement) : Table × Option WTFString :=
  if key ∈ table.keys then
    let entries := table.entries.filter fun entry => entry.key ≠ key
    match placement with
    | .inPlace _ => ({ table with entries := entries }, table.get key)
    | .rehashed order => (⟨order.val entries, table.generation + 1⟩, table.get key)
  else (table, none)

/-- `m_map.begin()`. -/
def begin (table : Table) : Iterator :=
  match table.entries with
  | [] => .atEnd
  | entry :: _ => .bucket table.generation entry.key

/-- The entries from an iterator on. -/
def entriesFrom (table : Table) : Iterator → Except Failure (List Entry)
  | .atEnd => throw .badAccess
  | .bucket generation key =>
    if generation = table.generation ∧ key ∈ table.keys then
      pure (table.entries.dropWhile fun entry => entry.key ≠ key)
    else throw .badAccess

/-- `m_iterator->key`. -/
def keyAt (table : Table) (iterator : Iterator) : Except Failure WTFString := do
  match ← table.entriesFrom iterator with
  | [] => throw .badAccess
  | entry :: _ => pure entry.key

/-- `++m_iterator`. -/
def next (table : Table) (iterator : Iterator) : Except Failure Iterator := do
  let entries ← table.entriesFrom iterator
  pure { table with entries := entries.tail }.begin

/-- `++m_iterator` some times. -/
def advance (table : Table) : ℕ → Iterator → Except Failure Iterator
  | 0, iterator => pure iterator
  | n + 1, iterator => do
    let iterator ← table.next iterator
    table.advance n iterator

end Table

structure StorageMapObject where
  map : Table
  iterator : Iterator
  iteratorIndex : UInt32
  quotaSize : UInt32
  currentLength : UInt32

/-- What a mutation leaves and returns. -/
structure MutationResult where
  map : StorageMapObject
  newMap : Option StorageMapObject
  oldValue : Option WTFString
  quotaException : Bool

namespace StorageMapObject

/-- `UINT_MAX`. -/
def noIndex : UInt32 := 0xffffffff

def create (quotaSize : UInt32) : StorageMapObject := ⟨⟨[], 0⟩, .atEnd, noIndex, quotaSize, 0⟩

/-- The entries of the other map are added one by one. -/
def copy (map : StorageMapObject) (order : Order) : StorageMapObject :=
  { create map.quotaSize with
    map := ⟨order.val map.map.entries, 0⟩
    currentLength := map.currentLength }

def invalidateIterator (map : StorageMapObject) : StorageMapObject :=
  { map with iterator := .atEnd, iteratorIndex := noIndex }

def setIteratorToIndex (map : StorageMapObject) (index : UInt32) :
    Except Failure StorageMapObject := do
  if map.iteratorIndex = index then pure map
  else
    let map := if index < map.iteratorIndex then
        { map with iteratorIndex := 0, iterator := map.map.begin }
      else map
    let iterator ← map.map.advance (index.toNat - map.iteratorIndex.toNat) map.iterator
    pure { map with iterator := iterator, iteratorIndex := index }

def length (map : StorageMapObject) : ℕ := map.map.entries.length

/-- A null string for an index that is too large. -/
def key (map : StorageMapObject) (index : UInt32) :
    Except Failure (StorageMapObject × Option WTFString) := do
  if index.toNat ≥ map.length then pure (map, none)
  else
    let map ← map.setIteratorToIndex index
    let key ← map.map.keyAt map.iterator
    pure (map, some key)

/-- The quota tracking of `setItem`: the new length, and whether it overflowed. -/
def lengthAfterSet (currentLength : UInt32) (key value : WTFString) (oldValue : Option WTFString) :
    UInt32 × Bool :=
  let newLength := currentLength
  let overflow : Bool := newLength + Storage.length (some value) < newLength
  let newLength := newLength + Storage.length (some value)
  let overflow : Bool := overflow || newLength - Storage.length oldValue > newLength
  let newLength := newLength - Storage.length oldValue
  let adjustedKeyLength := if oldValue.isNone then Storage.length (some key) else 0
  let overflow : Bool := overflow || newLength + adjustedKeyLength < newLength
  (newLength + adjustedKeyLength, overflow)

/-- `setItem` of a map with one reference. -/
def setItemUnshared (map : StorageMapObject) (key value : WTFString) (placement : Placement) :
    MutationResult :=
  let oldValue := map.map.get key
  let (newLength, overflow) := lengthAfterSet map.currentLength key value oldValue
  let overQuota : Bool := newLength > map.quotaSize / 2
  if map.quotaSize ≠ StorageMap.noQuota ∧ (overflow || overQuota) then ⟨map, none, oldValue, true⟩
  else
    let map := { map with currentLength := newLength, map := map.map.set key value placement }
    ⟨map.invalidateIterator, none, oldValue, false⟩

/-- A map with more references is copied, and the copy is returned. -/
def setItem (map : StorageMapObject) (refCount : ℕ) (key value : WTFString) (order : Order)
    (placement : Placement) : MutationResult :=
  if refCount > 1 then
    let result := (map.copy order).setItemUnshared key value placement
    { result with map := map, newMap := some result.map }
  else map.setItemUnshared key value placement

/-- The quota is lifted for the time of the call. -/
def setItemIgnoringQuota (map : StorageMapObject) (refCount : ℕ) (key value : WTFString)
    (order : Order) (placement : Placement) : MutationResult :=
  let result := { map with quotaSize := StorageMap.noQuota }.setItem refCount key value order
    placement
  { result with map := { result.map with quotaSize := map.quotaSize } }

def removeItemUnshared (map : StorageMapObject) (key : WTFString) (placement : Placement) :
    MutationResult :=
  let (table, oldValue) := map.map.take key placement
  let map := { map with map := table }
  let map := if oldValue.isSome then
      { map.invalidateIterator with
        currentLength := map.currentLength - Storage.length (some key) }
    else map
  let map := { map with currentLength := map.currentLength - Storage.length oldValue }
  ⟨map, none, oldValue, false⟩

def removeItem (map : StorageMapObject) (refCount : ℕ) (key : WTFString) (order : Order)
    (placement : Placement) : MutationResult :=
  if refCount > 1 then
    let result := (map.copy order).removeItemUnshared key placement
    { result with map := map, newMap := some result.map }
  else map.removeItemUnshared key placement

/-- One iteration of `importItems`. -/
def importItem (map : StorageMapObject) (item : Entry × Placement) : StorageMapObject :=
  { map with
    map := map.map.add item.1.key item.1.value item.2
    currentLength :=
      map.currentLength + Storage.length (some item.1.key) + Storage.length (some item.1.value) }

/-- The reference count is not looked at, and the iterator stays. -/
def importItems (map : StorageMapObject) (items : List (Entry × Placement)) : StorageMapObject :=
  items.foldl importItem map

end StorageMapObject

/-- The maps of a program, and the map that each of its holders has. -/
structure StorageMaps where
  maps : ℕ → StorageMapObject
  next : ℕ
  holders : List ℕ

/-- What the program does with its maps. -/
inductive StorageMapOperation
  | create (quotaSize : UInt32)
  | share (holder : ℕ)
  | copy (holder : ℕ) (order : Order)
  | release (holder : ℕ)
  | setItem (holder : ℕ) (key value : WTFString) (order : Order) (placement : Placement)
  | setItemIgnoringQuota (holder : ℕ) (key value : WTFString) (order : Order)
    (placement : Placement)
  | removeItem (holder : ℕ) (key : WTFString) (order : Order) (placement : Placement)
  | importItems (holder : ℕ) (items : List (Entry × Placement))
  | key (holder : ℕ) (index : UInt32)

namespace StorageMaps

/-- There is no map. -/
def start : StorageMaps := ⟨fun _ => .create 0, 0, []⟩

def refCount (state : StorageMaps) (id : ℕ) : ℕ := state.holders.count id

/-- What a holder sees. -/
def view (state : StorageMaps) (holder : ℕ) : Option StorageMapObject :=
  state.holders[holder]?.map state.maps

def holderMap (state : StorageMaps) (holder : ℕ) : Except Failure ℕ :=
  match state.holders[holder]? with
  | some id => pure id
  | none => throw .badAccess

def store (state : StorageMaps) (id : ℕ) (map : StorageMapObject) : StorageMaps :=
  { state with maps := update state.maps id map }

/-- A new holder gets a new map. -/
def adopt (state : StorageMaps) (map : StorageMapObject) : StorageMaps :=
  { maps := update state.maps state.next map
    next := state.next + 1
    holders := state.holders ++ [state.next] }

/-- The holder of a map that has been mutated installs the map that is returned. -/
def install (state : StorageMaps) (holder id : ℕ) (result : MutationResult) : StorageMaps :=
  match result.newMap with
  | none => state.store id result.map
  | some newMap =>
    { maps := update (update state.maps id result.map) state.next newMap
      next := state.next + 1
      holders := state.holders.set holder state.next }

/-- The state after an operation, and the exception or the key that it reports. -/
def execute (state : StorageMaps) :
    StorageMapOperation → Except Failure (StorageMaps × Bool × Option WTFString)
  | .create quotaSize => pure (state.adopt (.create quotaSize), false, none)
  | .share holder => do
    let id ← state.holderMap holder
    pure ({ state with holders := state.holders ++ [id] }, false, none)
  | .copy holder order => do
    let id ← state.holderMap holder
    pure (state.adopt ((state.maps id).copy order), false, none)
  | .release holder => do
    let _ ← state.holderMap holder
    pure ({ state with holders := state.holders.eraseIdx holder }, false, none)
  | .setItem holder key value order placement => do
    let id ← state.holderMap holder
    let result := (state.maps id).setItem (state.refCount id) key value order placement
    pure (state.install holder id result, result.quotaException, result.oldValue)
  | .setItemIgnoringQuota holder key value order placement => do
    let id ← state.holderMap holder
    let result :=
      (state.maps id).setItemIgnoringQuota (state.refCount id) key value order placement
    pure (state.install holder id result, result.quotaException, none)
  | .removeItem holder key order placement => do
    let id ← state.holderMap holder
    let result := (state.maps id).removeItem (state.refCount id) key order placement
    pure (state.install holder id result, false, result.oldValue)
  | .importItems holder items => do
    let id ← state.holderMap holder
    pure (state.store id ((state.maps id).importItems items), false, none)
  | .key holder index => do
    let id ← state.holderMap holder
    let (map, key) ← (state.maps id).key index
    pure (state.store id map, false, key)

end StorageMaps

end WebKit.Storage
