import Mathlib.Data.Finset.Card
import WebKit.Storage.StorageMapObject

/-!
# What keeps a `StorageMap` in order

The length is the sum of the lengths of the entries, and a cached iterator is at the key of its
index. `key` keeps to the order of the entries, however it is called.
-/

open List

namespace WebKit.Storage

open Table

open WTF (Failure)

variable {table : Table} {key value : WTFString} {placement : Placement} {order : Order}
  {entries : List Entry}

/-- The length of the keys and the values. -/
def totalLength (entries : List Entry) : ℕ :=
  (entries.map fun entry => entry.key.length + entry.value.length).sum

theorem totalLength_perm {entries' : List Entry} (h : entries.Perm entries') :
    totalLength entries = totalLength entries' :=
  (h.map _).sum_nat

namespace Table

theorem split_of_mem (hnodup : table.keys.Nodup) (h : key ∈ table.keys) :
    ∃ front oldValue back, table.entries = front ++ ⟨key, oldValue⟩ :: back ∧
      (∀ entry ∈ front, entry.key ≠ key) ∧ (∀ entry ∈ back, entry.key ≠ key) ∧
      table.get key = some oldValue := by
  obtain ⟨⟨key', oldValue⟩, hentry, hkey⟩ := mem_map.mp h
  obtain rfl : key' = key := hkey
  obtain ⟨front, back, hsplit⟩ := append_of_mem hentry
  rw [keys, hsplit, map_append, map_cons] at hnodup
  obtain ⟨-, hback, hdisj⟩ := nodup_append.mp hnodup
  have hfront : ∀ entry ∈ front, entry.key ≠ key' := fun entry hmem =>
    hdisj entry.key (mem_map_of_mem hmem) _ mem_cons_self
  refine ⟨front, oldValue, back, hsplit, hfront, ?_, ?_⟩
  · intro entry hmem hkey
    exact (nodup_cons.mp hback).1 (mem_map.mpr ⟨entry, hmem, hkey⟩)
  · have hnone : front.find? (fun entry => entry.key = key') = none :=
      find?_eq_none.mpr fun entry hmem => by simpa using hfront entry hmem
    rw [get, hsplit, find?_append, hnone]
    simp

theorem get_eq_none (h : key ∉ table.keys) : table.get key = none := by
  have hfind : table.entries.find? (fun e => e.key = key) = none := by
    refine find?_eq_none.mpr fun entry hentry hkey => h ?_
    exact mem_map.mpr ⟨entry, hentry, by simpa using hkey⟩
  rw [get, hfind]
  rfl

theorem set_keys_of_mem (h : key ∈ table.keys) :
    (table.set key value placement).keys = table.keys := by
  unfold set
  rw [if_pos h, keys, keys, map_map]
  refine map_congr_left fun entry _ => ?_
  dsimp only [Function.comp_apply]
  split
  · rename_i hkey
    exact hkey.symm
  · rfl

theorem set_perm (h : key ∉ table.keys) :
    (table.set key value placement).entries.Perm (⟨key, value⟩ :: table.entries) := by
  unfold set
  rw [if_neg h]
  cases placement with
  | inPlace index =>
    have hmiddle : (table.entries.take index ++ ⟨key, value⟩ :: table.entries.drop index).Perm
        (⟨key, value⟩ :: (table.entries.take index ++ table.entries.drop index)) :=
      perm_middle
    rwa [take_append_drop] at hmiddle
  | rehashed order => exact order.property _

theorem set_keys_perm (h : key ∉ table.keys) :
    (table.set key value placement).keys.Perm (key :: table.keys) :=
  (set_perm h).map _

theorem set_totalLength_of_mem (hnodup : table.keys.Nodup) (h : key ∈ table.keys) :
    ∃ oldValue, table.get key = some oldValue ∧
      totalLength (table.set key value placement).entries + oldValue.length =
        totalLength table.entries + value.length := by
  obtain ⟨front, oldValue, back, hsplit, hfront, hback, hget⟩ := split_of_mem hnodup h
  refine ⟨oldValue, hget, ?_⟩
  have hkeep : ∀ l : List Entry, (∀ entry ∈ l, entry.key ≠ key) →
      (l.map fun entry => if entry.key = key then ⟨key, value⟩ else entry) = l := by
    intro l hl
    refine (map_congr_left fun entry hmem => ?_).trans (map_id l)
    rw [if_neg (hl entry hmem)]
    rfl
  unfold set
  rw [if_pos h, hsplit, map_append, map_cons, hkeep front hfront, hkeep back hback, if_pos rfl]
  simp only [totalLength, map_append, map_cons, sum_append, sum_cons]
  omega

theorem set_totalLength (h : key ∉ table.keys) :
    totalLength (table.set key value placement).entries =
      totalLength table.entries + value.length + key.length := by
  rw [totalLength_perm (set_perm h)]
  simp only [totalLength, map_cons, sum_cons]
  omega

theorem set_nodup (h : table.keys.Nodup) : (table.set key value placement).keys.Nodup := by
  by_cases hmem : key ∈ table.keys
  · rwa [set_keys_of_mem hmem]
  · exact (set_keys_perm hmem).nodup_iff.mpr (nodup_cons.mpr ⟨hmem, h⟩)

theorem take_of_not_mem (h : key ∉ table.keys) : table.take key placement = (table, none) := by
  unfold take
  rw [if_neg h]

theorem take_perm (h : key ∈ table.keys) :
    (table.take key placement).1.entries.Perm (table.entries.filter fun entry => entry.key ≠ key) ∧
      (table.take key placement).2 = table.get key := by
  unfold take
  rw [if_pos h]
  cases placement with
  | inPlace _ => exact ⟨List.Perm.refl _, rfl⟩
  | rehashed order => exact ⟨order.property _, rfl⟩

theorem take_nodup (h : table.keys.Nodup) : (table.take key placement).1.keys.Nodup := by
  by_cases hmem : key ∈ table.keys
  · refine ((take_perm hmem).1.map _).nodup_iff.mpr ?_
    exact h.sublist (filter_sublist.map _)
  · rwa [take_of_not_mem hmem]

theorem take_totalLength (hnodup : table.keys.Nodup) (h : key ∈ table.keys) :
    ∃ oldValue, table.get key = some oldValue ∧
      totalLength (table.take key placement).1.entries + oldValue.length + key.length =
        totalLength table.entries := by
  obtain ⟨front, oldValue, back, hsplit, hfront, hback, hget⟩ := split_of_mem hnodup h
  refine ⟨oldValue, hget, ?_⟩
  have hkeep : ∀ l : List Entry, (∀ entry ∈ l, entry.key ≠ key) →
      l.filter (fun entry => entry.key ≠ key) = l := by
    intro l hl
    exact filter_eq_self.mpr fun entry hmem => by simpa using hl entry hmem
  rw [totalLength_perm (take_perm h).1, hsplit, filter_append, hkeep front hfront,
    filter_cons_of_neg (by simp), hkeep back hback]
  simp only [totalLength, map_append, map_cons, sum_append, sum_cons]
  omega

/-- The iterator is at the key of the index. -/
def IsAt (table : Table) (index : ℕ) (iterator : Iterator) : Prop :=
  ∃ key, table.keys[index]? = some key ∧ iterator = .bucket table.generation key

variable {iterator : Iterator} {index : ℕ}

theorem dropWhile_eq_drop (hnodup : (entries.map (·.key)).Nodup)
    (hkey : (entries.map (·.key))[index]? = some key) :
    entries.dropWhile (fun entry => entry.key ≠ key) = entries.drop index := by
  induction entries generalizing index with
  | nil => simp at hkey
  | cons entry entries ih =>
    rw [map_cons] at hnodup hkey
    obtain ⟨hnot, hnodup⟩ := nodup_cons.mp hnodup
    cases index with
    | zero =>
      have heq : entry.key = key := by simpa using hkey
      simp [heq]
    | succ index =>
      have hne : entry.key ≠ key := fun heq => hnot (heq ▸ mem_of_getElem? hkey)
      rw [dropWhile_cons_of_pos (by simpa using hne), drop_succ_cons]
      exact ih hnodup hkey

theorem IsAt.entriesFrom_eq (h : table.IsAt index iterator) (hnodup : table.keys.Nodup) :
    table.entriesFrom iterator = .ok (table.entries.drop index) := by
  obtain ⟨key, hkey, rfl⟩ := h
  rw [entriesFrom, if_pos ⟨rfl, mem_of_getElem? hkey⟩, dropWhile_eq_drop hnodup hkey]
  rfl

theorem isAt_begin_drop (hlt : index < table.entries.length) :
    table.IsAt index { table with entries := table.entries.drop index }.begin := by
  refine ⟨table.entries[index].key, ?_, ?_⟩
  · rw [keys, getElem?_map, getElem?_eq_getElem hlt]
    rfl
  · rw [begin, drop_eq_getElem_cons hlt]

section

variable (h : table.IsAt index iterator) (hnodup : table.keys.Nodup)
include h hnodup

theorem IsAt.keyAt_eq (hlt : index < table.entries.length) :
    table.keyAt iterator = .ok table.entries[index].key := by
  rw [keyAt, h.entriesFrom_eq hnodup, drop_eq_getElem_cons hlt]
  rfl

theorem IsAt.next (hlt : index + 1 < table.entries.length) :
    ∃ iterator', table.next iterator = .ok iterator' ∧ table.IsAt (index + 1) iterator' := by
  refine ⟨_, ?_, isAt_begin_drop hlt⟩
  rw [Table.next, h.entriesFrom_eq hnodup, ← tail_drop]
  rfl

theorem IsAt.advance (n : ℕ)
    (hlt : index + n < table.entries.length) :
    ∃ iterator', table.advance n iterator = .ok iterator' ∧ table.IsAt (index + n) iterator' := by
  induction n generalizing index iterator with
  | zero => exact ⟨iterator, rfl, h⟩
  | succ n ih =>
    obtain ⟨iterator1, hnext, h1⟩ := h.next hnodup (by omega)
    obtain ⟨iterator2, hadv, h2⟩ := ih h1 (by omega)
    refine ⟨iterator2, ?_, by rwa [add_assoc, add_comm 1] at h2⟩
    rw [advance, hnext]
    exact hadv

end

end Table

/-- What keeps a map in order. -/
structure StorageMapObject.Valid (map : StorageMapObject) : Prop where
  nodup : map.map.keys.Nodup
  currentLength_eq : map.currentLength = UInt32.ofNat (totalLength map.map.entries)
  cached : map.iteratorIndex = noIndex ∨ map.map.IsAt map.iteratorIndex.toNat map.iterator

namespace StorageMapObject

variable {map : StorageMapObject}

theorem create_valid (quotaSize : UInt32) : (create quotaSize).Valid where
  nodup := nodup_nil
  currentLength_eq := rfl
  cached := .inl rfl

theorem Valid.copy (h : map.Valid) (order : Order) : (map.copy order).Valid where
  nodup := ((order.property map.map.entries).map _).nodup_iff.mpr h.nodup
  currentLength_eq := h.currentLength_eq.trans
    (congrArg UInt32.ofNat (totalLength_perm (order.property _)).symm)
  cached := .inl rfl

theorem Valid.lengthAfterSet_eq (h : map.Valid) (key value : WTFString) (placement : Placement) :
    (lengthAfterSet map.currentLength key value (map.map.get key)).1 =
      UInt32.ofNat (totalLength (map.map.set key value placement).entries) := by
  unfold lengthAfterSet
  rw [h.currentLength_eq]
  by_cases hmem : key ∈ map.map.keys
  · obtain ⟨oldValue, hget, htotal⟩ := @set_totalLength_of_mem _ _ value placement h.nodup hmem
    have hsum : UInt32.ofNat (totalLength map.map.entries) + UInt32.ofNat value.length =
        UInt32.ofNat (totalLength (map.map.set key value placement).entries) +
          UInt32.ofNat oldValue.length := by
      rw [← UInt32.ofNat_add, ← UInt32.ofNat_add, htotal]
    simp only [hget, Storage.length, Option.isNone_some, Bool.false_eq_true, if_false]
    rw [hsum, UInt32.add_sub_cancel, UInt32.add_zero]
  · rw [get_eq_none hmem, set_totalLength hmem, UInt32.ofNat_add, UInt32.ofNat_add]
    simp [Storage.length]

/-- What a mutation of a map with one reference does under its quota. -/
structure KeepsQuota (map : StorageMapObject) (result : MutationResult) : Prop where
  quotaSize_eq : result.map.quotaSize = map.quotaSize
  unchanged : result.quotaException = true → result.map = map
  le : result.quotaException = false → map.quotaSize ≠ StorageMap.noQuota →
    result.map.currentLength ≤ map.quotaSize / 2

theorem setItemUnshared_keepsQuota (map : StorageMapObject) (key value : WTFString)
    (placement : Placement) : map.KeepsQuota (map.setItemUnshared key value placement) := by
  unfold setItemUnshared
  dsimp only
  split
  · exact ⟨rfl, fun _ => rfl, nofun⟩
  · rename_i hquota
    refine ⟨rfl, nofun, fun _ hne => ?_⟩
    have hover := not_or.mp fun h => hquota ⟨hne, Bool.or_eq_true _ _ |>.mpr h⟩
    exact UInt32.not_lt.mp fun hlt => hover.2 (decide_eq_true hlt)

section

variable (h : map.Valid)
include h

theorem Valid.setItemUnshared (key value : WTFString) (placement : Placement) :
    (map.setItemUnshared key value placement).map.Valid := by
  unfold StorageMapObject.setItemUnshared
  dsimp only
  split
  · exact h
  · exact ⟨set_nodup h.nodup, h.lengthAfterSet_eq key value placement, .inl rfl⟩

theorem Valid.removeItemUnshared (key : WTFString) (placement : Placement) :
    (map.removeItemUnshared key placement).map.Valid := by
  unfold StorageMapObject.removeItemUnshared
  dsimp only
  by_cases hmem : key ∈ map.map.keys
  · obtain ⟨oldValue, hget, htotal⟩ := @take_totalLength _ _ placement h.nodup hmem
    rw [(take_perm hmem).2, hget]
    refine ⟨take_nodup h.nodup, ?_, .inl rfl⟩
    simp only [Option.isSome_some, if_true, invalidateIterator, Storage.length]
    rw [h.currentLength_eq, ← htotal, UInt32.ofNat_add, UInt32.ofNat_add, UInt32.add_sub_cancel,
      UInt32.add_sub_cancel]
  · rw [take_of_not_mem hmem]
    simpa [Storage.length] using h

/-- A map whose iterator is not cached may import items with keys that it does not have. -/
theorem Valid.importItems (hindex : map.iteratorIndex = noIndex)
    {items : List (Entry × Placement)}
    (hnew : ((items.map fun item => item.1.key) ++ map.map.keys).Nodup) :
    (map.importItems items).Valid ∧ (map.importItems items).iteratorIndex = noIndex := by
  induction items generalizing map with
  | nil => exact ⟨h, hindex⟩
  | cons item items ih =>
    obtain ⟨hnot, hrest⟩ := nodup_cons.mp hnew
    have hmem : item.1.key ∉ map.map.keys := fun hmem => hnot (mem_append_right _ hmem)
    have hadd : map.map.add item.1.key item.1.value item.2 =
        map.map.set item.1.key item.1.value item.2 := if_neg hmem
    refine @ih (map.importItem item) ⟨?_, ?_, .inl hindex⟩ hindex ?_
    · rw [importItem, hadd]
      exact set_nodup h.nodup
    · rw [importItem, hadd]
      rw [set_totalLength hmem, h.currentLength_eq, UInt32.ofNat_add, UInt32.ofNat_add]
      ac_rfl
    · rw [importItem, hadd]
      refine ((set_keys_perm hmem).append_left _).nodup_iff.mpr ?_
      exact (perm_middle.nodup_iff).mpr hnew

theorem Valid.setIteratorToIndex {index : UInt32}
    (hlt : index.toNat < map.length) (hindex : index < noIndex) :
    ∃ iterator, map.setIteratorToIndex index =
        .ok { map with iterator := iterator, iteratorIndex := index } ∧
      map.map.IsAt index.toNat iterator := by
  unfold StorageMapObject.setIteratorToIndex
  split
  · rename_i heq
    have hne : map.iteratorIndex ≠ noIndex := by
      rw [heq]
      exact UInt32.ne_of_lt hindex
    have hat := h.cached.resolve_left hne
    refine ⟨map.iterator, ?_, heq ▸ hat⟩
    rw [← heq]
    rfl
  · by_cases hback : index < map.iteratorIndex
    · have hbegin : map.map.IsAt 0 map.map.begin := @isAt_begin_drop map.map 0 (by
        rw [StorageMapObject.length] at hlt
        omega)
      obtain ⟨iterator, hadv, hat⟩ := hbegin.advance h.nodup index.toNat (by
        rw [zero_add]
        exact hlt)
      refine ⟨iterator, ?_, by rwa [zero_add] at hat⟩
      rw [if_pos hback]
      dsimp only
      rw [show index.toNat - (0 : UInt32).toNat = index.toNat from rfl, hadv]
      rfl
    · have hle : map.iteratorIndex.toNat ≤ index.toNat :=
        UInt32.le_iff_toNat_le.mp (UInt32.not_lt.mp hback)
      have hcached : map.iteratorIndex ≠ noIndex := by
        intro heq
        exact hback (heq ▸ hindex)
      obtain ⟨iterator, hadv, hat⟩ := (h.cached.resolve_left hcached).advance h.nodup
        (index.toNat - map.iteratorIndex.toNat) (by
          rw [Nat.add_sub_cancel' hle]
          exact hlt)
      refine ⟨iterator, ?_, by rwa [Nat.add_sub_cancel' hle] at hat⟩
      rw [if_neg hback]
      dsimp only
      rw [hadv]
      rfl

theorem Valid.key_eq (hlen : map.length ≤ noIndex.toNat) (index : UInt32) :
    ∃ map', map.key index = .ok (map', map.map.keys[index.toNat]?) ∧ map'.Valid ∧
      map'.map = map.map ∧ map'.quotaSize = map.quotaSize ∧
      map'.currentLength = map.currentLength := by
  unfold StorageMapObject.key
  split
  · have hnone : map.map.keys[index.toNat]? = none :=
      getElem?_eq_none (by rwa [Table.keys, length_map])
    exact ⟨map, by rw [hnone]; rfl, h, rfl, rfl, rfl⟩
  · rename_i hlt
    rw [ge_iff_le, not_le] at hlt
    obtain ⟨iterator, hset, hat⟩ := h.setIteratorToIndex hlt
      (UInt32.lt_iff_toNat_lt.mpr (lt_of_lt_of_le hlt hlen))
    refine ⟨{ map with iterator := iterator, iteratorIndex := index }, ?_,
      ⟨h.nodup, h.currentLength_eq, .inr hat⟩, rfl, rfl, rfl⟩
    have hkey : map.map.keys[index.toNat]? = some map.map.entries[index.toNat].key := by
      rw [Table.keys, getElem?_map, getElem?_eq_getElem hlt]
      rfl
    rw [hset]
    dsimp only [bind, Except.bind]
    rw [hat.keyAt_eq h.nodup hlt, hkey]
    rfl

end

end StorageMapObject

end WebKit.Storage
