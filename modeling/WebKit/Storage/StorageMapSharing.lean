import WebKit.Storage.StorageMapSpec
import WebKit.Transition.Run

/-!
# Shared maps

In a run in which nobody imports items into a map that is shared, or whose iterator is cached, the
holders of maps do not see each other's mutations, the quota is kept and `key` enumerates the
keys.
-/

namespace WebKit.Storage

open Transition List StorageMaps StorageMapObject StorageMap Option
open WTF (Failure)

theorem length_filter_short_le {keys : List WTFString} (h : keys.Nodup) :
    (keys.filter fun key => key.length ≤ 1).length ≤ 65537 := by
  let code : WTFString → ℕ
    | [] => 0
    | character :: _ => character.toNat + 1
  have hinjective : ∀ key ∈ keys.filter fun key => key.length ≤ 1,
      ∀ key' ∈ keys.filter fun key => key.length ≤ 1, code key = code key' → key = key' := by
    intro key hkey key' hkey' heq
    have hlen := of_decide_eq_true (mem_filter.mp hkey).2
    have hlen' := of_decide_eq_true (mem_filter.mp hkey').2
    match key, key' with
    | [], [] => rfl
    | [character], [character'] =>
      have heq : character.toNat = character'.toNat := Nat.succ_inj.mp heq
      rw [UInt16.toNat_inj.mp heq]
    | [], _ :: _ => cases heq
    | _ :: _, [] => cases heq
    | _ :: _ :: _, _ => simp at hlen
    | _, _ :: _ :: _ => simp at hlen'
  have hnodup := (h.filter _).map_on hinjective
  have hbound : ((keys.filter fun key => key.length ≤ 1).map code).toFinset ⊆
      Finset.range 65537 := by
    intro n hn
    obtain ⟨key, -, rfl⟩ := mem_map.mp (mem_toFinset.mp hn)
    rw [Finset.mem_range]
    cases key with
    | nil => exact Nat.succ_pos _
    | cons character _ => exact Nat.succ_lt_succ character.toNat_lt
  have hcard := Finset.card_le_card hbound
  rwa [toFinset_card_of_nodup hnodup, length_map, Finset.card_range] at hcard

theorem two_mul_length_le (keys : List WTFString) : 2 * keys.length ≤
      (keys.map List.length).sum + 2 * (keys.filter fun key => key.length ≤ 1).length := by
  induction keys with
  | nil => simp
  | cons key keys ih =>
    by_cases hshort : key.length ≤ 1
    · rw [filter_cons_of_pos (by simpa using hshort)]
      simp only [length_cons, map_cons, sum_cons]
      omega
    · rw [filter_cons_of_neg (by simpa using hshort)]
      simp only [length_cons, map_cons, sum_cons]
      omega

theorem length_le_noIndex {entries : List Entry} (h : (entries.map (·.key)).Nodup)
    (htotal : totalLength entries < 2 ^ 32) :
    entries.length ≤ noIndex.toNat := by
  have hshort := length_filter_short_le h
  have htwo := two_mul_length_le (entries.map (·.key))
  have hsum : ((entries.map (·.key)).map List.length).sum ≤ totalLength entries := by
    clear h htotal hshort htwo
    induction entries with
    | nil => exact le_rfl
    | cons entry entries ih =>
      simp only [totalLength, map_cons, sum_cons] at ih ⊢
      omega
  rw [length_map] at htwo
  have hnoIndex : noIndex.toNat = 2 ^ 32 - 1 := rfl
  omega

namespace StorageMaps

variable {state : StorageMaps} {holder holder' id : ℕ} {map : StorageMapObject}
  {result : MutationResult}

/-- Every holder has a map that is in order. -/
structure Sound (state : StorageMaps) : Prop where
  lt_next : ∀ id ∈ state.holders, id < state.next
  valid : ∀ id ∈ state.holders, (state.maps id).Valid

theorem start_sound : start.Sound := ⟨nofun, nofun⟩

theorem holderMap_eq (h : state.holders[holder]? = some id) : state.holderMap holder = .ok id := by
  rw [holderMap, h]
  rfl

theorem Sound.store (h : state.Sound) (hmap : map.Valid) : (state.store id map).Sound where
  lt_next := h.lt_next
  valid id' hid' := by
    by_cases heq : id' = id
    · subst heq
      simpa [store] using hmap
    · simpa [StorageMaps.store, heq] using h.valid id' hid'

theorem Sound.adopt (h : state.Sound) (hmap : map.Valid) : (state.adopt map).Sound where
  lt_next id hid := by
    rcases mem_append.mp hid with hid | hid
    · exact Nat.lt_succ_of_lt (h.lt_next id hid)
    · rw [mem_singleton.mp hid]
      exact Nat.lt_succ_self _
  valid id hid := by
    rcases mem_append.mp hid with hid | hid
    · have hne : id ≠ state.next := (h.lt_next id hid).ne
      simpa [StorageMaps.adopt, hne] using h.valid id hid
    · rw [mem_singleton.mp hid]
      simpa [StorageMaps.adopt] using hmap

/-- A holder that is the only one of its map has it in place, the others get a copy. -/
structure CopiesOnWrite (refCount : ℕ) (map : StorageMapObject) (result : MutationResult) :
    Prop where
  newMap_iff : result.newMap.isSome = true ↔ 1 < refCount
  map_eq : result.newMap.isSome = true → result.map = map
  valid : result.map.Valid
  newMap_valid : ∀ newMap ∈ result.newMap, newMap.Valid

theorem ne_of_refCount (h : state.refCount id ≤ 1) (hholder : state.holders[holder]? = some id)
    (hne : holder' ≠ holder) {id' : ℕ} (hholder' : state.holders[holder']? = some id') :
    id' ≠ id := by
  rintro rfl
  have hsplit : state.holders =
      state.holders.take holder ++ id' :: state.holders.drop (holder + 1) := by
    obtain ⟨hlt, hget⟩ := List.getElem?_eq_some_iff.mp hholder
    rw [← hget, ← drop_eq_getElem_cons hlt, take_append_drop]
  have hnone : id' ∉ state.holders.take holder ∧ id' ∉ state.holders.drop (holder + 1) := by
    rw [refCount, hsplit, count_append, count_cons_self] at h
    exact ⟨count_eq_zero.mp (by omega), count_eq_zero.mp (by omega)⟩
  rcases Nat.lt_or_gt_of_ne hne with hlt | hgt
  · refine hnone.1 (mem_of_getElem? (i := holder') ?_)
    rwa [List.getElem?_take_of_lt hlt]
  · refine hnone.2 (mem_of_getElem? (i := holder' - (holder + 1)) ?_)
    rw [List.getElem?_drop]
    rwa [show holder + 1 + (holder' - (holder + 1)) = holder' by omega]

theorem Sound.install (h : state.Sound) (hholder : state.holders[holder]? = some id)
    (hres : CopiesOnWrite (state.refCount id) (state.maps id) result) :
    (state.install holder id result).Sound ∧
      ∀ holder' ≠ holder, (state.install holder id result).view holder' = state.view holder' := by
  unfold StorageMaps.install
  cases hnew : result.newMap with
  | none =>
    have hcount : state.refCount id ≤ 1 := by
      rw [← not_lt, ← hres.newMap_iff, hnew]
      simp
    refine ⟨h.store hres.valid, fun holder' hne => ?_⟩
    unfold view StorageMaps.store
    cases hholder' : state.holders[holder']? with
    | none => rfl
    | some id' =>
      have hne' := ne_of_refCount hcount hholder hne hholder'
      simp [hne']
  | some newMap =>
    have hmap := hres.map_eq (by rw [hnew]; rfl)
    have hvalid := hres.newMap_valid newMap hnew
    rw [hmap, Function.update_eq_self]
    refine ⟨⟨fun id' hid' => ?_, fun id' hid' => ?_⟩, fun holder' hne => ?_⟩
    · rcases mem_or_eq_of_mem_set hid' with hid' | rfl
      · exact Nat.lt_succ_of_lt (h.lt_next id' hid')
      · exact Nat.lt_succ_self _
    · rcases mem_or_eq_of_mem_set hid' with hid' | rfl
      · have hne : id' ≠ state.next := (h.lt_next id' hid').ne
        simpa [hne] using h.valid id' hid'
      · simpa using hvalid
    · unfold view
      rw [getElem?_set_ne (Ne.symm hne)]
      cases hholder' : state.holders[holder']? with
      | none => rfl
      | some id' =>
        have hne : id' ≠ state.next := (h.lt_next id' (mem_of_getElem? hholder')).ne
        simp [hne]

end StorageMaps

namespace StorageMapObject

variable {map : StorageMapObject}

open StorageMaps (CopiesOnWrite)

theorem setItemUnshared_newMap (map : StorageMapObject) (key value : WTFString)
    (placement : Placement) : (map.setItemUnshared key value placement).newMap = none := by
  unfold setItemUnshared
  dsimp only
  split <;> rfl

theorem Valid.setItem (h : map.Valid) (refCount : ℕ) (key value : WTFString) (order : Order)
    (placement : Placement) :
    CopiesOnWrite refCount map (map.setItem refCount key value order placement) := by
  have hnone := map.setItemUnshared_newMap key value placement
  unfold StorageMapObject.setItem
  split
  · rename_i hshared
    exact ⟨⟨fun _ => hshared, fun _ => rfl⟩, fun _ => rfl, h, fun newMap hnew =>
      some.inj hnew ▸ (h.copy order).setItemUnshared key value placement⟩
  · rename_i hshared
    refine ⟨⟨fun hnew => ?_, fun hlt => absurd hlt hshared⟩, fun hnew => ?_,
      h.setItemUnshared key value placement, ?_⟩
    · rw [hnone] at hnew
      cases hnew
    · rw [hnone] at hnew
      cases hnew
    · rw [hnone]
      exact nofun

theorem Valid.withQuota (h : map.Valid) (quotaSize : UInt32) :
    ({ map with quotaSize := quotaSize } : StorageMapObject).Valid :=
  ⟨h.nodup, h.currentLength_eq, h.cached⟩

theorem Valid.setItemIgnoringQuota (h : map.Valid) (refCount : ℕ) (key value : WTFString)
    (order : Order) (placement : Placement) :
    CopiesOnWrite refCount map (map.setItemIgnoringQuota refCount key value order placement) := by
  obtain ⟨hnew, hmap, hvalid, hnewValid⟩ :=
    (h.withQuota noQuota).setItem refCount key value order placement
  refine ⟨hnew, fun hsome => ?_, hvalid.withQuota _, hnewValid⟩
  unfold StorageMapObject.setItemIgnoringQuota
  dsimp only
  rw [hmap hsome]

theorem Valid.removeItem (h : map.Valid) (refCount : ℕ) (key : WTFString) (order : Order)
    (placement : Placement) :
    CopiesOnWrite refCount map (map.removeItem refCount key order placement) := by
  unfold StorageMapObject.removeItem
  split
  · rename_i hshared
    exact ⟨⟨fun _ => hshared, fun _ => rfl⟩, fun _ => rfl, h, fun newMap hnew =>
      some.inj hnew ▸ (h.copy order).removeItemUnshared key placement⟩
  · rename_i hshared
    exact ⟨⟨nofun, fun hlt => absurd hlt hshared⟩, nofun, h.removeItemUnshared key placement, nofun⟩

end StorageMapObject

/-! ## Runs -/

namespace StorageMapOperation

/-- The holder whose map is mutated. -/
def mutates : StorageMapOperation → Option ℕ
  | .setItem holder .. | .setItemIgnoringQuota holder .. | .removeItem holder .. |
    .importItems holder _ => some holder
  | _ => none

/-- There is the holder, and its map has none of the keys that are imported. -/
def Legal (state : StorageMaps) : StorageMapOperation → Prop
  | .create _ => True
  | .share holder | .copy holder _ | .release holder | .setItem holder .. |
    .setItemIgnoringQuota holder .. | .removeItem holder .. | .key holder _ =>
    holder < state.holders.length
  | .importItems holder items => holder < state.holders.length ∧
    ∀ map ∈ state.view holder, ((items.map fun item => item.1.key) ++ map.map.keys).Nodup

/-- Items are imported into a map that no one else has, and whose iterator is not cached. -/
def ImportsAlone (state : StorageMaps) : StorageMapOperation → Prop
  | .importItems holder items => items = [] ∨ ∀ id, state.holders[holder]? = some id →
    state.refCount id = 1 ∧ (state.maps id).iteratorIndex = noIndex
  | _ => True

end StorageMapOperation

namespace StorageMaps

variable {state state' : StorageMaps} {holder id : ℕ} {operation : StorageMapOperation}

/-- The total length of every map is below `2 ^ 32`. -/
def Fits (state : StorageMaps) : Prop :=
  ∀ id ∈ state.holders, totalLength (state.maps id).map.entries < 2 ^ 32

instance (state : StorageMaps) : Decidable state.Fits :=
  inferInstanceAs (Decidable (∀ id ∈ state.holders, _))

structure Step (state : StorageMaps) (operation : StorageMapOperation) (state' : StorageMaps) :
    Prop where
  legal : operation.Legal state
  execute : ∃ r, state.execute operation = .ok (state', r)
  fits : state'.Fits

theorem exists_holderMap (h : holder < state.holders.length) :
    ∃ id, state.holders[holder]? = some id ∧ state.holderMap holder = .ok id ∧
      id ∈ state.holders := by
  have hget := getElem?_eq_getElem h
  exact ⟨_, hget, holderMap_eq hget, getElem_mem h⟩

/-- An operation that mutates is not seen by the other holders. -/
def Isolated (state : StorageMaps) (operation : StorageMapOperation) (state' : StorageMaps) :
    Prop :=
  ∀ holder, operation.mutates = some holder →
    ∀ holder' ≠ holder, state'.view holder' = state.view holder'

theorem Sound.execute (h : state.Sound) (hfits : state.Fits) (hlegal : operation.Legal state)
    (halone : operation.ImportsAlone state) :
    ∃ r, state.execute operation = .ok r ∧ r.1.Sound ∧ state.Isolated operation r.1 := by
  cases operation with
  | create quotaSize =>
    exact ⟨_, rfl, h.adopt (create_valid quotaSize), nofun⟩
  | share holder =>
    obtain ⟨id, hid, hmap, hmem⟩ := exists_holderMap hlegal
    refine ⟨_, by rw [execute, hmap]; rfl, ⟨fun id' hid' => ?_, fun id' hid' => ?_⟩, nofun⟩
    · rcases mem_append.mp hid' with hid' | hid'
      · exact h.lt_next id' hid'
      · exact h.lt_next id' (mem_singleton.mp hid' ▸ hmem)
    · rcases mem_append.mp hid' with hid' | hid'
      · exact h.valid id' hid'
      · exact h.valid id' (mem_singleton.mp hid' ▸ hmem)
  | copy holder order =>
    obtain ⟨id, hid, hmap, hmem⟩ := exists_holderMap hlegal
    exact ⟨_, by rw [execute, hmap]; rfl, h.adopt ((h.valid id hmem).copy order), nofun⟩
  | release holder =>
    obtain ⟨id, hid, hmap, hmem⟩ := exists_holderMap hlegal
    exact ⟨_, by rw [execute, hmap]; rfl, ⟨fun id' hid' => h.lt_next id' (mem_of_mem_eraseIdx hid'),
        fun id' hid' => h.valid id' (mem_of_mem_eraseIdx hid')⟩, nofun⟩
  | setItem holder key value order placement =>
    obtain ⟨id, hid, hmap, hmem⟩ := exists_holderMap hlegal
    obtain ⟨hsound, hothers⟩ := h.install hid
      ((h.valid id hmem).setItem (state.refCount id) key value order placement)
    refine ⟨_, by rw [execute, hmap]; rfl, hsound, ?_⟩
    rintro _ ⟨⟩
    exact hothers
  | setItemIgnoringQuota holder key value order placement =>
    obtain ⟨id, hid, hmap, hmem⟩ := exists_holderMap hlegal
    obtain ⟨hsound, hothers⟩ := h.install hid
      ((h.valid id hmem).setItemIgnoringQuota (state.refCount id) key value order placement)
    refine ⟨_, by rw [execute, hmap]; rfl, hsound, ?_⟩
    rintro _ ⟨⟩
    exact hothers
  | removeItem holder key order placement =>
    obtain ⟨id, hid, hmap, hmem⟩ := exists_holderMap hlegal
    obtain ⟨hsound, hothers⟩ := h.install hid
      ((h.valid id hmem).removeItem (state.refCount id) key order placement)
    refine ⟨_, by rw [execute, hmap]; rfl, hsound, ?_⟩
    rintro _ ⟨⟩
    exact hothers
  | importItems holder items =>
    obtain ⟨id, hid, hmap, hmem⟩ := exists_holderMap hlegal.1
    refine ⟨_, by rw [execute, hmap]; rfl, ?_⟩
    rcases halone with rfl | halone
    · have hsame : state.store id ((state.maps id).importItems []) = state := by
        rw [StorageMapObject.importItems, foldl_nil, StorageMaps.store, Function.update_eq_self]
      rw [hsame]
      exact ⟨h, fun _ _ _ _ => rfl⟩
    · obtain ⟨hcount, hindex⟩ := halone id hid
      have hview : state.view holder = some (state.maps id) := by rw [view, hid]; rfl
      obtain ⟨hvalid, -⟩ := (h.valid id hmem).importItems hindex (hlegal.2 _ hview)
      have hres : CopiesOnWrite (state.refCount id) (state.maps id)
          ⟨(state.maps id).importItems items, none, none, false⟩ :=
        ⟨⟨nofun, fun hlt => absurd hcount hlt.ne'⟩, nofun, hvalid, nofun⟩
      obtain ⟨hsound, hothers⟩ := h.install hid hres
      refine ⟨hsound, ?_⟩
      rintro _ ⟨⟩
      exact hothers
  | key holder index =>
    obtain ⟨id, hid, hmap, hmem⟩ := exists_holderMap hlegal
    obtain ⟨map', hkey, hvalid, -⟩ := (h.valid id hmem).key_eq
      (length_le_noIndex (h.valid id hmem).nodup (hfits id hmem)) index
    refine ⟨(state.store id map', false, (state.maps id).map.keys[index.toNat]?), ?_,
      h.store hvalid, nofun⟩
    rw [execute, hmap]
    dsimp only [bind, Except.bind]
    rw [hkey]
    rfl

/-- What holds of the maps between two operations of a run. -/
structure Kept (state : StorageMaps) : Prop extends state.Sound where
  fits : state.Fits

theorem kept_of_run {operations : List StorageMapOperation}
    (hrun : Run (guarded Step fun state operation => operation.ImportsAlone state) start operations
      state) : state.Kept := by
  refine hrun.preserves (I := Kept) (fun s operation t h ⟨halone, hstep⟩ => ?_) ⟨start_sound, nofun⟩
  obtain ⟨r, hr, hsound, -⟩ := h.toSound.execute h.fits hstep.legal halone
  obtain ⟨r', hr'⟩ := hstep.execute
  rw [hr] at hr'
  cases hr'
  exact ⟨hsound, hstep.fits⟩

/-! ## Reading keys -/

/-- The keys that a holder sees, in their order. -/
def keysOf (state : StorageMaps) (holder : ℕ) : List WTFString :=
  ((state.view holder).map fun map => map.map.keys).getD []

/-- Calls of `key` by any holders. -/
def readKeys (state : StorageMaps) :
    List (ℕ × UInt32) → Except Failure (StorageMaps × List (Option WTFString))
  | [] => pure (state, [])
  | read :: reads => do
    let (state, _, key) ← state.execute (.key read.1 read.2)
    let (state, keys) ← state.readKeys reads
    pure (state, key :: keys)

theorem keysOf_eq (h : state.holders[holder]? = some id) :
    state.keysOf holder = (state.maps id).map.keys := by
  rw [keysOf, view, h]
  rfl

theorem Kept.execute_key (h : state.Kept) (hholder : holder < state.holders.length)
    (index : UInt32) :
    ∃ state', state.execute (.key holder index) =
        .ok (state', false, (state.keysOf holder)[index.toNat]?) ∧
      state'.Kept ∧ state'.holders = state.holders ∧ state'.keysOf = state.keysOf := by
  obtain ⟨id, hid, hmap, hmem⟩ := exists_holderMap hholder
  have hvalid := h.valid id hmem
  obtain ⟨map', hkey, hvalid', htable, -, -⟩ :=
    hvalid.key_eq (length_le_noIndex hvalid.nodup (h.fits id hmem)) index
  have htables : ∀ id', ((state.store id map').maps id').map = (state.maps id').map := by
    intro id'
    by_cases heq : id' = id
    · subst heq
      simpa [store] using htable
    · simp [store, heq]
  refine ⟨state.store id map', ?_, ⟨h.toSound.store hvalid', fun id' hid' => ?_⟩, rfl, ?_⟩
  · rw [execute, hmap, keysOf_eq hid]
    dsimp only [bind, Except.bind]
    rw [hkey]
    rfl
  · rw [htables id']
    exact h.fits id' hid'
  · funext holder'
    cases hholder' : state.holders[holder']? with
    | none =>
      have hholder'' : (state.store id map').holders[holder']? = none := hholder'
      rw [keysOf, keysOf, view, view, hholder', hholder'']
      rfl
    | some id' =>
      have hstored : (state.store id map').holders[holder']? = some id' := hholder'
      rw [keysOf_eq hstored, keysOf_eq hholder', htables id']

theorem Kept.readKeys_eq (h : state.Kept) {reads : List (ℕ × UInt32)}
    (hreads : ∀ read ∈ reads, read.1 < state.holders.length) :
    ∃ state', state.readKeys reads =
      .ok (state', reads.map fun read => (state.keysOf read.1)[read.2.toNat]?) := by
  induction reads generalizing state with
  | nil => exact ⟨state, rfl⟩
  | cons read reads ih =>
    obtain ⟨state1, hexecute, hkept, hholders, hkeys⟩ :=
      h.execute_key (hreads read mem_cons_self) read.2
    obtain ⟨state2, hrest⟩ := ih hkept fun read' hmem =>
      hholders ▸ hreads read' (mem_cons_of_mem _ hmem)
    refine ⟨state2, ?_⟩
    rw [readKeys, hexecute]
    dsimp only [bind, Except.bind]
    rw [hrest, hkeys]
    rfl

theorem view_install (hholder : state.holders[holder]? = some id) (result : MutationResult) :
    (state.install holder id result).view holder = some (result.newMap.getD result.map) := by
  have hlt := (List.getElem?_eq_some_iff.mp hholder).1
  unfold install
  cases result.newMap with
  | none => simp [view, store, hholder]
  | some newMap => simp [view, List.getElem?_set_self hlt]

/-- What `setItem` makes of the map of a holder that has a quota. -/
def RespectsQuota (map map' : StorageMapObject) (quotaException : Bool) : Prop :=
  map'.quotaSize = map.quotaSize ∧ (quotaException = true ∧ map'.map.entries.Perm map.map.entries ∧
        map'.currentLength = map.currentLength ∨
      quotaException = false ∧ map'.currentLength ≤ map.quotaSize / 2)

theorem setItem_respectsQuota (map : StorageMapObject) (hquota : map.quotaSize ≠ noQuota)
    (refCount : ℕ) (key value : WTFString) (order : Order) (placement : Placement) :
    RespectsQuota map ((map.setItem refCount key value order placement).newMap.getD
        (map.setItem refCount key value order placement).map)
      (map.setItem refCount key value order placement).quotaException := by
  have hunshared : ∀ map : StorageMapObject, map.quotaSize ≠ noQuota →
      RespectsQuota map (map.setItemUnshared key value placement).map
        (map.setItemUnshared key value placement).quotaException := by
    intro map hquota
    obtain ⟨hsize, hsame, hle⟩ := map.setItemUnshared_keepsQuota key value placement
    refine ⟨hsize, ?_⟩
    cases hexc : (map.setItemUnshared key value placement).quotaException with
    | true =>
      rw [hsame hexc]
      exact .inl ⟨rfl, List.Perm.refl _, rfl⟩
    | false => exact .inr ⟨rfl, hle hexc hquota⟩
  unfold StorageMapObject.setItem
  split
  · obtain ⟨hsize, hcases⟩ := hunshared (map.copy order) hquota
    refine ⟨hsize, hcases.imp_left fun ⟨hexc, hperm, hlen⟩ => ⟨hexc, ?_, hlen⟩⟩
    exact hperm.trans (order.property _)
  · rw [map.setItemUnshared_newMap]
    exact hunshared map hquota

/-- What holders can rely on, where the operations are allowed. -/
structure Behaves (allowed : StorageMaps → StorageMapOperation → Prop) (state : StorageMaps) :
    Prop where
  currentLength_eq : ∀ holder map, state.view holder = some map →
    map.currentLength.toNat = totalLength map.map.entries
  quota : ∀ holder map key value order placement, state.view holder = some map →
    map.quotaSize ≠ noQuota → ∃ r map',
      state.execute (.setItem holder key value order placement) = .ok r ∧
        r.1.view holder = some map' ∧ RespectsQuota map map' r.2.1
  isolated : ∀ operation : StorageMapOperation, operation.Legal state → allowed state operation →
    ∃ r, state.execute operation = .ok r ∧ state.Isolated operation r.1
  keys_nodup : ∀ holder, (state.keysOf holder).Nodup
  keys : ∀ reads : List (ℕ × UInt32), (∀ read ∈ reads, read.1 < state.holders.length) →
    ∃ state', state.readKeys reads =
      .ok (state', reads.map fun read => (state.keysOf read.1)[read.2.toNat]?)

/-- Where items are only imported by a holder that has its map alone and has not read a key since
the last change, holders can rely on their maps. -/
theorem storage_maps_behave {operations : List StorageMapOperation}
    (hrun : Run (guarded Step fun state operation => operation.ImportsAlone state) start operations
      state) :
    state.Behaves fun state operation => operation.ImportsAlone state := by
  have h := kept_of_run hrun
  constructor
  · intro holder map hview
    obtain ⟨id, hid, rfl⟩ := map_eq_some_iff.mp hview
    have hmem := mem_of_getElem? hid
    rw [(h.valid id hmem).currentLength_eq]
    exact UInt32.toNat_ofNat_of_lt' (h.fits id hmem)
  · intro holder map key value order placement hview hquota
    obtain ⟨id, hid, rfl⟩ := map_eq_some_iff.mp hview
    have hrespects := setItem_respectsQuota _ hquota (state.refCount id) key value order placement
    refine ⟨(state.install holder id _, _,
      ((state.maps id).setItem (state.refCount id) key value order placement).oldValue), _, ?_,
      view_install hid _, hrespects⟩
    rw [execute, holderMap_eq hid]
    rfl
  · intro operation hlegal halone
    obtain ⟨r, hr, -, hisolated⟩ := h.toSound.execute h.fits hlegal halone
    exact ⟨r, hr, hisolated⟩
  · intro holder
    unfold keysOf
    cases hview : state.view holder with
    | none => exact nodup_nil
    | some map =>
      obtain ⟨id, hid, rfl⟩ := map_eq_some_iff.mp hview
      exact (h.valid id (mem_of_getElem? hid)).nodup
  · intro reads hreads
    exact h.readKeys_eq hreads

/-- One of two holders sets an item. -/
theorem storage_maps_behave_shared : ∃ state : StorageMaps, state.holders = [1, 0] ∧
      state.Behaves fun state operation => operation.ImportsAlone state := by
  let order : Order := ⟨id, fun _ => List.Perm.refl _⟩
  let shared : StorageMaps := { start.adopt (.create 10) with holders := [0, 0] }
  let result := (StorageMapObject.create 10).setItem 2 [97] [98] order (.inPlace 0)
  have hcreate : Step start (.create 10) (start.adopt (.create 10)) :=
    ⟨trivial, ⟨_, rfl⟩, by decide⟩
  have hshare : Step (start.adopt (.create 10)) (.share 0) shared :=
    ⟨Nat.zero_lt_one, ⟨_, rfl⟩, by decide⟩
  have hset : Step shared (.setItem 0 [97] [98] order (.inPlace 0)) (shared.install 0 0 result) :=
    ⟨Nat.zero_lt_two, ⟨_, rfl⟩, by decide⟩
  have hrun : Run (guarded Step fun state operation => operation.ImportsAlone state) start
      [.create 10, .share 0, .setItem 0 [97] [98] order (.inPlace 0)] (shared.install 0 0 result) :=
    .cons ⟨True.intro, hcreate⟩ (.cons ⟨True.intro, hshare⟩ (.single ⟨True.intro, hset⟩))
  exact ⟨_, rfl, storage_maps_behave hrun⟩

/-- One of two holders imports an item, and the other has it too. -/
theorem not_storage_maps_behave :
    ¬ ∀ operations (state : StorageMaps), Run Step start operations state →
      state.Behaves fun _ _ => True := by
  intro h
  let shared : StorageMaps := { start.adopt (.create 10) with holders := [0, 0] }
  have hcreate : Step start (.create 10) (start.adopt (.create 10)) :=
    ⟨trivial, ⟨_, rfl⟩, by decide⟩
  have hshare : Step (start.adopt (.create 10)) (.share 0) shared :=
    ⟨Nat.zero_lt_one, ⟨_, rfl⟩, by decide⟩
  have hbehaves := h _ _ (.cons hcreate (.single hshare))
  have hlegal : StorageMapOperation.Legal shared (.importItems 0 [(⟨[97], [98]⟩, .inPlace 0)]) := by
    refine ⟨Nat.zero_lt_two, ?_⟩
    rintro _ ⟨⟩
    decide
  obtain ⟨r, hr, hisolated⟩ := hbehaves.isolated _ hlegal trivial
  cases hr
  have hview := congrArg (Option.map (·.currentLength)) (hisolated 0 rfl 1 (by decide))
  revert hview
  decide

end StorageMaps

end WebKit.Storage
