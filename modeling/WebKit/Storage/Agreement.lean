import WebKit.Storage.PendingChanges

/-!
# What the manager does with a message

A change is carried out, reported and answered; when no event is dispatched, the area's
items stay as they were, because the quota was exceeded or because the change has no effect
(`handle_change`). The exception is a removal of a key with a null value, which is carried
out but not reported.
-/

namespace WebKit.Storage

open Replica StorageAreaMap Change AreaMapMessage StorageMap Option

namespace StorageArea

variable {area : StorageArea} {key k value : WTFString}

theorem items_setMap (area : StorageArea) (storageMap : StorageMap) :
    items { area.openDatabaseAndImportItemsIfNeeded with storageMap := storageMap } =
      storageMap.items := by
  unfold items openDatabaseAndImportItemsIfNeeded
  by_cases hneeded : (!area.isLocalStorage || area.didImportItemsFromDatabase) = true
  · simp only [if_pos hneeded]
  · simp only [if_neg hneeded, Bool.or_true, if_true]

theorem items_open (area : StorageArea) :
    area.openDatabaseAndImportItemsIfNeeded.items = area.items :=
  items_setMap area area.openDatabaseAndImportItemsIfNeeded.storageMap

theorem setItem_spec (area : StorageArea) (key value : WTFString) :
    ((area.setItem key value).quotaError = true ∧ (area.setItem key value).event = none ∧
      (area.setItem key value).area.items = area.items) ∨
    ((area.setItem key value).quotaError = false ∧
      (area.setItem key value).event = some ⟨some key, some value⟩ ∧
      ∀ k, (area.setItem key value).area.items.lookup k =
        if key = k then some (some value) else area.items.lookup k) := by
  unfold setItem
  dsimp only
  split
  · rename_i hquota
    refine .inl ⟨rfl, rfl, ?_⟩
    rw [items_setMap, setItem_of_quotaException hquota]
    rfl
  · rename_i hquota
    refine .inr ⟨rfl, rfl, fun k => ?_⟩
    rw [items_setMap, setItem_items (Bool.eq_false_iff.mpr hquota), lookup_insert]
    rfl

theorem removeItem_spec (hnull : area.items.lookup key ≠ some none) :
    ((area.removeItem key).event = none ∧ area.items.lookup key = none ∨
      (area.removeItem key).event = some ⟨some key, none⟩) ∧
    ∀ k, (area.removeItem key).area.items.lookup k =
      if key = k then none else area.items.lookup k := by
  have hget := area.openDatabaseAndImportItemsIfNeeded.storageMap.lookup_removeItem key
  unfold removeItem
  dsimp only
  split
  · rename_i hnone
    refine ⟨.inl ⟨rfl, ?_⟩, fun k => by rw [items_setMap]; exact hget k⟩
    rw [removeItem_oldValue, isNone_iff_eq_none, getItem, join_eq_none_iff] at hnone
    exact hnone.resolve_right hnull
  · exact ⟨.inr rfl, fun k => by rw [items_setMap]; exact hget k⟩

theorem clear_spec (area : StorageArea) :
    (area.clear.event = none ∧ area.clear.area.items = area.items ∨
      area.clear.event = some ⟨none, none⟩) ∧
    ∀ k, area.clear.area.items.lookup k = none := by
  unfold clear
  dsimp only
  split
  · rename_i hempty
    refine ⟨.inl ⟨rfl, area.items_open⟩, fun k => ?_⟩
    rw [items_open, AList.lookup_eq_none, items, AList.mem_keys,
      List.eq_nil_of_length_eq_zero hempty]
    exact List.not_mem_nil
  · refine ⟨.inr rfl, fun k => ?_⟩
    rw [items_setMap]
    exact lookup_create _

end StorageArea

namespace StorageManager

variable {area : StorageArea} {message : ManagerMessage} {u : SentChange}

/-- A removal that finds a null value under its key. -/
def RemovesNull (items : Items) (message : ManagerMessage) : Prop :=
  ∃ id seed key, message = .removeItem id seed key ∧ items.lookup key = some none

/-- What carrying out a change comes to. -/
structure Carried (area : StorageArea) (u : SentChange) (handled : Handled) : Prop where
  answers : Answers handled.answer u
  values : handled.values = none
  source : handled.sourceStorageAreaID ≠ 0
  event : (handled.event = none ∧ handled.area.items.lookup = area.items.lookup) ∨
    ∃ event, handled.event = some event ∧ event.change = u.change ∧
      handled.area.items.lookup = u.change.apply area.items.lookup
  quotaError : (∃ seed key, handled.answer = .didSetItem seed key true) ∨
    handled.area.items.lookup = u.change.apply area.items.lookup

theorem handle_change (hsent : message.sent = some u) (hnull : ¬ RemovesNull area.items message) :
    Carried area u (handle area message) := by
  cases message with
  | getValues seed => cases hsent
  | setItem id seed key value =>
    cases hsent
    have hans := Answers.didSetItem seed key (some value) (area.setItem key value).quotaError
    rcases area.setItem_spec key value with ⟨hquota, hevent, hitems⟩ | ⟨_, hevent, hget⟩
    · exact ⟨hans, rfl, id.ne_zero, .inl ⟨hevent, congrArg (fun items : Items => items.lookup) hitems⟩,
        .inl ⟨seed, key, congrArg (didSetItem seed key) hquota⟩⟩
    · have happly : (area.setItem key value).area.items.lookup =
          (set key (some value)).apply area.items.lookup := by
        funext k
        rw [hget, apply, valueAt]
        split <;> rfl
      exact ⟨hans, rfl, id.ne_zero, .inr ⟨_, hevent, rfl, happly⟩, .inr happly⟩
  | removeItem id seed key =>
    cases hsent
    obtain ⟨hevent, hget⟩ := area.removeItem_spec fun h => hnull ⟨id, seed, key, rfl, h⟩
    have happly : (area.removeItem key).area.items.lookup =
        (remove key).apply area.items.lookup := by
      funext k
      rw [hget, apply, valueAt]
      split <;> rfl
    refine ⟨.didRemoveItem seed key, rfl, id.ne_zero, ?_, .inr happly⟩
    rcases hevent with ⟨hevent, hnone⟩ | hevent
    · refine .inl ⟨hevent, funext fun k => ?_⟩
      refine (hget k).trans ?_
      by_cases hk : key = k
      · subst hk
        rw [if_pos rfl, hnone]
      · rw [if_neg hk]
    · exact .inr ⟨_, hevent, rfl, happly⟩
  | clear id seed =>
    cases hsent
    obtain ⟨hevent, hget⟩ := area.clear_spec
    have happly : area.clear.area.items.lookup = Change.clear.apply area.items.lookup :=
      funext fun k => hget k
    refine ⟨.didClear seed, rfl, id.ne_zero, ?_, .inr happly⟩
    rcases hevent with ⟨hevent, hitems⟩ | hevent
    · exact .inl ⟨hevent, congrArg (fun items : Items => items.lookup) hitems⟩
    · exact .inr ⟨_, hevent, rfl, happly⟩

end StorageManager

/-!
## Maps and the area after each message

`Agrees` compares the items of a map with the area's on the keys that no change on its way
to the manager touches. The event that reports a change of the area keeps it
(`Agrees.event`), and so does the answer to a change of the map's own (`Agrees.answer`).
`Replays` is about the messages on their way: those after a clear rebuild the area's items
from nothing, so that a map that starts empty there ends up with them
(`Replays.agrees`).
-/

open Replica

namespace AreaMapMessage

/-- The change of the area that a message reports. -/
def change : AreaMapMessage → Option (Change WTFString (Option WTFString))
  | .dispatchStorageEvent _ key newValue => some (StorageEvent.change ⟨key, newValue⟩)
  | _ => none

end AreaMapMessage

namespace StorageAreaMap

variable {map : StorageAreaMap} {storageMap : StorageMap} {sent : List SentChange}
  {u : SentChange} {f g : WTFString → Option (Option WTFString)} {message : AreaMapMessage}
  {messages : List AreaMapMessage}

/-- While a map is loaded, changes of its that were sent under an older seed come before a
clear. -/
def Ordered (map : StorageAreaMap) (sent : List SentChange) : Prop :=
  map.storageMap ≠ none → (∀ u ∈ sent, u.seed = map.currentSeed) ∨
    .clear ∈ currentChanges map.currentSeed sent

theorem Ordered.tail (h : map.Ordered (u :: sent)) (hsorted : (u :: sent).Pairwise (·.seed ≤ ·.seed))
    (hle : ∀ v ∈ sent, v.seed ≤ map.currentSeed) : map.Ordered sent := by
  intro hloaded
  rcases h hloaded with hall | hclear
  · exact .inl fun v hv => hall v (List.mem_cons_of_mem _ hv)
  · by_cases hseed : u.seed = map.currentSeed
    · refine .inl fun v hv => le_antisymm (hle v hv) ?_
      rw [← hseed]
      exact (List.pairwise_cons.mp hsorted).1 v hv
    · rw [currentChanges_cons_of_ne hseed] at hclear
      exact .inr hclear

theorem Ordered.settleAll (h : map.Ordered sent) : (map.settleAll messages).Ordered sent := by
  intro hloaded
  obtain ⟨hloaded', hseed⟩ := settleAll_loaded hloaded
  rw [hseed]
  exact h hloaded'

theorem settle_answer_storageMap (hans : message.isAnswer = true) :
    (map.settle message).storageMap = none ∨ (map.settle message).storageMap = map.storageMap := by
  cases message with
  | didSetItem seed key quotaError =>
    unfold settle handle didSetItem
    dsimp only
    split
    · exact .inr rfl
    · split
      · exact .inl rfl
      · exact .inr rfl
  | didRemoveItem seed key =>
    unfold settle handle didRemoveItem
    dsimp only
    split <;> exact .inr rfl
  | didClear seed =>
    unfold settle handle didClear
    dsimp only
    split <;> exact .inr rfl
  | dispatchStorageEvent | didGetValues | clearCache => cases hans

theorem settle_quotaError (key : WTFString) :
    (map.settle (.didSetItem map.currentSeed key true)).storageMap = none := by
  unfold settle handle didSetItem
  dsimp only
  rw [if_neg (not_not.mpr rfl), if_pos rfl]
  rfl

/-- The event that reports a change of the area makes the same change to the map. -/
theorem Agrees.event (h : map.Agrees (sent.map (·.change)) f) (hkept : map.Kept sent)
    (hvalues : map.hasPendingGetValues = false) (event : StorageEvent) :
    (map.settle (.dispatchStorageEvent 0 event.key event.newValue)).Agrees
      (sent.map (·.change)) (event.change.apply f) := by
  intro storageMap' hsettled k hk
  have hcur := lastValue_currentChanges_eq_none map.currentSeed hk
  have hclear := hkept.not_hasPendingClear hcur
  have hnot := hkept.not_mem_pending hcur
  cases hmap : map.storageMap with
  | none =>
    rw [settle_storageMap_none hmap] at hsettled
    cases hsettled
  | some storageMap =>
    have hold := h storageMap hmap k hk
    obtain ⟨key, newValue⟩ := event
    cases key with
    | none =>
      obtain ⟨merged, heq, hget⟩ := lookup_mergeClear hclear hvalues hmap
      simp only [settle, if_pos, heq, Option.some.injEq] at hsettled
      rw [← hsettled, hget, if_neg hnot]
      rfl
    | some key =>
      obtain ⟨changed, heq, hget⟩ := lookup_applyKeyChange key newValue hmap
      simp only [settle, handle, dispatchStorageEvent, applyChange, hclear, hvalues, if_pos,
        Bool.or_false, Bool.false_eq_true, if_false, heq, Option.some.injEq] at hsettled
      rw [← hsettled, hget, hold]
      by_cases hkey : key = k
      · subst hkey
        rw [if_pos ⟨rfl, hnot⟩]
        cases newValue <;> simp [StorageEvent.change, Change.apply, Change.valueAt]
      · cases newValue <;> simp [StorageEvent.change, Change.apply, Change.valueAt, hkey]

theorem Agrees.answer (h : map.Agrees ((u :: sent).map (·.change)) f) (hkept : map.Kept (u :: sent))
    (hord : map.Ordered (u :: sent)) (hans : Answers message u)
    (hcarried : (∃ seed key, message = .didSetItem seed key true) ∨ g = u.change.apply f) :
    (map.settle message).Agrees (sent.map (·.change)) g := by
  intro storageMap hsettled k hk
  have hisAnswer : message.isAnswer = true := by
    cases hans <;> rfl
  have hmap : map.storageMap = some storageMap := by
    rcases settle_answer_storageMap hisAnswer with hnone | hsame
    · rw [hnone] at hsettled
      cases hsettled
    · rw [← hsame, hsettled]
  have hseed : u.seed = map.currentSeed := by
    by_contra hseed
    rcases hord (by rw [hmap]; exact some_ne_none _) with hall | hclear
    · exact hseed (hall u List.mem_cons_self)
    · rw [currentChanges_cons_of_ne hseed] at hclear
      exact lastValue_ne_none_of_clear (mem_of_mem_currentChanges hclear) hk
  rcases hcarried with ⟨seed, key, rfl⟩ | rfl
  · cases hans with
    | didSetItem _ _ value _ =>
      dsimp only at hseed
      rw [hseed, settle_quotaError] at hsettled
      cases hsettled
  · cases hat : u.change.valueAt k with
    | none =>
      rw [apply_of_none _ hat]
      refine h storageMap hmap k ?_
      rw [List.map_cons, lastValue, hk, hat]
      rfl
    | some value =>
      rw [apply_of_some _ hat]
      refine hkept.shows storageMap hmap k value ?_
      rw [currentChanges_cons_of_eq hseed, lastValue, lastValue_currentChanges_eq_none _ hk, hat]
      rfl

theorem settle_own {id : Nat} (hid : id ≠ 0) (key newValue : Option WTFString) :
    map.settle (.dispatchStorageEvent id key newValue) = map := by
  cases key <;> simp [settle, handle, dispatchStorageEvent, hid]

theorem settleAll_ignored (hvalues : map.hasPendingGetValues = true)
    (hans : ∀ m ∈ messages, m.isAnswer = true → ∃ u, Answers m u ∧ u.seed < map.currentSeed)
    (hseeds : ∀ seed, .didGetValues seed ∈ messages → seed < map.currentSeed) :
    (map.settleAll messages).storageMap = none ∨ map.settleAll messages = map := by
  induction messages with
  | nil => exact .inr rfl
  | cons message messages ih =>
    have hsame : map.settle message = map ∨ message = .clearCache := by
      cases message with
      | dispatchStorageEvent id key newValue =>
        refine .inl ?_
        cases key <;>
          simp [settle, handle, dispatchStorageEvent, applyChange, mergeClear, hvalues]
      | didGetValues seed =>
        have hlt := hseeds seed List.mem_cons_self
        exact .inl (if_pos (Nat.ne_of_gt hlt))
      | clearCache => exact .inr rfl
      | _ =>
        obtain ⟨u, hanswer, hlt⟩ := hans _ List.mem_cons_self rfl
        refine .inl ?_
        cases hanswer
        exact if_pos (Nat.ne_of_gt hlt)
    rcases hsame with hsame | rfl
    · rw [settleAll_cons, hsame]
      exact ih (fun m hm => hans m (List.mem_cons_of_mem _ hm))
        fun seed hmem => hseeds seed (List.mem_cons_of_mem _ hmem)
    · exact .inl (settleAll_none rfl messages)

/-- The messages after a clear, in whatever way it was caused, make the area's items out of
an empty map. -/
def Replays (messages : List AreaMapMessage) (f : WTFString → Option (Option WTFString)) : Prop :=
  ∀ before id newValue after, messages = before ++ .dispatchStorageEvent id none newValue :: after →
    .clearCache ∉ after → f = applyAll (after.filterMap change) fun _ => none

theorem Replays.nil : Replays [] f := by
  intro before id newValue after heq
  simp at heq

theorem Replays.tail (h : Replays (message :: messages) f) : Replays messages f := by
  intro before id newValue after heq
  exact h (message :: before) id newValue after (by rw [heq]; rfl)

theorem concat_eq_append_cons {α : Type*} {l before after : List α} {x y : α}
    (h : l ++ [x] = before ++ y :: after) :
    (after = [] ∧ x = y) ∨ ∃ after', after = after' ++ [x] ∧ l = before ++ y :: after' := by
  rcases List.eq_nil_or_concat after with rfl | ⟨after', z, rfl⟩
  · have heq := List.append_inj_right' h rfl
    exact .inl ⟨rfl, by simpa using heq⟩
  · rw [List.concat_eq_append, ← List.cons_append, ← List.append_assoc] at h
    have hz : x = z := by simpa using List.append_inj_right' h rfl
    exact .inr ⟨after', by rw [List.concat_eq_append, hz], List.append_inj_left' h rfl⟩

theorem Replays.concat_event (h : Replays messages f) (id : Nat) (event : StorageEvent) :
    Replays (messages ++ [.dispatchStorageEvent id event.key event.newValue])
      (event.change.apply f) := by
  intro before id' newValue after hsplit hclearCache
  rcases concat_eq_append_cons hsplit with ⟨rfl, heq⟩ | ⟨after', rfl, heq⟩
  · obtain ⟨key, value⟩ := event
    cases heq
    rfl
  · have hnot : .clearCache ∉ after' := fun hmem =>
      hclearCache (List.mem_append_left _ hmem)
    rw [List.filterMap_append]
    funext k
    rw [h before id' newValue after' heq hnot]
    exact (applyAll_concat _).symm

theorem Replays.concat_other (h : Replays messages f) (hmsg : message.change = none) :
    Replays (messages ++ [message]) f := by
  intro before id newValue after hsplit hclearCache
  rcases concat_eq_append_cons hsplit with ⟨rfl, rfl⟩ | ⟨after', rfl, heq⟩
  · cases hmsg
  · have hnot : .clearCache ∉ after' := fun hmem =>
      hclearCache (List.mem_append_left _ hmem)
    rw [List.filterMap_append, List.filterMap_cons_none hmsg, List.filterMap_nil, List.append_nil]
    exact h before id newValue after' heq hnot

theorem Replays.concat_clearCache : Replays (messages ++ [.clearCache]) f := by
  intro before id newValue after hsplit hclearCache
  rcases concat_eq_append_cons hsplit with ⟨_, heq⟩ | ⟨after', rfl, _⟩
  · cases heq
  · exact absurd (List.mem_append_right _ List.mem_cons_self) hclearCache

theorem Kept.nothing (hloaded : map.storageMap ≠ none) (hpend : map.pendingValueChanges = [])
    (hclear : map.hasPendingClear = false) : map.Kept [] where
  sorted := .nil
  le := by simp
  notNull := by simp
  unloaded hnone := absurd hnone hloaded
  pending key := by
    rw [hpend]
    rfl
  cleared := by
    rw [hclear]
    rfl
  shows _ _ _ _ hvalue := by cases hvalue

/-- The messages reset the map, or make every change that they report to its items. -/
def Follows (map : StorageAreaMap) (storageMap : StorageMap) (messages : List AreaMapMessage) :
    Prop :=
  (map.settleAll messages).storageMap = none ∨ .clearCache ∉ messages ∧
    ∃ storageMap', (map.settleAll messages).storageMap = some storageMap' ∧
      storageMap'.items.lookup = applyAll (messages.filterMap change) storageMap.items.lookup

theorem settleAll_replay (hmap : map.storageMap = some storageMap)
    (hpend : map.pendingValueChanges = []) (hclear : map.hasPendingClear = false)
    (hvalues : map.hasPendingGetValues = false)
    (hown : ∀ m ∈ messages, m.isOwnEvent = false)
    (hans : ∀ m ∈ messages, m.isAnswer = true → ∃ u, Answers m u ∧ u.seed < map.currentSeed) :
    map.Follows storageMap messages := by
  induction messages generalizing map storageMap with
  | nil => exact .inr ⟨List.not_mem_nil, storageMap, hmap, rfl⟩
  | cons message messages ih =>
    have hown' : ∀ m ∈ messages, m.isOwnEvent = false := fun m hm =>
      hown m (List.mem_cons_of_mem _ hm)
    have hans' : ∀ m ∈ messages, m.isAnswer = true →
        ∃ u, Answers m u ∧ u.seed < map.currentSeed := fun m hm =>
      hans m (List.mem_cons_of_mem _ hm)
    -- a message that reports no change leaves the items alone
    have hskip : message ≠ .clearCache → message.change = none → map.settle message = map →
        map.Follows storageMap (message :: messages) := fun hne hnone hsame => by
      rw [Follows, settleAll_cons, hsame, List.filterMap_cons_none hnone, List.mem_cons, not_or]
      rcases ih hmap hpend hclear hvalues hown' hans' with hreset | ⟨hnot, hrest⟩
      · exact .inl hreset
      · exact .inr ⟨⟨Ne.symm hne, hnot⟩, hrest⟩
    have hold : message.isAnswer = true → map.settle message = map := fun hisAnswer => by
      obtain ⟨u, hanswer, hlt⟩ := hans message List.mem_cons_self hisAnswer
      cases hanswer <;> exact if_pos (Nat.ne_of_gt hlt)
    cases message with
    | dispatchStorageEvent id key newValue =>
      have hid : id = 0 := by simpa [isOwnEvent] using hown _ List.mem_cons_self
      subst hid
      obtain ⟨items, heq, hsome⟩ := settle_event map 0 key newValue
      obtain ⟨storageMap', rfl⟩ := isSome_iff_exists.mp (hsome.trans (by rw [hmap]; rfl))
      have hagrees : map.Agrees [] storageMap.items.lookup := fun storageMap' hmap' key _ => by
        rw [hmap, some.injEq] at hmap'
        rw [hmap']
      have hkept := Kept.nothing (by rw [hmap]; exact some_ne_none _) hpend hclear
      have hsettled := hagrees.event hkept hvalues ⟨key, newValue⟩ storageMap' (by rw [heq])
      have hget : storageMap'.items.lookup =
          (StorageEvent.change ⟨key, newValue⟩).apply storageMap.items.lookup :=
        funext fun k => hsettled k rfl
      have hchange : change (.dispatchStorageEvent 0 key newValue) =
          some (StorageEvent.change ⟨key, newValue⟩) := rfl
      rw [Follows, settleAll_cons, heq, List.filterMap_cons_some hchange, applyAll_cons, ← hget,
        List.mem_cons, not_or]
      rcases @ih { map with storageMap := some storageMap' } storageMap' rfl hpend hclear
        hvalues hown' hans' with hreset | ⟨hnot, hrest⟩
      · exact .inl hreset
      · exact .inr ⟨⟨by simp, hnot⟩, hrest⟩
    | didGetValues seed =>
      refine hskip (by simp) rfl ?_
      unfold settle handle didGetValues
      dsimp only
      split
      · rfl
      · rw [← hvalues]
    | didSetItem seed key quotaError => exact hskip (by simp) rfl (hold rfl)
    | didRemoveItem seed key => exact hskip (by simp) rfl (hold rfl)
    | didClear seed => exact hskip (by simp) rfl (hold rfl)
    | clearCache => exact .inl (settleAll_none rfl messages)

end StorageAreaMap

end WebKit.Storage
