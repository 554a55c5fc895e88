import Mathlib.Data.List.Nodup
import Mathlib.Data.List.Perm.Basic
import WebKit.Transition.Run
import WebKit.WTF.Memory

/-!
# The back/forward list of a page

`WebBackForwardList`: the entries, the index of the current one, and what every change tells the
page. An index stays below the number of entries, so it is a natural number here; only the state
that is saved for a session counts an index down past zero.
-/

open List

namespace WebKit.UIProcess

open Transition Option
open WTF (Failure load)

variable {Item ItemState : Type*}

structure WebBackForwardList (Item : Type*) where
  /-- `m_page` is not null. -/
  hasPage : Bool
  entries : List Item
  hasCurrentIndex : Bool
  currentIndex : ℕ
  capacity : ℕ

/-- What `didChangeBackForwardList` is told. -/
structure Change (Item : Type*) where
  added : Option Item
  removed : List Item

namespace WebBackForwardList

/-- `m_entries` keeps fewer than 2^32 elements, so the capacity bounds their number. -/
def create (Item : Type*) (capacity : ℕ) : WebBackForwardList Item := ⟨true, [], false, 0, capacity⟩

def pageClosed (list : WebBackForwardList Item) : WebBackForwardList Item :=
  { list with hasPage := false, entries := [], hasCurrentIndex := false }

/-- The first part of `addItem`: what is tossed for the new item. -/
def toss (list : WebBackForwardList Item) :
    Except Failure (List Item × WebBackForwardList Item) :=
  if list.hasCurrentIndex then
    -- Toss everything in the forward list.
    let removed := (list.entries.drop (list.currentIndex + 1)).reverse
    let entries := list.entries.take (list.currentIndex + 1)
    -- Toss the first item if the list is getting too big, as long as we're not using it
    -- (or even if we are, if we only want 1 entry).
    if entries.length = list.capacity ∧ (list.currentIndex ≠ 0 ∨ list.capacity = 1) then
      match entries with
      | [] => throw .crash
      | first :: [] =>
        pure (removed ++ [first], { list with entries := [], hasCurrentIndex := false })
      | first :: entries =>
        pure (removed ++ [first],
          { list with entries := entries, currentIndex := list.currentIndex - 1 })
    else pure (removed, { list with entries := entries })
  else pure (list.entries, { list with entries := [] })

/-- `keep` is the answer of `shouldKeepCurrentBackForwardListItemInList`. -/
def addItem (list : WebBackForwardList Item) (newItem : Item) (keep : Bool) :
    Except Failure (Option (Change Item) × WebBackForwardList Item) :=
  if list.capacity = 0 ∨ list.hasPage = false then pure (none, list)
  else do
    let (removed, list) ← list.toss
    if list.hasCurrentIndex then
      let current ← load list.entries list.currentIndex
      if keep then
        let currentIndex := list.currentIndex + 1
        let entries := if currentIndex ≤ list.entries.length then
          list.entries.insertIdx currentIndex newItem else list.entries
        pure (some ⟨some newItem, removed⟩,
          { list with entries := entries, currentIndex := currentIndex })
      else
        pure (some ⟨some newItem, removed ++ [current]⟩,
          { list with entries := list.entries.set list.currentIndex newItem })
    else
      pure (some ⟨some newItem, removed⟩,
        { list with
          entries := list.entries.insertIdx 0 newItem, hasCurrentIndex := true, currentIndex := 0 })

/-- `notFound`, as an unsigned index. -/
def notFound : ℕ := 2 ^ 32 - 1

def goToItem [DecidableEq Item] (list : WebBackForwardList Item) (item : Item) (keep : Bool) :
    Except Failure (Option (Change Item) × WebBackForwardList Item) :=
  if list.entries.length = 0 ∨ list.hasPage = false ∨ list.hasCurrentIndex = false then
    pure (none, list)
  else
    match list.entries.idxOf? item with
    -- If the target item wasn't even in the list, there's nothing else to do.
    | none => pure (none, list)
    | some targetIndex => do
      let current ← load list.entries list.currentIndex
      if current ≠ item ∧ keep = false then
        let entries := list.entries.eraseIdx list.currentIndex
        pure (some ⟨none, [current]⟩,
          { list with
            entries := entries, currentIndex := (entries.idxOf? item).getD notFound })
      else pure (some ⟨none, []⟩, { list with currentIndex := targetIndex })

def currentItem (list : WebBackForwardList Item) : Except Failure (Option Item) :=
  if list.hasPage && list.hasCurrentIndex then some <$> load list.entries list.currentIndex
  else pure none

/-- The page is used without a check. -/
def removeAllItems (list : WebBackForwardList Item) :
    Except Failure (Option (Change Item) × WebBackForwardList Item) :=
  if list.hasPage then
    pure (some ⟨none, list.entries⟩, { list with entries := [], hasCurrentIndex := false })
  else throw .badAccess

def clear (list : WebBackForwardList Item) :
    Except Failure (Option (Change Item) × WebBackForwardList Item) :=
  if list.hasPage = false ∨ list.entries.length ≤ 1 then pure (none, list)
  else do
    match ← list.currentItem with
    | none =>
      pure (some ⟨none, list.entries⟩, { list with entries := [], hasCurrentIndex := false })
    | some current =>
      pure (some ⟨none, list.entries.eraseIdx list.currentIndex⟩,
        { list with entries := [current], currentIndex := 0 })

inductive Call (Item : Type*)
  | addItem (item : Item) (keep : Bool)
  | goToItem (item : Item) (keep : Bool)
  | clear
  | removeAllItems
  | pageClosed

section Runs

/-- An item that is added is a new one. -/
def Fresh (list : WebBackForwardList Item) : Call Item → Prop
  | .addItem item _ => item ∉ list.entries
  | _ => True

structure Valid (list : WebBackForwardList Item) : Prop where
  index_lt : list.hasCurrentIndex = true → list.currentIndex < list.entries.length
  entries_nil : list.hasCurrentIndex = false → list.entries = []
  length_le : list.entries.length ≤ list.capacity
  nodup : list.entries.Nodup
  page : list.hasPage = false → list.entries = []

/-- What a call does to the list, and what it tells the page. -/
structure Behaves (list : WebBackForwardList Item) (call : Call Item)
    (change : Option (Change Item)) (after : WebBackForwardList Item) : Prop where
  added : ∀ item keep, call = .addItem item keep → list.hasPage = true → list.capacity ≠ 0 →
    after.currentItem = .ok (some item) ∧ after.entries.getLast? = some item
  went : ∀ item keep, call = .goToItem item keep → item ∈ list.entries →
    after.currentItem = .ok (some item)
  order : ∃ kept, kept.Sublist list.entries ∧ (after.entries = kept ∨
    ∃ item keep, call = .addItem item keep ∧ after.entries = kept ++ [item])
  removed : ∀ c, change = some c →
    c.removed.Nodup ∧ ∀ item, item ∈ c.removed ↔ item ∈ list.entries ∧ item ∉ after.entries
  silent : change = none → call = .pageClosed ∨ after = list

variable {list after : WebBackForwardList Item} {removed kept : List Item} {item current : Item}
  {keep : Bool} {change : Option (Change Item)} {call : Call Item} {calls : List (Call Item)}
  {capacity : ℕ}

theorem removed_iff (hperm : (removed ++ kept).Perm list.entries) (h : list.entries.Nodup) :
    removed.Nodup ∧ ∀ item, item ∈ removed ↔ item ∈ list.entries ∧ item ∉ kept := by
  obtain ⟨hrem, -, hdisj⟩ := nodup_append.mp (hperm.nodup_iff.mpr h)
  refine ⟨hrem, fun item => ⟨fun hmem => ?_, fun ⟨hmem, hnot⟩ => ?_⟩⟩
  · exact ⟨hperm.subset (mem_append_left _ hmem), fun hkept => hdisj item hmem item hkept rfl⟩
  · exact (mem_append.mp (hperm.symm.subset hmem)).resolve_right hnot

/-- The current item is the last one after the forward list has gone, unless it has gone too. -/
theorem toss_spec (h : list.Valid) (hcap : list.capacity ≠ 0) :
    ∃ removed kept index, list.toss = .ok (removed,
        { list with entries := kept, hasCurrentIndex := !kept.isEmpty, currentIndex := index }) ∧
      (removed ++ kept).Perm list.entries ∧ kept.Sublist list.entries ∧
      kept.length < list.capacity ∧ (kept ≠ [] → kept.length = index + 1) := by
  unfold toss
  cases hcur : list.hasCurrentIndex with
  | false =>
    have hnil := h.entries_nil hcur
    refine ⟨[], [], list.currentIndex, ?_, by rw [hnil]; rfl, nil_sublist _, by
      rw [length_nil]; omega, nofun⟩
    rw [hnil]
    rfl
  | true =>
    have hlt := h.index_lt hcur
    have hle := h.length_le
    obtain ⟨first, kept, htake⟩ : ∃ first kept,
        list.entries.take (list.currentIndex + 1) = first :: kept :=
      exists_cons_of_length_pos (by rw [length_take]; omega)
    have hlen : kept.length = list.currentIndex := by
      have hcount := congrArg length htake
      rw [length_take, length_cons] at hcount
      omega
    have hperm : ((list.entries.drop (list.currentIndex + 1)).reverse ++ first :: kept).Perm
        list.entries := by
      rw [← htake]
      refine ((reverse_perm _).append_right _).trans (perm_append_comm.trans ?_)
      rw [take_append_drop]
    have hsub : (first :: kept).Sublist list.entries := htake ▸ take_sublist _ _
    rw [if_pos rfl]
    dsimp only
    rw [htake]
    split
    · next hfull =>
      have hevicted : ((list.entries.drop (list.currentIndex + 1)).reverse ++ [first] ++ kept).Perm
          list.entries := by
        rwa [append_assoc, singleton_append]
      cases kept with
      | nil => exact ⟨_, [], _, rfl, hevicted, nil_sublist _, by rw [length_nil]; omega, nofun⟩
      | cons next kept =>
        refine ⟨_, next :: kept, list.currentIndex - 1, ?_, hevicted,
          (sublist_cons_self _ _).trans hsub, by omega, fun _ => ?_⟩
        · rfl
        · rw [length_cons] at hlen ⊢
          omega
    · next hfull =>
      rw [length_cons] at hfull
      refine ⟨_, first :: kept, list.currentIndex, ?_, hperm, hsub, ?_, fun _ => ?_⟩
      · rfl
      · have hcount := hsub.length_le
        rw [length_cons] at hcount ⊢
        omega
      · rw [length_cons, hlen]

theorem addItem_spec (h : list.Valid) (hcap : list.capacity ≠ 0) (hpage : list.hasPage = true)
    (item : Item) (keep : Bool) :
    ∃ removed kept, (removed ++ kept).Perm list.entries ∧ kept.Sublist list.entries ∧
      kept.length < list.capacity ∧ list.addItem item keep =
        .ok (some ⟨some item, removed⟩, ⟨true, kept ++ [item], true, kept.length, list.capacity⟩) := by
  obtain ⟨removed, kept, index, htoss, hperm, hsub, hlt, hindex⟩ := toss_spec h hcap
  rw [addItem, if_neg (by simp [hcap, hpage]), htoss]
  dsimp only [bind, Except.bind]
  rcases eq_nil_or_concat kept with rfl | ⟨kept, current, rfl⟩
  · refine ⟨removed, [], hperm, hsub, hlt, ?_⟩
    rw [if_neg (by simp), hpage]
    rfl
  · have hlen : index = kept.length := by simpa using (hindex (by simp)).symm
    have hload : load (kept.concat current) index = .ok current := by
      rw [WTF.load_eq (by simp [hlen])]
      simp [hlen]
    rw [if_pos (by simp), hload]
    cases keep with
    | true =>
      refine ⟨removed, _, hperm, hsub, hlt, ?_⟩
      have hins : (kept ++ [current]).insertIdx (kept.length + 1) item = kept ++ [current, item] :=
        (by simpa using @insertIdx_length_self _ (kept ++ [current]) item)
      simp [hlen, hpage, hins, pure, Except.pure]
    | false =>
      refine ⟨removed ++ [current], kept, ?_, ?_, ?_, ?_⟩
      · rw [append_assoc]
        exact (perm_append_comm.append_left _).trans (by rwa [← concat_eq_append])
      · exact (sublist_append_left kept [current]).trans (by rwa [← concat_eq_append])
      · rw [length_concat] at hlt
        omega
      · simp [hlen, hpage, pure, Except.pure]

theorem Behaves.refl (hadd : ∀ item keep, call = .addItem item keep →
      ¬ (list.hasPage = true ∧ list.capacity ≠ 0))
    (hgo : ∀ item keep, call = .goToItem item keep → item ∉ list.entries) :
    Behaves list call none list where
  added item keep heq hpage hcap := absurd ⟨hpage, hcap⟩ (hadd item keep heq)
  went item keep heq hmem := absurd hmem (hgo item keep heq)
  order := ⟨list.entries, List.Sublist.refl _, .inl rfl⟩
  removed := nofun
  silent _ := .inr rfl

theorem Valid.addItem (h : list.Valid) {item : Item} (hfresh : item ∉ list.entries) (keep : Bool) :
    ∃ change after, list.addItem item keep = .ok (change, after) ∧ after.Valid ∧
      Behaves list (.addItem item keep) change after := by
  by_cases hguard : list.capacity = 0 ∨ list.hasPage = false
  · rw [WebBackForwardList.addItem, if_pos hguard]
    refine ⟨none, list, rfl, h, .refl (fun _ _ _ hnot => ?_) nofun⟩
    exact hguard.elim hnot.2 fun hfalse => Bool.false_ne_true (hfalse.symm.trans hnot.1)
  · obtain ⟨hcap, hpage⟩ : list.capacity ≠ 0 ∧ list.hasPage = true := by
      simpa [not_or] using hguard
    obtain ⟨removed, kept, hperm, hsub, hlt, heq⟩ := addItem_spec h hcap hpage item keep
    have hnot : item ∉ kept := fun hmem => hfresh (hsub.subset hmem)
    refine ⟨_, _, heq, ⟨fun _ => by simp, nofun, by simpa using Nat.succ_le_of_lt hlt, ?_, nofun⟩, ?_, nofun,
      ⟨kept, hsub, .inr ⟨item, keep, rfl, rfl⟩⟩, ?_, nofun⟩
    · exact nodup_append.mpr ⟨hsub.nodup h.nodup, nodup_singleton _,
        fun a ha b hb heq => hnot (mem_singleton.mp hb ▸ heq ▸ ha)⟩
    · rintro _ _ ⟨⟩ - -
      simp [currentItem, load, pure, Except.pure]
    · rintro _ ⟨⟩
      obtain ⟨hnodup, hiff⟩ := removed_iff hperm h.nodup
      refine ⟨hnodup, fun other => (hiff other).trans (and_congr_right fun hmem => not_congr ?_)⟩
      rw [mem_append, mem_singleton]
      exact ⟨.inl, fun hor => hor.resolve_right fun heq => hfresh (heq ▸ hmem)⟩

theorem Valid.clear (h : list.Valid) : ∃ change after, list.clear = .ok (change, after) ∧
    after.Valid ∧ Behaves list .clear change after := by
  unfold WebBackForwardList.clear
  by_cases hguard : list.hasPage = false ∨ list.entries.length ≤ 1
  · rw [if_pos hguard]
    exact ⟨none, list, rfl, h, .refl nofun nofun⟩
  · obtain ⟨hpage, hlen⟩ : list.hasPage = true ∧ 1 < list.entries.length := by
      simpa [not_or] using hguard
    have hcur : list.hasCurrentIndex = true := by
      by_contra hfalse
      rw [h.entries_nil (by simpa using hfalse), length_nil] at hlen
      omega
    have hlt := h.index_lt hcur
    have hperm : (list.entries.eraseIdx list.currentIndex ++
        [list.entries[list.currentIndex]]).Perm list.entries :=
      perm_append_comm.trans (getElem_cons_eraseIdx_perm hlt)
    have hitem : list.currentItem = .ok (some list.entries[list.currentIndex]) := by
      rw [currentItem, hpage, hcur, WTF.load_eq hlt]
      rfl
    rw [if_neg hguard, hitem]
    refine ⟨_, _, rfl, ⟨fun _ => Nat.one_pos, fun hfalse => ?_, ?_, nodup_singleton _,
      fun hfalse => ?_⟩, nofun, nofun,
      ⟨_, singleton_sublist.mpr (getElem_mem hlt), .inl rfl⟩, ?_, nofun⟩
    · cases hcur.symm.trans hfalse
    · exact Nat.le_trans (Nat.le_of_lt hlen) h.length_le
    · cases hpage.symm.trans hfalse
    · rintro _ ⟨⟩
      exact removed_iff hperm h.nodup

theorem Valid.empty (hasPage : Bool) (index : ℕ) :
    Valid (⟨hasPage, [], false, index, capacity⟩ : WebBackForwardList Item) :=
  ⟨nofun, fun _ => rfl, Nat.zero_le _, nodup_nil, fun _ => rfl⟩

variable [DecidableEq Item]

def apply (list : WebBackForwardList Item) :
    Call Item → Except Failure (Option (Change Item) × WebBackForwardList Item)
  | .addItem item keep => list.addItem item keep
  | .goToItem item keep => list.goToItem item keep
  | .clear => list.clear
  | .removeAllItems => list.removeAllItems
  | .pageClosed => pure (none, list.pageClosed)

def Step (list : WebBackForwardList Item) (call : Call Item) (after : WebBackForwardList Item) :
    Prop :=
  list.Fresh call ∧ ∃ change, list.apply call = .ok (change, after)

theorem exists_idxOf? (h : item ∈ kept) : ∃ i, kept.idxOf? item = some i ∧ kept[i]? = some item := by
  cases hfind : kept.idxOf? item with
  | none => exact absurd h (idxOf?_eq_none_iff.mp hfind)
  | some i =>
    obtain ⟨hlt, heq, -⟩ := findIdx?_eq_some_iff_getElem.mp hfind
    exact ⟨i, rfl, by rw [getElem?_eq_getElem hlt, eq_of_beq heq]⟩

theorem Valid.goToItem (h : list.Valid) (item : Item) (keep : Bool) :
    ∃ change after, list.goToItem item keep = .ok (change, after) ∧ after.Valid ∧
      Behaves list (.goToItem item keep) change after := by
  unfold WebBackForwardList.goToItem
  by_cases hguard : list.entries.length = 0 ∨ list.hasPage = false ∨ list.hasCurrentIndex = false
  · rw [if_pos hguard]
    have hnil : list.entries = [] := hguard.elim length_eq_zero_iff.mp (Or.rec h.page h.entries_nil)
    exact ⟨none, list, rfl, h, .refl (by rintro _ _ ⟨⟩) fun _ _ _ => by
      rw [hnil]
      exact not_mem_nil⟩
  rw [if_neg hguard]
  by_cases hmem : item ∈ list.entries
  · obtain ⟨hne, hpage, hcur⟩ : list.entries ≠ [] ∧ list.hasPage = true ∧
        list.hasCurrentIndex = true := by simpa [not_or] using hguard
    obtain ⟨target, hfind, hget⟩ := exists_idxOf? hmem
    have hlt := h.index_lt hcur
    rw [hfind]
    rw [WTF.load_eq hlt]
    dsimp only [bind, Except.bind]
    split
    · next hdropped =>
      have hperm : ([list.entries[list.currentIndex]] ++
          list.entries.eraseIdx list.currentIndex).Perm list.entries :=
        getElem_cons_eraseIdx_perm hlt
      have hstays : item ∈ list.entries.eraseIdx list.currentIndex :=
        (mem_cons.mp (hperm.symm.subset hmem)).resolve_left fun heq => hdropped.1 heq.symm
      have hsub := eraseIdx_sublist list.entries list.currentIndex
      obtain ⟨index, hindex, hitem⟩ := exists_idxOf? hstays
      rw [hindex]
      refine ⟨_, _, rfl, ⟨fun _ => (List.getElem?_eq_some_iff.mp hitem).1, fun hfalse => ?_,
        Nat.le_trans hsub.length_le h.length_le, hsub.nodup h.nodup, fun hfalse => ?_⟩,
        by rintro _ _ ⟨⟩, ?_, ⟨_, hsub, .inl rfl⟩, ?_, by rintro ⟨⟩⟩
      · cases hcur.symm.trans hfalse
      · cases hpage.symm.trans hfalse
      · rintro _ _ ⟨⟩ -
        simp [currentItem, hpage, hcur, load, hitem, pure, Except.pure]
      · rintro _ ⟨⟩
        exact removed_iff hperm h.nodup
    · refine ⟨_, _, rfl, { h with index_lt := fun _ => (List.getElem?_eq_some_iff.mp hget).1 },
        by rintro _ _ ⟨⟩, ?_, ⟨_, List.Sublist.refl _, .inl rfl⟩, ?_, by rintro ⟨⟩⟩
      · rintro _ _ ⟨⟩ -
        simp [currentItem, hpage, hcur, load, hget, pure, Except.pure]
      · rintro _ ⟨⟩
        exact removed_iff (List.Perm.refl _) h.nodup
  · rw [idxOf?_eq_none_iff.mpr hmem]
    refine ⟨none, list, rfl, h, .refl (by rintro _ _ ⟨⟩) ?_⟩
    rintro _ _ ⟨⟩
    exact hmem

theorem Valid.apply (h : list.Valid) (hfresh : list.Fresh call) :
    (∃ change after, list.apply call = .ok (change, after) ∧ after.Valid ∧
      Behaves list call change after) ∨ call = .removeAllItems ∧ list.hasPage = false := by
  cases call with
  | addItem item keep => exact .inl (h.addItem hfresh keep)
  | goToItem item keep => exact .inl (h.goToItem item keep)
  | clear => exact .inl h.clear
  | removeAllItems =>
    cases hpage : list.hasPage with
    | false => exact .inr ⟨rfl, rfl⟩
    | true =>
      refine .inl ⟨some ⟨none, list.entries⟩, _, if_pos hpage, .empty _ _, nofun, nofun,
        ⟨[], nil_sublist _, .inl rfl⟩, ?_, nofun⟩
      rintro _ ⟨⟩
      exact removed_iff (by rw [append_nil]) h.nodup
  | pageClosed =>
    exact .inl ⟨none, list.pageClosed, rfl, .empty _ _, nofun, nofun,
      ⟨[], nil_sublist _, .inl rfl⟩, nofun, fun _ => .inl rfl⟩

theorem valid_of_run (hrun : Run Step (create Item capacity) calls list) : list.Valid := by
  refine hrun.preserves (I := Valid) ?_ (.empty _ _)
  rintro list call after h ⟨hfresh, change, happly⟩
  rcases h.apply hfresh with ⟨change', after', heq, hvalid, -⟩ | ⟨rfl, hpage⟩
  · cases heq.symm.trans happly
    exact hvalid
  · rw [WebBackForwardList.apply, removeAllItems, hpage] at happly
    cases happly

end Runs

/-! ## The state for a session -/

section State

/-- `BackForwardListState`, with an unsigned index. -/
structure BackForwardListState (ItemState : Type*) where
  items : List ItemState
  currentIndex : Option ℕ

def isRejected (filter : Option (Item → Bool)) (entry : Item) : Bool :=
  filter.any fun filter => !filter entry

/-- The loop of `backForwardListState` from the entry `i` on. -/
def stateFrom (itemState : Item → ItemState) (filter : Option (Item → Bool)) :
    ℕ → List Item → BackForwardListState ItemState → BackForwardListState ItemState
  | _, [], state => state
  | i, entry :: entries, state =>
    if isRejected filter entry then
      stateFrom itemState filter (i + 1) entries
        { state with currentIndex := state.currentIndex.map fun index =>
            if i ≤ index then (index + (2 ^ 32 - 1)) % 2 ^ 32 else index }
    else
      stateFrom itemState filter (i + 1) entries
        { state with items := state.items ++ [itemState entry] }

def backForwardListState (list : WebBackForwardList Item) (itemState : Item → ItemState)
    (filter : Option (Item → Bool)) : BackForwardListState ItemState :=
  stateFrom itemState filter 0 list.entries
    ⟨[], if list.hasCurrentIndex then some list.currentIndex else none⟩

/-- `make` creates the item of a state, with the identifier that is generated for it. -/
def restoreFromState (list : WebBackForwardList Item) (make : ℕ → ItemState → Item)
    (state : BackForwardListState ItemState) : WebBackForwardList Item :=
  { list with
    entries := state.items.mapIdx make
    hasCurrentIndex := state.currentIndex.isSome
    currentIndex := state.currentIndex.getD 0 }

def accepted (filter : Option (Item → Bool)) (entries : List Item) : List Item :=
  entries.filter fun entry => !isRejected filter entry

/-- The state has the accepted entries and the current one among them, and can be restored. -/
structure SavesState (list : WebBackForwardList Item) (itemState : Item → ItemState)
    (filter : Option (Item → Bool)) : Prop where
  items : (list.backForwardListState itemState filter).items =
    (accepted filter list.entries).map itemState
  current : ∀ entry, list.entries[list.currentIndex]? = some entry → isRejected filter entry = false →
    (list.backForwardListState itemState filter).currentIndex =
      some (accepted filter (list.entries.take list.currentIndex)).length
  inBounds : ∀ index, (list.backForwardListState itemState filter).currentIndex = some index →
    index < (list.backForwardListState itemState filter).items.length
  restored : ∀ (other : WebBackForwardList Item) (make : ℕ → ItemState → Item),
    ∃ item, (other.restoreFromState make (list.backForwardListState itemState filter)).currentItem =
      .ok item

/-- How many of the rejected entries come too late to move the index of the current one: `n` is
the position of an entry and the number of rejected entries before it. -/
def late (filter : Option (Item → Bool)) (currentIndex : ℕ) : ℕ → List Item → ℕ
  | _, [] => 0
  | n, entry :: entries =>
    if isRejected filter entry then
      (if currentIndex < n then 1 else 0) + late filter currentIndex (n + 2) entries
    else late filter currentIndex (n + 1) entries

variable {list : WebBackForwardList Item} {itemState : Item → ItemState}
  {filter : Option (Item → Bool)} {entries rest : List Item} {i index k n : ℕ}
  {items : List ItemState}

theorem items_stateFrom {current : Option ℕ} :
    (stateFrom itemState filter i entries ⟨items, current⟩).items =
      items ++ (accepted filter entries).map itemState := by
  induction entries generalizing i items current with
  | nil => simp [stateFrom, accepted]
  | cons entry entries ih =>
    rw [stateFrom]
    cases h : isRejected filter entry <;> simp [ih, accepted, h]

theorem currentIndex_stateFrom_of_lt (h : index < i) :
    (stateFrom itemState filter i entries ⟨items, some index⟩).currentIndex = some index := by
  induction entries generalizing i items with
  | nil => rfl
  | cons entry entries ih =>
    rw [stateFrom]
    split
    · simp only [map_some, if_neg (Nat.not_le.mpr h)]
      exact ih (Nat.lt_succ_of_lt h)
    · exact ih (Nat.lt_succ_of_lt h)

/-- The rejected entries up to the current one move the index down, but for the late ones. -/
theorem currentIndex_stateFrom (hi : i + entries.length = k + 1) (hin : i ≤ n)
    (hmoves : n ≤ k → i ≤ index ∧ n + index = i + k) (hstays : k < n → index < i)
    (hpos : 0 < i ∨ 0 < index) (hindex : index < 2 ^ 32) :
    ∃ final, (stateFrom itemState filter i (entries ++ rest) ⟨items, some index⟩).currentIndex =
        some final ∧
      final + entries.countP (isRejected filter) = index + late filter k n entries := by
  induction entries generalizing i n index items with
  | nil =>
    rw [length_nil] at hi
    exact ⟨index, currentIndex_stateFrom_of_lt (hstays (by omega)), rfl⟩
  | cons entry entries ih =>
    rw [length_cons] at hi
    rw [cons_append, stateFrom, late]
    cases h : isRejected filter entry with
    | true =>
      rw [countP_cons_of_pos h, if_pos rfl, if_pos rfl]
      dsimp only [map_some]
      by_cases hn : n ≤ k
      · obtain ⟨hle, hsum⟩ := hmoves hn
        have hwrap : (index + (2 ^ 32 - 1)) % 2 ^ 32 = index - 1 := by omega
        rw [if_pos hle, hwrap, if_neg (by omega)]
        obtain ⟨final, heq, hcount⟩ := @ih (i + 1) (index - 1) (n + 2) items (by omega) (by omega)
          (by omega) (by omega) (by omega) (by omega)
        exact ⟨final, heq, by omega⟩
      · rw [if_neg (by omega), if_pos (by omega)]
        obtain ⟨final, heq, hcount⟩ := @ih (i + 1) index (n + 2) items (by omega) (by omega)
          (by omega) (by omega) (by omega) hindex
        exact ⟨final, heq, by omega⟩
    | false =>
      have hpos' : ¬ isRejected filter entry = true := by rw [h]; nofun
      rw [countP_cons_of_neg hpos', if_neg nofun, if_neg nofun]
      exact ih (by omega) (by omega) (by omega) (by omega) (by omega) hindex

theorem currentIndex_stateFrom_of_wrapped (h : entries.length ≤ index) (hindex : index < 2 ^ 32) :
    ∃ final, (stateFrom itemState filter i entries ⟨items, some index⟩).currentIndex = some final ∧
      index ≤ final + entries.countP (isRejected filter) := by
  induction entries generalizing i index items with
  | nil => exact ⟨index, rfl, Nat.le_refl _⟩
  | cons entry entries ih =>
    rw [length_cons] at h
    rw [stateFrom]
    cases hrejected : isRejected filter entry with
    | true =>
      rw [countP_cons_of_pos hrejected, if_pos rfl]
      dsimp only [map_some]
      have hwrap : (index + (2 ^ 32 - 1)) % 2 ^ 32 = index - 1 := by omega
      split
      · rw [hwrap]
        obtain ⟨final, heq, hle⟩ := @ih (i + 1) (index - 1) items (by omega) (by omega)
        exact ⟨final, heq, by omega⟩
      · obtain ⟨final, heq, hle⟩ := @ih (i + 1) index items (by omega) hindex
        exact ⟨final, heq, by omega⟩
    | false =>
      have hpos : ¬ isRejected filter entry = true := by rw [hrejected]; nofun
      rw [countP_cons_of_neg hpos, if_neg nofun]
      exact ih (by omega) hindex

theorem length_accepted_add (filter : Option (Item → Bool)) (entries : List Item) :
    (accepted filter entries).length + entries.countP (isRejected filter) = entries.length := by
  rw [accepted, ← countP_eq_length_filter, length_eq_countP_add_countP (isRejected filter),
    Nat.add_comm]
  simp

theorem exists_currentIndex {front back : List Item} {entry : Item}
    (h : front ≠ [] ∨ isRejected filter entry = false) (hlen : front.length < 2 ^ 32) :
    ∃ final, (stateFrom itemState filter 0 (front ++ entry :: back)
        ⟨items, some front.length⟩).currentIndex = some final ∧
      final + (front ++ [entry]).countP (isRejected filter) =
        front.length + late filter front.length 0 (front ++ [entry]) := by
  cases front with
  | nil =>
    have hentry := h.resolve_left fun hne => hne rfl
    refine ⟨0, ?_, by simp [late, hentry]⟩
    rw [nil_append, stateFrom, hentry, if_neg nofun]
    exact currentIndex_stateFrom_of_lt Nat.one_pos
  | cons first front =>
    have hsplit : first :: front ++ entry :: back = (first :: front ++ [entry]) ++ back := by simp
    rw [hsplit]
    refine currentIndex_stateFrom (by simp) (Nat.le_refl 0) (fun _ => ?_) nofun (.inr ?_) hlen
    · exact ⟨Nat.zero_le _, rfl⟩
    · exact Nat.zero_lt_succ _

/-- The state is right exactly when no rejected entry is late, or, if the current one is rejected
itself, when it is not the first one and no more are late than there are accepted ones behind
it. -/
theorem saves_state_iff (hcurrent : list.hasCurrentIndex = true)
    (hlt : list.currentIndex < list.entries.length) (hlength : list.entries.length < 2 ^ 32)
    (itemState : Item → ItemState) (filter : Option (Item → Bool)) :
    list.SavesState itemState filter ↔ ∃ entry, list.entries[list.currentIndex]? = some entry ∧
      (isRejected filter entry = false ∧
          late filter list.currentIndex 0 (list.entries.take (list.currentIndex + 1)) = 0 ∨
        isRejected filter entry = true ∧ list.currentIndex ≠ 0 ∧
          late filter list.currentIndex 0 (list.entries.take (list.currentIndex + 1)) ≤
            (accepted filter (list.entries.drop (list.currentIndex + 1))).length) := by
  obtain ⟨front, entry, back, hentries, hfront⟩ : ∃ front entry back,
      list.entries = front ++ entry :: back ∧ front.length = list.currentIndex :=
    ⟨_, _, _, (take_append_drop list.currentIndex _).symm.trans
      (by rw [drop_eq_getElem_cons hlt]), length_take_of_le (Nat.le_of_lt hlt)⟩
  have hget : list.entries[list.currentIndex]? = some entry := by
    rw [hentries, ← hfront, getElem?_append_right (Nat.le_refl _), Nat.sub_self]
    rfl
  have htake : list.entries.take list.currentIndex = front := by
    rw [hentries, ← hfront, take_left]
  have htake' : list.entries.take (list.currentIndex + 1) = front ++ [entry] := by
    rw [hentries, ← hfront, take_append, take_of_length_le (Nat.le_succ _)]
    simp
  have hdrop : list.entries.drop (list.currentIndex + 1) = back := by
    rw [hentries, ← hfront, ← drop_drop, drop_left]
    rfl
  have hitems : (list.backForwardListState itemState filter).items =
      (accepted filter list.entries).map itemState := items_stateFrom
  have hbounds : (list.backForwardListState itemState filter).items.length =
      (accepted filter (front ++ [entry])).length + (accepted filter back).length := by
    rw [hitems, hentries, length_map, ← length_append, accepted, accepted, accepted,
      ← filter_append, append_assoc, singleton_append]
  have hrejected := length_accepted_add filter (front ++ [entry])
  have hback := length_accepted_add filter back
  rw [length_append, length_singleton] at hrejected
  rw [hentries, length_append, length_cons] at hlength
  -- the state is right when its index is
  have hsaves {final : ℕ} (hfinal : (list.backForwardListState itemState filter).currentIndex =
      some final) : list.SavesState itemState filter ↔
        (isRejected filter entry = false → final = (accepted filter front).length) ∧
        final < (list.backForwardListState itemState filter).items.length := by
    constructor
    · intro h
      refine ⟨fun haccepted => ?_, h.inBounds final hfinal⟩
      have heq := h.current entry hget haccepted
      rw [hfinal, htake] at heq
      exact some.inj heq
    · rintro ⟨heq, hin⟩
      refine ⟨hitems, fun entry' hget' haccepted => ?_, fun index hindex => ?_, fun other make => ?_⟩
      · cases hget.symm.trans hget'
        rw [hfinal, htake, heq haccepted]
      · cases hfinal.symm.trans hindex
        exact hin
      · unfold currentItem restoreFromState
        rw [hfinal]
        cases other.hasPage with
        | false => exact ⟨none, rfl⟩
        | true => exact ⟨_, by
            simp only [isSome_some, Bool.and_self, if_true, getD_some]
            rw [WTF.load_eq (by rwa [length_mapIdx])]
            rfl⟩
  have hstate : list.backForwardListState itemState filter =
      stateFrom itemState filter 0 (front ++ entry :: back) ⟨[], some front.length⟩ := by
    rw [backForwardListState, hcurrent, hentries, hfront]
    rfl
  simp only [hget, some.injEq, exists_eq_left', htake', hdrop]
  by_cases hwraps : front = [] ∧ isRejected filter entry = true
  · obtain ⟨rfl, hentry⟩ := hwraps
    have hzero : list.currentIndex = 0 := hfront.symm
    obtain ⟨final, heq, hle⟩ := @currentIndex_stateFrom_of_wrapped Item ItemState itemState filter
      back 1 (2 ^ 32 - 1) [] (by omega) (by omega)
    have hfinal : (list.backForwardListState itemState filter).currentIndex = some final := by
      rw [hstate, nil_append, stateFrom, hentry, if_pos rfl]
      simpa using heq
    have hcount : [entry].countP (isRejected filter) = 1 := by simp [hentry]
    rw [nil_append, hcount, length_nil] at hrejected
    rw [nil_append] at hbounds
    rw [hsaves hfinal, hbounds]
    simp only [hentry, hzero, ne_eq, not_true_eq_false, false_and, and_false, or_false,
      Bool.true_eq_false, false_implies, true_and, iff_false, Nat.not_lt]
    omega
  · obtain ⟨final, heq, hcount⟩ := @exists_currentIndex Item ItemState itemState filter [] front back
      entry (by
        rw [not_and_or, Bool.not_eq_true] at hwraps
        exact hwraps) (by omega)
    have hfinal : (list.backForwardListState itemState filter).currentIndex = some final := by
      rw [hstate, heq]
    have hbefore := length_accepted_add filter front
    rw [countP_append] at hcount hrejected
    rw [hsaves hfinal, hbounds, ← hfront]
    cases hentry : isRejected filter entry with
    | false =>
      have hzero : [entry].countP (isRejected filter) = 0 := by simp [hentry]
      simp only [Bool.false_eq_true, false_and, or_false, true_and, forall_const]
      omega
    | true =>
      have hone : [entry].countP (isRejected filter) = 1 := by simp [hentry]
      have hne : front.length ≠ 0 := fun hnil => hwraps ⟨length_eq_zero_iff.mp hnil, hentry⟩
      simp only [Bool.true_eq_false, false_and, false_or, true_and, false_implies]
      omega

theorem saves_state_iff_rejected :
    (⟨true, [1, 2, 3], true, 1, 100⟩ : WebBackForwardList ℕ).SavesState id (some (· ≠ 1)) :=
  (saves_state_iff rfl (by decide) (by decide) id _).mpr ⟨2, rfl, .inl ⟨by decide, by decide⟩⟩

/-- Of four entries the first three are rejected, and the index of the last one moves to 1. -/
theorem not_saves_state : ¬ ∀ (list : WebBackForwardList ℕ) (filter : Option (ℕ → Bool)),
    list.hasCurrentIndex = true → list.currentIndex < list.entries.length →
    list.entries.length < 2 ^ 32 → list.SavesState id filter := by
  intro h
  have hindex := (h ⟨true, [1, 2, 3, 4], true, 3, 100⟩ (some (· = 4)) rfl (by decide)
    (by decide)).inBounds 1 (by decide)
  exact absurd hindex (by decide)

end State

end WebBackForwardList

end WebKit.UIProcess
