import Mathlib
import WebKit.Transition.Run

/-!
# The index cache of a collection

The model of `CollectionIndexCache` of `dom/CollectionIndexCache.h`: a cursor, the number of nodes
and the list of nodes, each of which may be known or not. A lookup that runs off the end takes the
number of nodes from the place of the cursor. In a collection without nodes the cursor is at no
place, and a lookup of any index but 0 counts one node (`lookups_behave`).
-/

open List

namespace WebKit.DOM

open Transition Option

/-- A collection whose traversal functions step through a list; unsigned numbers count its nodes.
An iterator is a place in the list, `none` its end. -/
structure Collection (Node : Type) where
  nodes : List Node
  collectionCanTraverseBackward : Bool
  length_lt : nodes.length < 2 ^ 32

structure CollectionIndexCache (Node : Type) where
  current : Option ℕ
  currentIndex : ℕ
  nodeCount : ℕ
  cachedList : List Node
  nodeCountValid : Bool
  listValid : Bool
  /-- `willValidateIndexCache` has been called since the last invalidation. -/
  willValidate : Bool

variable {Node : Type}

namespace CollectionIndexCache

def empty : CollectionIndexCache Node := ⟨none, 0, 0, [], false, false, false⟩

def hasValidCache (cache : CollectionIndexCache Node) : Bool :=
  cache.current.isSome || cache.nodeCountValid || cache.listValid

def willValidateIndexCache (cache : CollectionIndexCache Node) : CollectionIndexCache Node :=
  if cache.hasValidCache then cache else { cache with willValidate := true }

def invalidate (cache : CollectionIndexCache Node) : CollectionIndexCache Node :=
  { cache with
    current := none
    nodeCountValid := false
    listValid := false
    cachedList := []
    willValidate := false }

end CollectionIndexCache

namespace Collection

variable (c : Collection Node) (cache : CollectionIndexCache Node) (index : ℕ)

def collectionBegin : Option ℕ := if c.nodes.length = 0 then none else some 0

def collectionLast : Option ℕ := if c.nodes.length = 0 then none else some (c.nodes.length - 1)

/-- Past the end, the steps before it are reported. -/
def collectionTraverseForward (place count : ℕ) : Option ℕ × ℕ :=
  if place + count < c.nodes.length then (some (place + count), count)
  else (none, c.nodes.length - 1 - place)

def collectionTraverseBackward (place count : ℕ) : Option ℕ :=
  if count ≤ place then some (place - count) else none

/-- The loop of `computeNodeCountUpdatingListCache`. -/
def appendNodes (place : ℕ) (list : List Node) : List Node :=
  if h : place < c.nodes.length then
    if (c.collectionTraverseForward place 1).1 = none then list ++ [c.nodes[place]]
    else appendNodes (place + 1) (list ++ [c.nodes[place]])
  else list
termination_by c.nodes.length - place

def computeNodeCountUpdatingListCache : ℕ × CollectionIndexCache Node :=
  match c.collectionBegin with
  | none => (0, cache)
  | some first =>
    let cachedList := c.appendNodes first cache.cachedList
    (cachedList.length, { cache with cachedList := cachedList, listValid := true })

def nodeCount : ℕ × CollectionIndexCache Node :=
  if cache.nodeCountValid then (cache.nodeCount, cache)
  else
    let (nodeCount, cache) := c.computeNodeCountUpdatingListCache cache.willValidateIndexCache
    (nodeCount, { cache with nodeCount := nodeCount, nodeCountValid := true })

/-!
The lookups give the node or null, and `none` where they would read at the end or behind the list.
-/

/-- `return &*m_current`. -/
def returnCurrent : Option (Option Node × CollectionIndexCache Node) := do
  let node ← c.nodes[← cache.current]?
  return (some node, cache)

/-- The number of nodes follows from how far the cursor got. -/
def returnFound (nodeCount : ℕ) : Option (Option Node × CollectionIndexCache Node) :=
  if cache.current = none then
    some (none, { cache with nodeCount := nodeCount, nodeCountValid := true })
  else c.returnCurrent cache

/-- The cursor goes to the first node and from there to the index. -/
def traverseFromFirst : CollectionIndexCache Node :=
  match c.collectionBegin with
  | none => { cache with current := none, currentIndex := 0 }
  | some first =>
    if index = 0 then { cache with current := some first, currentIndex := 0 }
    else
      let (current, traversedCount) := c.collectionTraverseForward first index
      { cache with current := current, currentIndex := traversedCount }

def traverseFromLast : Option (Option Node × CollectionIndexCache Node) := do
  let last ← c.collectionLast
  let current :=
    if index < cache.nodeCount - 1 then
      collectionTraverseBackward last (cache.nodeCount - index - 1)
    else some last
  c.returnCurrent { cache with current := current, currentIndex := index }

def traverseBackwardTo : Option (Option Node × CollectionIndexCache Node) := do
  if index < cache.currentIndex - index ∨ c.collectionCanTraverseBackward = false then
    c.returnCurrent (c.traverseFromFirst cache index)
  else
    let current := collectionTraverseBackward (← cache.current) (cache.currentIndex - index)
    c.returnCurrent { cache with current := current, currentIndex := index }

def traverseForwardTo : Option (Option Node × CollectionIndexCache Node) := do
  if (cache.nodeCountValid = true ∧ cache.nodeCount - index < index - cache.currentIndex) ∧
      c.collectionCanTraverseBackward = true then
    c.traverseFromLast cache index
  else
    let cache := cache.willValidateIndexCache
    let (current, traversedCount) :=
      c.collectionTraverseForward (← cache.current) (index - cache.currentIndex)
    let currentIndex := cache.currentIndex + traversedCount
    c.returnFound { cache with current := current, currentIndex := currentIndex } (currentIndex + 1)

def nodeAt : Option (Option Node × CollectionIndexCache Node) := do
  if cache.nodeCountValid = true ∧ cache.nodeCount ≤ index then some (none, cache)
  else if cache.listValid = true then some (some (← cache.cachedList[index]?), cache)
  else if cache.current ≠ none then
    if cache.currentIndex < index then c.traverseForwardTo cache index
    else if index < cache.currentIndex then c.traverseBackwardTo cache index
    else c.returnCurrent cache
  else if (cache.nodeCountValid = true ∧ cache.nodeCount - index < index) ∧
      c.collectionCanTraverseBackward = true then
    c.traverseFromLast cache index
  else
    let cache := c.traverseFromFirst cache.willValidateIndexCache index
    c.returnFound cache (if index = 0 then 0 else cache.currentIndex + 1)

/-! ## What is kept -/

/-- Whatever the cache knows is right, and it was announced before the cache got valid. -/
structure Kept : Prop where
  place : ∀ place, cache.current = some place →
    place = cache.currentIndex ∧ place < c.nodes.length
  count : cache.nodeCountValid = true → cache.nodeCount = c.nodes.length
  list : cache.listValid = true → cache.cachedList = c.nodes ∧ cache.nodeCountValid = true
  unknown : cache.nodeCountValid = false → cache.cachedList = []
  announced : cache.hasValidCache = true → cache.willValidate = true

/-- The lookup gives the node at the index, and what is kept stays so under a condition. -/
def Gives (fits : Prop) (result : Option (Option Node × CollectionIndexCache Node)) : Prop :=
  ∃ after, result = some (c.nodes[index]?, after) ∧ (fits → c.Kept after)

section

variable {c cache index} {fits : Prop}

theorem appendNodes_eq (place : ℕ) (list : List Node) :
    c.appendNodes place list = list ++ c.nodes.drop place := by
  fun_induction c.appendNodes place list with
  | case1 place list hlt hend =>
    have hle : c.nodes.length ≤ place + 1 := by
      simp only [collectionTraverseForward] at hend
      split at hend
      · cases hend
      · omega
    rw [drop_eq_getElem_cons hlt, drop_eq_nil_of_le hle]
  | case2 place list hlt _ ih => rw [ih, drop_eq_getElem_cons hlt, append_assoc]; rfl
  | case3 place list hge => rw [drop_eq_nil_of_le (Nat.le_of_not_lt hge), append_nil]

theorem Kept.willValidateIndexCache (h : c.Kept cache) :
    c.Kept cache.willValidateIndexCache ∧ cache.willValidateIndexCache.willValidate = true := by
  unfold CollectionIndexCache.willValidateIndexCache
  split
  · next hvalid => exact ⟨h, h.announced hvalid⟩
  · exact ⟨⟨h.place, h.count, h.list, h.unknown, fun _ => rfl⟩, rfl⟩

theorem willValidateIndexCache_of_current (h : cache.current ≠ none) :
    cache.willValidateIndexCache = cache := by
  refine if_pos ?_
  rw [CollectionIndexCache.hasValidCache, isSome_iff_ne_none.mpr h]
  rfl

theorem returnFound_gives (hannounced : cache.willValidate = true)
    (hle : c.nodes.length ≤ index) {currentIndex nodeCount : ℕ}
    (hcount : fits → nodeCount = c.nodes.length) (hlist : cache.listValid = false) :
    c.Gives index fits (c.returnFound
      { cache with current := none, currentIndex := currentIndex } nodeCount) := by
  refine ⟨{ cache with current := none, currentIndex, nodeCount, nodeCountValid := true }, ?_,
    fun hfits => ⟨nofun, fun _ => hcount hfits, ?_, nofun, fun _ => hannounced⟩⟩
  · rw [getElem?_eq_none hle]
    rfl
  · exact fun hvalid => nomatch hlist.symm.trans hvalid

section

variable (h : c.Kept cache) (hannounced : cache.willValidate = true)
include h hannounced

theorem Kept.returnCurrent (hlt : index < c.nodes.length) : c.Gives index fits
    (c.returnCurrent { cache with current := some index, currentIndex := index }) := by
  refine ⟨{ cache with current := some index, currentIndex := index }, ?_,
    fun _ => ⟨?_, h.count, h.list, h.unknown, fun _ => hannounced⟩⟩
  · simp [Collection.returnCurrent, getElem?_eq_getElem hlt]
  · intro place hplace
    cases hplace
    exact ⟨rfl, hlt⟩

theorem Kept.traverseFromLast (hvalid : cache.nodeCountValid = true)
    (hlt : index < c.nodes.length) : c.Gives index fits (c.traverseFromLast cache index) := by
  have hlast : c.collectionLast = some (c.nodes.length - 1) := if_neg (by omega)
  have hcur : (if index < cache.nodeCount - 1 then
      collectionTraverseBackward (c.nodes.length - 1) (cache.nodeCount - index - 1)
      else some (c.nodes.length - 1)) = some index := by
    rw [h.count hvalid, collectionTraverseBackward]
    split_ifs <;> first | omega | congr 1; omega
  simp only [Collection.traverseFromLast, hlast, bind_eq_bind, bind_some, hcur]
  exact h.returnCurrent hannounced hlt

end

theorem traverseFromFirst_of_lt (hlt : index < c.nodes.length) : c.traverseFromFirst cache index =
      { cache with current := some index, currentIndex := index } := by
  have hbegin : c.collectionBegin = some 0 := if_neg (by omega)
  simp only [traverseFromFirst, hbegin, collectionTraverseForward, Nat.zero_add, if_pos hlt]
  split
  · next hzero => rw [hzero]
  · rfl

theorem traverseFromFirst_of_le (hle : c.nodes.length ≤ index) : c.traverseFromFirst cache index =
      { cache with current := none, currentIndex := c.nodes.length - 1 } := by
  by_cases hnil : c.nodes.length = 0
  · simp [traverseFromFirst, collectionBegin, hnil]
  · have hzero : index ≠ 0 := by omega
    simp [traverseFromFirst, collectionBegin, hnil, hzero, collectionTraverseForward,
      Nat.not_lt.mpr hle]

theorem Kept.traverseBackwardTo (h : c.Kept cache) {place : ℕ} (hplace : cache.current = some place)
    (hlt : index < cache.currentIndex) : c.Gives index fits (c.traverseBackwardTo cache index) := by
  obtain ⟨heq, hplaceLt⟩ := h.place place hplace
  have hannounced := h.announced (by simp [CollectionIndexCache.hasValidCache, hplace])
  unfold Collection.traverseBackwardTo
  split
  · rw [traverseFromFirst_of_lt (by omega)]
    exact h.returnCurrent hannounced (by omega)
  · have hback : collectionTraverseBackward place (cache.currentIndex - index) = some index := by
      rw [collectionTraverseBackward, if_pos (by omega)]
      congr 1
      omega
    simp only [hplace, bind_eq_bind, bind_some, hback]
    exact h.returnCurrent hannounced (by omega)

theorem Kept.traverseForwardTo (h : c.Kept cache) {place : ℕ} (hplace : cache.current = some place)
    (hlist : cache.listValid = false) (hlt : cache.currentIndex < index)
    (hcount : cache.nodeCountValid = true → index < c.nodes.length) :
    c.Gives index fits (c.traverseForwardTo cache index) := by
  obtain ⟨heq, hplaceLt⟩ := h.place place hplace
  have hannounced := h.announced (by simp [CollectionIndexCache.hasValidCache, hplace])
  unfold Collection.traverseForwardTo
  split
  · next hlast => exact h.traverseFromLast hannounced hlast.1.1 (hcount hlast.1.1)
  · rw [willValidateIndexCache_of_current (by simp [hplace])]
    simp only [hplace, bind_eq_bind, bind_some, collectionTraverseForward]
    by_cases hindex : index < c.nodes.length
    · rw [if_pos (by omega)]
      rw [show place + (index - cache.currentIndex) = index by omega,
        show cache.currentIndex + (index - cache.currentIndex) = index by omega]
      exact h.returnCurrent hannounced hindex
    · rw [if_neg (by omega)]
      exact returnFound_gives hannounced (by omega) (fun _ => by omega) hlist

end

/-! ## Runs -/

inductive Operation
  | nodeCount
  | nodeAt (index : ℕ)
  | invalidate

inductive Step : CollectionIndexCache Node → Operation → CollectionIndexCache Node → Prop
  | nodeCount (cache : CollectionIndexCache Node) : Step cache .nodeCount (c.nodeCount cache).2
  | nodeAt {cache after : CollectionIndexCache Node} {index : ℕ} {node : Option Node} :
      c.nodeAt cache index = some (node, after) → Step cache (.nodeAt index) after
  | invalidate (cache : CollectionIndexCache Node) : Step cache .invalidate cache.invalidate

/-- In a collection without nodes no index but 0 is looked up, unless the number of nodes is
known. -/
def Fits : Operation → Prop
  | .nodeAt index => c.nodes ≠ [] ∨ index = 0 ∨ cache.nodeCountValid = true
  | _ => True

/-- The count is that of the nodes, a lookup gives the node at the index, if there is one, and the
cache has been announced if it is valid. -/
structure Behaves : Prop where
  count : (c.nodeCount cache).1 = c.nodes.length
  lookup : ∀ index, ∃ after, c.nodeAt cache index = some (c.nodes[index]?, after)
  announced : cache.hasValidCache = true → cache.willValidate = true

section

variable {c cache}

theorem Kept.nodeAt (h : c.Kept cache) (index : ℕ) :
    c.Gives index (c.Fits cache (.nodeAt index)) (c.nodeAt cache index) := by
  have hcount : ¬ (cache.nodeCountValid = true ∧ cache.nodeCount ≤ index) →
      cache.nodeCountValid = true → index < c.nodes.length := by
    intro hnot hvalid
    have := h.count hvalid
    by_contra hge
    exact hnot ⟨hvalid, by omega⟩
  unfold Collection.nodeAt
  split
  · next hknown =>
    have hlen := h.count hknown.1
    exact ⟨cache, by rw [getElem?_eq_none (by omega)], fun _ => h⟩
  next hnot =>
  split
  · next hlist =>
    obtain ⟨heq, hvalid⟩ := h.list hlist
    refine ⟨cache, ?_, fun _ => h⟩
    rw [heq, getElem?_eq_getElem (hcount hnot hvalid)]
    rfl
  next hlist =>
  rw [Bool.not_eq_true] at hlist
  split
  · next hcur =>
    obtain ⟨place, hplace⟩ := ne_none_iff_exists'.mp hcur
    obtain ⟨heq, hlt⟩ := h.place place hplace
    have hannounced := h.announced (by simp [CollectionIndexCache.hasValidCache, hplace])
    split_ifs with hfwd hbackward
    · exact h.traverseForwardTo hplace hlist hfwd (hcount hnot)
    · exact h.traverseBackwardTo hplace hbackward
    · obtain rfl : place = index := by omega
      have hsame : cache = { cache with current := some place, currentIndex := place } := by
        conv_rhs => rw [← hplace, heq]
      rw [hsame]
      exact h.returnCurrent hannounced hlt
  · split
    · next hlast =>
      have hannounced := h.announced (by simp [CollectionIndexCache.hasValidCache, hlast.1.1])
      exact h.traverseFromLast hannounced hlast.1.1 (hcount hnot hlast.1.1)
    · obtain ⟨h', hannounced⟩ := h.willValidateIndexCache
      by_cases hlt : index < c.nodes.length
      · rw [traverseFromFirst_of_lt hlt]
        exact h'.returnCurrent hannounced hlt
      · rw [traverseFromFirst_of_le (by omega)]
        refine returnFound_gives hannounced (by omega) (fun hfits => ?_) ?_
        · rcases hfits with hnodes | rfl | hvalid
          · have hpos := length_pos_of_ne_nil hnodes
            rw [if_neg (by omega)]
            dsimp only
            omega
          · rw [if_pos rfl]
            omega
          · exact absurd (hcount hnot hvalid) hlt
        · rw [CollectionIndexCache.willValidateIndexCache]
          split <;> exact hlist

theorem Kept.nodeCount (h : c.Kept cache) :
    (c.nodeCount cache).1 = c.nodes.length ∧ c.Kept (c.nodeCount cache).2 := by
  unfold Collection.nodeCount
  split
  · next hvalid => exact ⟨h.count hvalid, h⟩
  · next hinvalid =>
    obtain ⟨h', hannounced⟩ := h.willValidateIndexCache
    rw [Bool.not_eq_true] at hinvalid
    have hlist := h'.unknown (by
      rw [CollectionIndexCache.willValidateIndexCache]
      split <;> exact hinvalid)
    unfold computeNodeCountUpdatingListCache collectionBegin
    by_cases hnil : c.nodes.length = 0
    · rw [if_pos hnil]
      exact ⟨hnil.symm, h'.place, fun _ => hnil.symm, fun hvalid => ⟨(h'.list hvalid).1, rfl⟩,
        nofun, fun _ => hannounced⟩
    · simp only [if_neg hnil, appendNodes_eq, hlist]
      exact ⟨rfl, h'.place, fun _ => rfl, fun _ => ⟨rfl, rfl⟩, nofun, fun _ => hannounced⟩

theorem Kept.step {after : CollectionIndexCache Node} {operation : Operation} (h : c.Kept cache)
    (hfits : c.Fits cache operation) (hstep : c.Step cache operation after) : c.Kept after := by
  cases hstep with
  | nodeCount => exact h.nodeCount.2
  | @nodeAt _ index node hnodeAt =>
    obtain ⟨_, heq, hkept⟩ := h.nodeAt index
    cases heq.symm.trans hnodeAt
    exact hkept hfits
  | invalidate => exact ⟨nofun, nofun, nofun, fun _ => rfl, nofun⟩

/-- The cache behaves as long as no index but 0 is looked up in a collection without nodes. -/
theorem lookups_behave {operations : List Operation}
    (hrun : Run (guarded c.Step c.Fits) .empty operations cache) : c.Behaves cache := by
  have h : c.Kept cache := hrun.preserves (I := c.Kept)
    (fun _ _ _ h hstep => h.step hstep.1 hstep.2) ⟨nofun, nofun, nofun, fun _ => rfl, nofun⟩
  refine ⟨h.nodeCount.1, fun index => ?_, h.announced⟩
  obtain ⟨after, heq, -⟩ := h.nodeAt index
  exact ⟨after, heq⟩

end

/-- The theorem after a lookup behind the end of two nodes. -/
theorem lookups_behave_two : ∃ cache, cache.nodeCount = 2 ∧
    (Collection.nodeCount ⟨[5, 6], true, by decide⟩ cache).1 = 2 :=
  have hrun : Run (guarded (Step ⟨[5, 6], true, by decide⟩) (Fits ⟨[5, 6], true, by decide⟩)) .empty
      [.nodeAt 7] _ := .cons ⟨.inl (by decide), .nodeAt rfl⟩ (.nil _)
  ⟨_, rfl, (lookups_behave hrun).count⟩

/-- The second index of no nodes is looked up, and one node is counted. -/
theorem not_lookups_behave : ¬ ∀ (c : Collection ℕ) (operations : List Operation)
    (cache : CollectionIndexCache ℕ), Run c.Step .empty operations cache → c.Behaves cache := by
  intro hall
  have hrun : Run (Step (⟨[], true, by decide⟩ : Collection ℕ)) .empty [.nodeAt 1] _ :=
    .cons (.nodeAt rfl) (.nil _)
  exact absurd (hall _ _ _ hrun).count (by decide)

end Collection

end WebKit.DOM
