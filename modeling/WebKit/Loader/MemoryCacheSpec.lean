import WebKit.Counting.Tally
import WebKit.Loader.MemoryCache

/-!
# The totals and lists of a `MemoryCache`

`Consistent` says that the totals are those of the resources in the cache and that the lists have
just these resources, each at the index for its size and popularity. Every operation changes one
resource, and is accounted for by what it does to that resource (`Consistent.update`).
-/

open List Function

namespace WebKit.Loader

open Counting WTF CachedResource

variable {ρ γ σ κ : Type} {s t : MemoryCache ρ γ σ κ} {r x : ρ} {i j : ℕ}

namespace CachedResource

variable {a b : CachedResource ρ γ}

/-- What the resource adds to the total of the live resources, or of the dead ones. -/
def share (live : Bool) (resource : CachedResource ρ γ) : Unsigned :=
  if resource.inCache = true ∧ resource.hasClients = live then resource.size else 0

/-- The resource with other clients. -/
def withClients (resource : CachedResource ρ γ) (clients clientsAwaitingCallback : List γ) :
    CachedResource ρ γ :=
  { resource with clients := clients, clientsAwaitingCallback := clientsAwaitingCallback }

/-- The cache accounts for both in the same way. -/
structure Same (a b : CachedResource ρ γ) : Prop where
  encodedSize_eq : a.encodedSize = b.encodedSize
  decodedSize_eq : a.decodedSize = b.decodedSize
  overheadSize_eq : a.overheadSize = b.overheadSize
  accessCount_eq : a.accessCount = b.accessCount
  hasClients_eq : a.hasClients = b.hasClients
  inCache_eq : a.inCache = b.inCache

theorem Same.size_eq (h : a.Same b) : a.size = b.size := by
  rw [size, size, h.encodedSize_eq, h.decodedSize_eq, h.overheadSize_eq]

theorem Same.queueIndex_eq (h : a.Same b) : a.queueIndex = b.queueIndex := by
  rw [queueIndex, queueIndex, h.size_eq, h.accessCount_eq]

theorem Same.share_eq (h : a.Same b) (live : Bool) : a.share live = b.share live := by
  rw [share, share, h.size_eq, h.hasClients_eq, h.inCache_eq]

theorem share_of_not_inCache (h : a.inCache = false) (live : Bool) : a.share live = 0 := by
  rw [share, if_neg]
  intro hin
  rw [h] at hin
  cases hin.1

theorem share_of_inCache (h : a.inCache = true) (live : Bool) :
    a.share live = if a.hasClients = live then a.size else 0 := by
  rw [share, h]
  by_cases hlive : a.hasClients = live
  · rw [if_pos ⟨rfl, hlive⟩, if_pos hlive]
  · rw [if_neg (fun h => hlive h.2), if_neg hlive]

theorem IsSmall.toNat_size (h : a.IsSmall) :
    a.size.toNat = a.encodedSize.toNat + a.decodedSize.toNat + a.overheadSize.toNat := by
  unfold IsSmall at h
  rw [size, BitVec.toNat_add, BitVec.toNat_add]
  omega

theorem IsSmall.of_le (h : a.IsSmall) {size : Unsigned} (hle : size ≤ a.decodedSize) :
    ({ a with decodedSize := size } : CachedResource ρ γ).IsSmall := by
  have hle' := BitVec.le_def.mp hle
  unfold IsSmall at h ⊢
  dsimp only
  omega

/-- A resource with smaller decoded data is not farther up in the lists. -/
theorem IsSmall.queueIndex_le (h : a.IsSmall) {size : Unsigned} (hle : size ≤ a.decodedSize) :
    ({ a with decodedSize := size } : CachedResource ρ γ).queueIndex ≤ a.queueIndex := by
  have hle' := BitVec.le_def.mp hle
  have hsmall := h.of_le hle
  apply fastLog2_mono
  rw [BitVec.le_def, BitVec.toNat_udiv, BitVec.toNat_udiv, hsmall.toNat_size, h.toNat_size]
  apply Nat.div_le_div_right
  dsimp only
  omega

end CachedResource

namespace MemoryCache

/-! ## The lists -/

theorem getD_listsFor (s : MemoryCache ρ γ σ κ) (i j : ℕ) :
    (s.listsFor i).getD j .empty = s.lruList j := by
  unfold listsFor lruList
  rw [getD_eq_getElem?_getD, getD_eq_getElem?_getD, getElem?_append]
  split
  · rfl
  · rename_i hlt
    rw [getElem?_eq_none (Nat.le_of_not_lt hlt), getElem?_replicate]
    split <;> rfl

theorem lt_length_listsFor (s : MemoryCache ρ γ σ κ) (i : ℕ) : i < (s.listsFor i).length := by
  rw [listsFor, length_append, length_replicate]
  omega

theorem length_listsFor (h : i < s.allResources.length) :
    (s.listsFor i).length = s.allResources.length := by
  rw [listsFor, length_append, length_replicate]
  omega

theorem getD_modify (f : ListHashSet ρ → ListHashSet ρ) (s : MemoryCache ρ γ σ κ) (i j : ℕ) :
    ((s.listsFor i).modify i f).getD j .empty = if j = i then f (s.lruList i) else s.lruList j := by
  have hlt := s.lt_length_listsFor i
  rw [← getD_listsFor s i i, ← getD_listsFor s i j, getD_eq_getElem?_getD,
    getD_eq_getElem?_getD, getD_eq_getElem?_getD, getElem?_modify]
  by_cases hij : j = i
  · subst hij
    rw [if_pos rfl, getElem?_eq_getElem hlt]
    exact if_pos rfl
  · rw [if_neg hij]
    cases (s.listsFor i)[j]? with
    | none => rfl
    | some l => exact if_neg (Ne.symm hij)

theorem lt_length_of_mem (h : r ∈ s.lruList i) : i < s.allResources.length := by
  by_contra hle
  rw [lruList, getD_eq_getElem?_getD, getElem?_eq_none (Nat.le_of_not_lt hle)] at h
  exact ListHashSet.not_mem_empty h

section AdjustSize

variable (s : MemoryCache ρ γ σ κ) (live : Bool) (delta : Unsigned)

@[simp] theorem resources_adjustSize : (s.adjustSize live delta).resources = s.resources := by
  unfold adjustSize
  split <;> rfl

@[simp] theorem allResources_adjustSize :
    (s.adjustSize live delta).allResources = s.allResources := by
  unfold adjustSize
  split <;> rfl

@[simp] theorem lruList_adjustSize : (s.adjustSize live delta).lruList i = s.lruList i := by
  rw [lruList, allResources_adjustSize, lruList]

@[simp] theorem liveDecodedResources_adjustSize :
    (s.adjustSize live delta).liveDecodedResources = s.liveDecodedResources := by
  unfold adjustSize
  split <;> rfl

@[simp] theorem liveSize_adjustSize :
    (s.adjustSize live delta).liveSize = s.liveSize + if live = true then delta else 0 := by
  unfold adjustSize
  split
  · rfl
  · exact (BitVec.add_zero _).symm

@[simp] theorem deadSize_adjustSize :
    (s.adjustSize live delta).deadSize = s.deadSize + if live = false then delta else 0 := by
  cases live with
  | true => exact (BitVec.add_zero _).symm
  | false => rfl

theorem adjustSize_of_ne_zero :
    (if delta ≠ 0 then s.adjustSize live delta else s) = s.adjustSize live delta := by
  split
  · rfl
  · rename_i hzero
    rw [not_not] at hzero
    rw [hzero, adjustSize, add_zero, add_zero, ite_self]

end AdjustSize

/-! ## Consistency -/

structure Consistent (s : MemoryCache ρ γ σ κ) : Prop where
  live : AddsTo (fun r => (s.resources r).share true) s.liveSize
  dead : AddsTo (fun r => (s.resources r).share false) s.deadSize
  mem_lruList : ∀ r i, r ∈ s.lruList i ↔
    (s.resources r).inCache = true ∧ (s.resources r).queueIndex = i
  accessed : ∀ r, (s.resources r).inCache = true → (s.resources r).accessCount ≠ 0
  mem_liveDecodedResources : ∀ r ∈ s.liveDecodedResources,
    (s.resources r).inCache = true ∧ (s.resources r).hasClients = true ∧
      (s.resources r).decodedSize ≠ 0
  isSmall : ∀ r, (s.resources r).IsSmall

/-- One resource has changed, and is accounted for. -/
structure Accounts (s t : MemoryCache ρ γ σ κ) (r : ρ) : Prop where
  resources_of_ne : ∀ x, x ≠ r → t.resources x = s.resources x
  liveSize_eq : t.liveSize =
    s.liveSize - (s.resources r).share true + (t.resources r).share true
  deadSize_eq : t.deadSize =
    s.deadSize - (s.resources r).share false + (t.resources r).share false
  mem_lruList_of_ne : ∀ x, x ≠ r → ∀ i, x ∈ t.lruList i ↔ x ∈ s.lruList i
  mem_lruList : ∀ i, r ∈ t.lruList i ↔
    (t.resources r).inCache = true ∧ (t.resources r).queueIndex = i
  accessed : (t.resources r).inCache = true → (t.resources r).accessCount ≠ 0
  mem_liveDecodedResources_of_ne : ∀ x, x ≠ r → x ∈ t.liveDecodedResources →
    x ∈ s.liveDecodedResources
  mem_liveDecodedResources : r ∈ t.liveDecodedResources →
    (t.resources r).inCache = true ∧ (t.resources r).hasClients = true ∧
      (t.resources r).decodedSize ≠ 0
  isSmall : (t.resources r).IsSmall

namespace Consistent

theorem lt_length (h : s.Consistent) (hin : (s.resources r).inCache = true) :
    (s.resources r).queueIndex < s.allResources.length :=
  lt_length_of_mem ((h.mem_lruList r _).mpr ⟨hin, rfl⟩)

theorem not_mem_lruList (h : s.Consistent) (hin : (s.resources r).inCache = false) (i : ℕ) :
    r ∉ s.lruList i := by
  intro hmem
  rw [h.mem_lruList, hin] at hmem
  cases hmem.1

theorem not_mem_liveDecodedResources (h : s.Consistent) (hin : (s.resources r).inCache = false) :
    r ∉ s.liveDecodedResources := by
  intro hmem
  have hin' := (h.mem_liveDecodedResources r hmem).1
  rw [hin] at hin'
  cases hin'

end Consistent

variable [DecidableEq ρ]

theorem mem_lruList_removeFromLRUList : x ∈ (s.removeFromLRUList r).lruList i ↔ x ∈ s.lruList i ∧
      ¬((s.resources r).accessCount ≠ 0 ∧ x = r ∧ (s.resources r).queueIndex = i) := by
  unfold removeFromLRUList
  dsimp only
  split
  · rename_i hzero
    exact ⟨fun h => ⟨h, fun hne => hne.1 hzero⟩, fun h => h.1⟩
  · rename_i hzero
    rw [lruList, getD_modify]
    split
    · rename_i hi
      subst hi
      rw [ListHashSet.mem_remove]
      exact and_congr_right fun _ => ⟨fun hne h => hne h.2.1, fun hne heq => hne ⟨hzero, heq, rfl⟩⟩
    · rename_i hi
      exact ⟨fun h => ⟨h, fun hne => hi hne.2.2.symm⟩, fun h => h.1⟩

theorem mem_lruList_insertInLRUList : x ∈ (s.insertInLRUList r).lruList i ↔
    x ∈ s.lruList i ∨ x = r ∧ (s.resources r).queueIndex = i := by
  unfold insertInLRUList
  rw [lruList, getD_modify]
  split
  · rename_i hi
    subst hi
    rw [ListHashSet.mem_add]
    exact or_congr_right ⟨fun h => ⟨h, rfl⟩, fun h => h.1⟩
  · rename_i hi
    exact ⟨.inl, fun h => h.resolve_right fun h => hi h.2.symm⟩

theorem length_removeFromLRUList (h : (s.resources r).queueIndex < s.allResources.length) :
    (s.removeFromLRUList r).allResources.length = s.allResources.length := by
  unfold removeFromLRUList
  dsimp only
  split
  · rfl
  · rw [length_modify, length_listsFor h]

theorem length_insertInLRUList (h : (s.resources r).queueIndex < s.allResources.length) :
    (s.insertInLRUList r).allResources.length = s.allResources.length := by
  rw [insertInLRUList, length_modify, length_listsFor h]

/-! ## Fields -/

section Fields

variable (s : MemoryCache ρ γ σ κ) (r : ρ)

@[simp] theorem resources_removeFromLRUList : (s.removeFromLRUList r).resources = s.resources := by
  unfold removeFromLRUList
  dsimp only
  split <;> rfl

@[simp] theorem liveSize_removeFromLRUList : (s.removeFromLRUList r).liveSize = s.liveSize := by
  unfold removeFromLRUList
  dsimp only
  split <;> rfl

@[simp] theorem deadSize_removeFromLRUList : (s.removeFromLRUList r).deadSize = s.deadSize := by
  unfold removeFromLRUList
  dsimp only
  split <;> rfl

@[simp] theorem liveDecodedResources_removeFromLRUList :
    (s.removeFromLRUList r).liveDecodedResources = s.liveDecodedResources := by
  unfold removeFromLRUList
  dsimp only
  split <;> rfl

@[simp] theorem resources_insertInLRUList : (s.insertInLRUList r).resources = s.resources := rfl

@[simp] theorem liveSize_insertInLRUList : (s.insertInLRUList r).liveSize = s.liveSize := rfl

@[simp] theorem deadSize_insertInLRUList : (s.insertInLRUList r).deadSize = s.deadSize := rfl

@[simp] theorem liveDecodedResources_insertInLRUList :
    (s.insertInLRUList r).liveDecodedResources = s.liveDecodedResources := rfl

end Fields

theorem Consistent.update (h : s.Consistent) (ht : s.Accounts t r) : t.Consistent := by
  have hshare : ∀ live, (fun x => (t.resources x).share live) =
      Function.update (fun x => (s.resources x).share live) r ((t.resources r).share live) := by
    intro live
    funext x
    by_cases hx : x = r
    · rw [hx, update_self]
    · rw [update_of_ne hx, ht.resources_of_ne x hx]
  constructor
  · rw [hshare, ht.liveSize_eq]
    exact h.live.update r _
  · rw [hshare, ht.deadSize_eq]
    exact h.dead.update r _
  · intro x i
    by_cases hx : x = r
    · rw [hx]
      exact ht.mem_lruList i
    · rw [ht.mem_lruList_of_ne x hx i, ht.resources_of_ne x hx]
      exact h.mem_lruList x i
  · intro x hin
    by_cases hx : x = r
    · rw [hx] at hin ⊢
      exact ht.accessed hin
    · rw [ht.resources_of_ne x hx] at hin ⊢
      exact h.accessed x hin
  · intro x hmem
    by_cases hx : x = r
    · rw [hx] at hmem ⊢
      exact ht.mem_liveDecodedResources hmem
    · rw [ht.resources_of_ne x hx]
      exact h.mem_liveDecodedResources x (ht.mem_liveDecodedResources_of_ne x hx hmem)
  · intro x
    by_cases hx : x = r
    · rw [hx]
      exact ht.isSmall
    · rw [ht.resources_of_ne x hx]
      exact h.isSmall x

/-! ## Operations -/

@[simp] theorem resources_setResource_self (resource : CachedResource ρ γ) :
    (s.setResource r resource).resources r = resource := update_self _ _ _

theorem resources_setResource_of_ne (resource : CachedResource ρ γ) (hx : x ≠ r) :
    (s.setResource r resource).resources x = s.resources x := update_of_ne hx _ _

namespace Consistent

section

variable (h : s.Consistent)
include h

variable {resource : CachedResource ρ γ}

/-- `update` with the fields of the resource that is stored. -/
theorem updated
    (hresources : t.resources = (s.setResource r resource).resources)
    (hlive : t.liveSize = s.liveSize - (s.resources r).share true + resource.share true)
    (hdead : t.deadSize = s.deadSize - (s.resources r).share false + resource.share false)
    (hlists : ∀ x, x ≠ r → ∀ i, x ∈ t.lruList i ↔ x ∈ s.lruList i)
    (hlist : ∀ i, r ∈ t.lruList i ↔ resource.inCache = true ∧ resource.queueIndex = i)
    (hacc : resource.inCache = true → resource.accessCount ≠ 0)
    (hother : ∀ x, x ≠ r → x ∈ t.liveDecodedResources → x ∈ s.liveDecodedResources)
    (hself : r ∈ t.liveDecodedResources →
      resource.inCache = true ∧ resource.hasClients = true ∧ resource.decodedSize ≠ 0)
    (hsmall : resource.IsSmall) : t.Consistent := by
  have hr : t.resources r = resource := by rw [hresources, resources_setResource_self]
  subst hr
  refine h.update ⟨?_, hlive, hdead, hlists, hlist, hacc, hother, hself, hsmall⟩
  intro x hx
  rw [hresources, resources_setResource_of_ne _ hx]

theorem setResource
    (hsame : resource.Same (s.resources r)) : (s.setResource r resource).Consistent := by
  refine h.updated rfl ?_ ?_ (fun _ _ _ => Iff.rfl) ?_ ?_ (fun _ _ hx => hx) ?_ ?_
  · rw [hsame.share_eq]
    exact (sub_add_cancel _ _).symm
  · rw [hsame.share_eq]
    exact (sub_add_cancel _ _).symm
  · rw [hsame.inCache_eq, hsame.queueIndex_eq]
    exact h.mem_lruList r
  · rw [hsame.inCache_eq, hsame.accessCount_eq]
    exact h.accessed r
  · rw [hsame.inCache_eq, hsame.hasClients_eq, hsame.decodedSize_eq]
    exact h.mem_liveDecodedResources r
  · rw [CachedResource.IsSmall, hsame.encodedSize_eq, hsame.decodedSize_eq, hsame.overheadSize_eq]
    exact h.isSmall r

theorem setStatus (status : ResourceStatus ρ) : (s.setStatus r status).Consistent :=
  h.setResource ⟨rfl, rfl, rfl, rfl, rfl, rfl⟩

theorem deleteIfPossible : (s.deleteIfPossible r).Consistent := by
  unfold MemoryCache.deleteIfPossible
  split
  · exact h.setResource ⟨rfl, rfl, rfl, rfl, rfl, rfl⟩
  · exact h

theorem registerHandle : (s.registerHandle r).Consistent := h.setStatus _

theorem unregisterHandle : (s.unregisterHandle r).Consistent := by
  unfold MemoryCache.unregisterHandle
  dsimp only
  split
  · exact (h.setStatus _).deleteIfPossible
  · exact h.setStatus _

theorem setResource_out
    (hout : (s.resources r).inCache = false) (hout' : resource.inCache = false)
    (hsmall : resource.IsSmall) : (s.setResource r resource).Consistent := by
  refine h.updated rfl ?_ ?_ (fun _ _ _ => Iff.rfl) ?_ ?_ (fun _ _ hx => hx)
    (fun hmem => absurd hmem (h.not_mem_liveDecodedResources hout)) hsmall
  · rw [share_of_not_inCache hout, share_of_not_inCache hout', sub_add_cancel]
    rfl
  · rw [share_of_not_inCache hout, share_of_not_inCache hout', sub_add_cancel]
    rfl
  · intro i
    rw [hout']
    exact iff_of_false (h.not_mem_lruList hout i) fun hin => nomatch hin.1
  · rw [hout']
    exact fun hin => nomatch hin

theorem mem_removeFromLRUList (hlists : t.allResources = s.allResources)
    (hcount : (t.resources r).accessCount = (s.resources r).accessCount)
    (hindex : (t.resources r).queueIndex = (s.resources r).queueIndex) :
    x ∈ (t.removeFromLRUList r).lruList i ↔ x ∈ s.lruList i ∧ x ≠ r := by
  rw [mem_lruList_removeFromLRUList, hcount, hindex]
  have hlist : t.lruList i = s.lruList i := by rw [lruList, hlists, lruList]
  rw [hlist]
  apply and_congr_right
  intro hx
  apply not_congr
  constructor
  · exact fun heq => heq.2.1
  · rintro rfl
    obtain ⟨hin, hi⟩ := (h.mem_lruList x i).mp hx
    exact ⟨h.accessed x hin, rfl, hi⟩

/-- A resource in the cache gets another size or access count, and is moved to its list. -/
theorem moved (resource : CachedResource ρ γ)
    (hin : (s.resources r).inCache = true) (hin' : resource.inCache = true)
    (hclients : resource.hasClients = (s.resources r).hasClients)
    (hacc : resource.accessCount ≠ 0) (hsmall : resource.IsSmall)
    (hresources : t.resources = (s.setResource r resource).resources)
    (hlists : t.allResources =
      (((s.removeFromLRUList r).setResource r resource).insertInLRUList r).allResources)
    (hlive : t.liveSize = s.liveSize +
      if resource.hasClients = true then resource.size - (s.resources r).size else 0)
    (hdead : t.deadSize = s.deadSize +
      if resource.hasClients = false then resource.size - (s.resources r).size else 0)
    (hother : ∀ x, x ≠ r → x ∈ t.liveDecodedResources → x ∈ s.liveDecodedResources)
    (hself : r ∈ t.liveDecodedResources →
      resource.hasClients = true ∧ resource.decodedSize ≠ 0) : t.Consistent := by
  have hmem : ∀ x i, x ∈ t.lruList i ↔
      x ∈ s.lruList i ∧ x ≠ r ∨ x = r ∧ resource.queueIndex = i := by
    intro x i
    rw [lruList, hlists, ← lruList, mem_lruList_insertInLRUList, resources_setResource_self]
    exact or_congr_left (h.mem_removeFromLRUList rfl rfl rfl)
  refine h.updated hresources ?_ ?_ ?_ ?_ (fun _ => hacc) hother
    (fun hr => ⟨hin', hself hr⟩) hsmall
  · rw [share_of_inCache hin, share_of_inCache hin', hclients, hlive, hclients]
    split <;> abel
  · rw [share_of_inCache hin, share_of_inCache hin', hclients, hdead, hclients]
    split <;> abel
  · intro x hx i
    rw [hmem]
    exact ⟨fun hor => (hor.resolve_right fun heq => hx heq.1).1, fun hx' => .inl ⟨hx', hx⟩⟩
  · intro i
    rw [hmem]
    exact ⟨fun hor => ⟨hin', (hor.resolve_left fun hne => hne.2 rfl).2⟩, fun hi => .inr ⟨rfl, hi.2⟩⟩

theorem inserted (resource : CachedResource ρ γ)
    (hout : (s.resources r).inCache = false) (hin' : resource.inCache = true)
    (hacc : resource.accessCount ≠ 0) (hsmall : resource.IsSmall)
    (hresources : t.resources = (s.setResource r resource).resources)
    (hlists : t.allResources = ((s.setResource r resource).insertInLRUList r).allResources)
    (hlive : t.liveSize = s.liveSize + if resource.hasClients = true then resource.size else 0)
    (hdead : t.deadSize = s.deadSize + if resource.hasClients = false then resource.size else 0)
    (hother : ∀ x, x ≠ r → x ∈ t.liveDecodedResources → x ∈ s.liveDecodedResources)
    (hself : r ∈ t.liveDecodedResources →
      resource.hasClients = true ∧ resource.decodedSize ≠ 0) : t.Consistent := by
  have hmem : ∀ x i, x ∈ t.lruList i ↔ x ∈ s.lruList i ∨ x = r ∧ resource.queueIndex = i := by
    intro x i
    rw [lruList, hlists, ← lruList, mem_lruList_insertInLRUList, resources_setResource_self]
    rfl
  refine h.updated hresources ?_ ?_ ?_ ?_ (fun _ => hacc) hother
    (fun hr => ⟨hin', hself hr⟩) hsmall
  · rw [share_of_not_inCache hout, share_of_inCache hin', hlive]
    abel
  · rw [share_of_not_inCache hout, share_of_inCache hin', hdead]
    abel
  · intro x hx i
    rw [hmem]
    exact ⟨fun hor => hor.resolve_right fun heq => hx heq.1, .inl⟩
  · intro i
    rw [hmem]
    exact ⟨fun hor => ⟨hin', (hor.resolve_left (h.not_mem_lruList hout i)).2⟩,
      fun hi => .inr ⟨rfl, hi.2⟩⟩

/-- A resource in the cache gets its first client or loses its last one. -/
theorem switched {clients clientsAwaitingCallback : List γ} (hin : (s.resources r).inCache = true)
    (hresources : t.resources = (s.setResource r
      ((s.resources r).withClients clients clientsAwaitingCallback)).resources)
    (hlists : t.allResources = s.allResources)
    (hlive : t.liveSize = s.liveSize - (s.resources r).share true +
      ((s.resources r).withClients clients clientsAwaitingCallback).share true)
    (hdead : t.deadSize = s.deadSize - (s.resources r).share false +
      ((s.resources r).withClients clients clientsAwaitingCallback).share false)
    (hother : ∀ x, x ≠ r → x ∈ t.liveDecodedResources → x ∈ s.liveDecodedResources)
    (hself : r ∉ t.liveDecodedResources) : t.Consistent := by
  have hlist : ∀ i, t.lruList i = s.lruList i := by
    intro i
    rw [lruList, hlists, lruList]
  refine h.updated hresources hlive hdead ?_ ?_ (fun _ => h.accessed r hin) hother
    (fun hmem => absurd hmem hself) (h.isSmall r)
  · intro x _ i
    rw [hlist]
  · intro i
    rw [hlist]
    exact h.mem_lruList r i

end

end Consistent

end MemoryCache

end WebKit.Loader
