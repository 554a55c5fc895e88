import WebKit.Loader.CacheOperations
import WebKit.Transition.Run
import Mathlib.Algebra.Order.BigOperators.Group.Finset

/-!
# Programs keep a `MemoryCache` consistent

Whatever subclasses do while the cache prunes, the cache stays consistent, and its vector of lists
does not grow so that the lists that pruning drops are empty (`Exec.consistent`). A resource that
has been in the cache and is added again is not accounted for: `resourceAccessed` counts the size
of a resource at its first access only.
-/

namespace WebKit.Loader

open Counting Transition WTF List False

variable {ρ γ σ κ : Type}

namespace Operation

/-- A resource that is added is in the cache already or has never been accessed, one that has been
revalidated has been accessed, and access counts do not overflow. -/
def Guard (s : MemoryCache ρ γ σ κ) : Operation ρ γ σ → Prop
  | .add r => s.disabled = true ∨
    ((s.resources r).inCache = true ∨ (s.resources r).accessCount = 0) ∧
      (s.resources r).accessCount + 1 ≠ 0
  | .resourceAccessed r => (s.resources r).accessCount + 1 ≠ 0
  | .revalidationSucceeded revalidatingResource =>
    ∀ resource, (s.resources revalidatingResource).status.resourceToRevalidate = some resource →
      (s.resources resource).accessCount ≠ 0
  | _ => True

end Operation

namespace Command

/-- What happens while the cache prunes. -/
def Prunes : Command ρ γ σ → Prop
  | .call (.removeClient _ _) => True
  | .call .prune => True
  | .call .pruneDeadResources => True
  | .call (.pruneLiveResources _) => True
  | .releasing => True
  | .pruneDeadResourcesToSize _ => True
  | .deadLists _ _ _ => True
  | .flushList _ _ _ _ => True
  | .evictList _ _ _ _ => True
  | .pruneLiveResourcesToSize _ _ => True
  | .liveFrom _ _ _ => True
  | _ => False

/-- A loop that still shrinks the vector of lists has come to its last list. -/
def Ready (s : MemoryCache ρ γ σ κ) : Command ρ γ σ → Prop
  | .call operation => operation.Guard s
  | .deadLists _ canShrinkLRULists n => canShrinkLRULists = true → s.allResources.length ≤ n
  | .flushList _ canShrinkLRULists i _ =>
    canShrinkLRULists = true → s.allResources.length ≤ i + 1
  | .evictList _ canShrinkLRULists i _ =>
    canShrinkLRULists = true → s.allResources.length ≤ i + 1
  | _ => True

end Command

namespace MemoryCache

variable {s t u : MemoryCache ρ γ σ κ} {r x : ρ}

/-- What the totals and lists should be, as long as the sizes add up to less than 2^31. -/
structure Sound (s : MemoryCache ρ γ σ κ) : Prop where
  finite : ∃ members : Finset ρ, ∀ r, r ∈ members ↔ (s.resources r).inCache = true
  totals : ∀ members : Finset ρ, (∀ r, r ∈ members ↔ (s.resources r).inCache = true) →
    ∑ r ∈ members, (s.resources r).size.toNat < 2 ^ 31 →
    s.liveSize.toNat =
      ∑ r ∈ members with (s.resources r).hasClients = true, (s.resources r).size.toNat ∧
    s.deadSize.toNat =
      ∑ r ∈ members with (s.resources r).hasClients = false, (s.resources r).size.toNat
  mem_lruList : ∀ r i, r ∈ s.lruList i ↔
    (s.resources r).inCache = true ∧ (s.resources r).queueIndex = i
  mem_liveDecodedResources : ∀ r ∈ s.liveDecodedResources,
    (s.resources r).inCache = true ∧ (s.resources r).hasClients = true ∧
      (s.resources r).decodedSize ≠ 0

theorem toNat_sum (f : ρ → Unsigned) (keys : Finset ρ) :
    (∑ r ∈ keys, f r).toNat = (∑ r ∈ keys, (f r).toNat) % 2 ^ 32 := by
  classical
  induction keys using Finset.induction_on with
  | empty => rfl
  | insert r keys hr ih =>
    rw [Finset.sum_insert hr, Finset.sum_insert hr, BitVec.toNat_add, ih]
    omega

theorem total_eq {live : Bool} {total : Unsigned}
    (h : AddsTo (fun r => (s.resources r).share live) total) {members : Finset ρ}
    (hmembers : ∀ r, r ∈ members ↔ (s.resources r).inCache = true)
    (hsmall : ∑ r ∈ members, (s.resources r).size.toNat < 2 ^ 31) :
    total.toNat =
      ∑ r ∈ members with (s.resources r).hasClients = live, (s.resources r).size.toNat := by
  have hshare : ∀ r ∈ members, ((s.resources r).share live).toNat =
      if (s.resources r).hasClients = live then (s.resources r).size.toNat else 0 := by
    intro r hr
    rw [CachedResource.share_of_inCache ((hmembers r).mp hr)]
    split <;> rfl
  have hsum := h.sum_eq fun r hr => CachedResource.share_of_not_inCache
    (Bool.eq_false_iff.mpr fun hin => hr ((hmembers r).mpr hin)) live
  rw [← hsum, toNat_sum, Finset.sum_congr rfl hshare, ← Finset.sum_filter]
  apply Nat.mod_eq_of_lt
  have hle : ∑ r ∈ members with (s.resources r).hasClients = live, (s.resources r).size.toNat ≤
      ∑ r ∈ members, (s.resources r).size.toNat :=
    Finset.sum_le_sum_of_subset (Finset.filter_subset _ _)
  omega

theorem Consistent.sound (h : s.Consistent) : s.Sound where
  finite := by
    classical
    refine ⟨(s.allResources.flatMap ListHashSet.elements).toFinset, fun r => ?_⟩
    rw [mem_toFinset, mem_flatMap]
    constructor
    · rintro ⟨list, hlist, hr⟩
      obtain ⟨i, hi⟩ := mem_iff_getElem?.mp hlist
      have hmem : r ∈ s.lruList i := by
        rw [lruList, getD_eq_getElem?_getD, hi]
        exact hr
      exact ((h.mem_lruList r i).mp hmem).1
    · intro hin
      have hmem := (h.mem_lruList r _).mpr ⟨hin, rfl⟩
      have hlt := lt_length_of_mem hmem
      rw [lruList, getD_eq_getElem?_getD, getElem?_eq_getElem hlt] at hmem
      exact ⟨_, getElem_mem hlt, hmem⟩
  totals members hmembers hsmall :=
    ⟨total_eq h.live hmembers hsmall, total_eq h.dead hmembers hsmall⟩
  mem_lruList := h.mem_lruList
  mem_liveDecodedResources := h.mem_liveDecodedResources

/-- The cache at the start, and resources that have just been made. -/
def start (capacity : Unsigned) (status : ρ → ResourceStatus ρ) (overheadSize : ρ → Unsigned) :
    MemoryCache ρ γ σ κ :=
  .create capacity fun r => .create (status r) (overheadSize r)

theorem consistent_start {capacity : Unsigned} {status : ρ → ResourceStatus ρ}
    {overheadSize : ρ → Unsigned} (hoverhead : ∀ r, (overheadSize r).toNat < 2 ^ 31) :
    (start capacity status overheadSize : MemoryCache ρ γ σ κ).Consistent where
  live := AddsTo.zero
  dead := AddsTo.zero
  mem_lruList r i := iff_of_false ListHashSet.not_mem_empty fun hin => nomatch hin.1
  accessed r hin := nomatch hin
  mem_liveDecodedResources r hr := absurd hr ListHashSet.not_mem_empty
  isSmall r := by
    have h := hoverhead r
    show 0 + 0 + (overheadSize r).toNat < 2 ^ 31
    omega

/-! ## Commands -/

section Next

variable {targetSize : Unsigned} {canShrinkLRULists : Bool} {i : ℕ} {next : Option ρ}

theorem ready_flushNext (h : canShrinkLRULists = true → t.allResources.length ≤ i + 1) :
    (s.flushNext targetSize canShrinkLRULists i next).Ready t := by
  unfold flushNext
  split <;> exact h

theorem ready_evictNext (h : canShrinkLRULists = true → t.allResources.length ≤ i + 1) :
    (s.evictNext targetSize canShrinkLRULists i next).Ready t := by
  unfold evictNext
  split <;> exact h

theorem prunes_flushNext : (s.flushNext targetSize canShrinkLRULists i next).Prunes := by
  unfold flushNext
  split <;> exact trivial

theorem prunes_evictNext : (s.evictNext targetSize canShrinkLRULists i next).Prunes := by
  unfold evictNext
  split <;> exact trivial

end Next

theorem Consistent.of_resources (h : s.Consistent) (hlive : t.liveSize = s.liveSize)
    (hdead : t.deadSize = s.deadSize) (hlists : t.allResources = s.allResources)
    (hdec : t.liveDecodedResources = s.liveDecodedResources)
    (hresources : t.resources = s.resources) : t.Consistent := by
  obtain ⟨_, _, _, _, _, _, _, _, _, _, _⟩ := t
  cases hlive
  cases hdead
  cases hlists
  cases hdec
  cases hresources
  exact ⟨h.live, h.dead, h.mem_lruList, h.accessed, h.mem_liveDecodedResources, h.isSmall⟩

variable [DecidableEq ρ]

theorem length_protect (s : MemoryCache ρ γ σ κ) (next : Option ρ) :
    (s.protect next).allResources.length = s.allResources.length := by
  cases next with
  | none | some => rfl

theorem length_unprotect (s : MemoryCache ρ γ σ κ) (next : Option ρ) :
    (s.unprotect next).allResources.length = s.allResources.length := by
  cases next with
  | none => rfl
  | some next =>
    unfold unprotect unregisterHandle
    dsimp only
    split
    · exact length_deleteIfPossible _ _
    · rfl

theorem resources_deleteIfPossible_of_ne (hx : x ≠ r) :
    (s.deleteIfPossible r).resources x = s.resources x := by
  unfold deleteIfPossible
  split
  · exact resources_setResource_of_ne _ hx
  · rfl

section Remove

variable [DecidableEq σ] [DecidableEq κ] {sessionID : ρ → σ} {key : ρ → κ}

theorem resources_remove_of_ne (hx : x ≠ r) :
    (s.remove sessionID key r).resources x = s.resources x := by
  unfold remove
  rw [resources_deleteIfPossible_of_ne hx]
  split
  · rw [removeFromCache_eq, resources_adjustSize, removeFromLiveDecodedResourcesList,
      resources_removeFromLRUList]
    exact resources_setResource_of_ne _ hx
  · rfl

end Remove

variable [DecidableEq γ] [DecidableEq σ] [DecidableEq κ]
  {sessionID : ρ → σ} {key : ρ → κ} {targetPrunePercentage : Unsigned → Unsigned}
  {command : Command ρ γ σ}

/-- Every command keeps the cache consistent, and the vector of lists does not grow while the
cache prunes. -/
theorem Exec.consistent (hexec : Exec sessionID key targetPrunePercentage s command t)
    (h : s.Consistent) (hready : command.Ready s) :
    t.Consistent ∧ (command.Prunes → t.allResources.length ≤ s.allResources.length) := by
  induction hexec with
  | add s r => exact ⟨h.add sessionID key hready, elim⟩
  | remove s r => exact ⟨(h.remove sessionID key r).1, elim⟩
  | resourceAccessed hin => exact ⟨h.resourceAccessed hin hready, elim⟩
  | addClient s r client => exact ⟨h.addClient client, elim⟩
  | didAddClient s r client => exact ⟨h.didAddClient client, elim⟩
  | setDecodedSize hsmall => exact ⟨h.setDecodedSize hsmall, elim⟩
  | setEncodedSize hsmall => exact ⟨h.setEncodedSize hsmall, elim⟩
  | setStatus s r status => exact ⟨h.setStatus status, elim⟩
  | deleteIfPossible s r => exact ⟨h.deleteIfPossible, elim⟩
  | removeClient htake hkeeps =>
    rw [length_deleteIfPossible, length_takeClient htake]
    refine ⟨Consistent.deleteIfPossible ?_, fun _ => le_rfl⟩
    rcases hkeeps with hdel | hclients
    · rw [Bool.and_eq_true, Bool.not_eq_true'] at hdel
      exact h.takeClient_out htake hdel.2
    · exact h.takeClient htake hclients
  | @removeLastClient s t u v r client htake _ hclients _ _ ihrelease ihprune =>
    obtain ⟨hu, hle⟩ := ihrelease (h.releaseFromLive htake hclients) trivial
    have hle' := hle trivial
    rw [length_releaseFromLive, length_takeClient htake] at hle'
    split at ihprune
    · obtain ⟨hrem, hlen⟩ := hu.remove sessionID key r
      obtain ⟨hv, hprune⟩ := ihprune hrem trivial
      exact ⟨hv, fun _ => (hprune trivial).trans (hlen.le.trans hle')⟩
    · obtain ⟨hv, hprune⟩ := ihprune hu trivial
      exact ⟨hv, fun _ => (hprune trivial).trans hle'⟩
  | destroyDecodedData _ ih | evictSessionResources _ _ _ ih => exact ⟨(ih h trivial).1, elim⟩
  | released | pruneFast | pruneDeadResourcesFast | pruneDeadResourcesToSizeFast | deadListsEnd
  | pruneLiveResourcesFast | pruneLiveResourcesToSizeBusy | liveEnd | liveRecent =>
    exact ⟨h, fun _ => le_rfl⟩
  | releaseDecodedData hle _ ih =>
    obtain ⟨ht, hlen⟩ := ih (h.setDecodedSize ((h.isSmall _).of_le hle)) trivial
    exact ⟨ht, fun _ => (hlen trivial).trans (h.length_setDecodedSize hle).le⟩
  | releaseClient _ _ ihclient ih =>
    obtain ⟨ht, hlen⟩ := ihclient h trivial
    obtain ⟨hu, hlen'⟩ := ih ht trivial
    exact ⟨hu, fun _ => (hlen' trivial).trans (hlen trivial)⟩
  | @releaseResource s t r _ ih =>
    obtain ⟨hrem, hlen⟩ := h.remove sessionID key r
    obtain ⟨ht, hlen'⟩ := ih hrem trivial
    exact ⟨ht, fun _ => (hlen' trivial).trans hlen.le⟩
  | @releaseStatus s t r status _ ih =>
    obtain ⟨ht, hlen⟩ := ih (h.setStatus status).deleteIfPossible trivial
    rw [length_deleteIfPossible] at hlen
    exact ⟨ht, hlen⟩
  | prune _ _ _ ihdead ihlive =>
    obtain ⟨ht, hlen⟩ := ihdead h trivial
    obtain ⟨hu, hlen'⟩ := ihlive ht trivial
    exact ⟨hu, fun _ => (hlen' trivial).trans (hlen trivial)⟩
  | setCapacities _ ih =>
    exact ⟨(ih (h.of_resources rfl rfl rfl rfl rfl) trivial).1, elim⟩
  | pruneDeadResources _ _ ih | pruneLiveResources _ _ ih | pruneAllLiveResources _ ih
  | liveSkip _ _ _ ih | liveReturn _ _ _ _ ih => exact ih h trivial
  | pruneDeadResourcesToSize _ _ _ ih =>
    obtain ⟨ht, hlen⟩ := ih (h.of_resources rfl rfl rfl rfl rfl) fun _ => le_rfl
    exact ⟨ht.of_resources rfl rfl rfl rfl rfl, hlen⟩
  | deadLists _ ih | flushListEnd _ ih => exact ih h hready
  | flushListSkip _ _ _ ih =>
    obtain ⟨ht, hlen⟩ := ih h (ready_flushNext hready)
    exact ⟨ht, fun _ => hlen prunes_flushNext⟩
  | flushListReturn _ _ _ _ ih =>
    obtain ⟨ht, hlen⟩ := ih (h.protect _) trivial
    rw [length_protect] at hlen
    rw [length_unprotect]
    exact ⟨ht.unprotect _, hlen⟩
  | flushList _ _ _ _ _ ihdestroy ih =>
    obtain ⟨ht, hlen⟩ := ihdestroy (h.protect _) trivial
    have hle := hlen trivial
    rw [length_protect] at hle
    obtain ⟨hu, hlen'⟩ := ih (ht.unprotect _) (ready_flushNext fun hshrink => by
      rw [length_unprotect]
      exact hle.trans (hready hshrink))
    have hle' := hlen' prunes_flushNext
    rw [length_unprotect] at hle'
    exact ⟨hu, fun _ => hle'.trans hle⟩
  | evictListKeep _ _ ih => exact ih h fun hshrink => nomatch hshrink
  | @evictListShrink s t targetSize i hempty _ ih =>
    have hle : (s.shrinkLists i).allResources.length ≤ i := length_take_le _ _
    have hle' : (s.shrinkLists i).allResources.length ≤ s.allResources.length := length_take_le' _ _
    obtain ⟨ht, hlen⟩ := ih (h.shrinkLists hempty (hready rfl)) fun _ => hle
    exact ⟨ht, fun _ => (hlen trivial).trans hle'⟩
  | evictListSkip _ _ _ ih =>
    obtain ⟨ht, hlen⟩ := ih h (ready_evictNext hready)
    exact ⟨ht, fun _ => hlen prunes_evictNext⟩
  | @evictListReturn s t targetSize canShrinkLRULists i current _ _ heq _ =>
    obtain ⟨ht, hlen⟩ := (h.protect ((s.lruList i).next current)).remove sessionID key current
    rw [← heq] at ht hlen
    rw [length_protect] at hlen
    rw [length_unprotect]
    exact ⟨ht.unprotect _, fun _ => hlen.le⟩
  | @evictList s t u targetSize canShrinkLRULists i current _ _ heq _ _ ih =>
    obtain ⟨ht, hlen⟩ := (h.protect ((s.lruList i).next current)).remove sessionID key current
    rw [← heq] at ht hlen
    rw [length_protect] at hlen
    obtain ⟨hu, hlen'⟩ := ih (ht.unprotect _) (ready_evictNext fun hshrink => by
      rw [length_unprotect, hlen]
      exact hready hshrink)
    have hle' := hlen' prunes_evictNext
    rw [length_unprotect, hlen] at hle'
    exact ⟨hu, fun _ => hle'⟩
  | pruneLiveResourcesToSize _ _ ih =>
    obtain ⟨ht, hlen⟩ := ih (h.of_resources rfl rfl rfl rfl rfl) trivial
    exact ⟨ht.of_resources rfl rfl rfl rfl rfl, hlen⟩
  | live _ _ _ _ _ ihdestroy ih =>
    obtain ⟨ht, hlen⟩ := ihdestroy h trivial
    obtain ⟨hu, hlen'⟩ := ih ht trivial
    exact ⟨hu, fun _ => (hlen' trivial).trans (hlen trivial)⟩
  | enable s => exact ⟨h.of_resources rfl rfl rfl rfl rfl, elim⟩
  | disable _ ih => exact ⟨(ih (h.of_resources rfl rfl rfl rfl rfl) trivial).1, elim⟩
  | removeAllEnd | evictResourcesDisabled | evictSessionResourcesNone | removeFromEnd =>
    exact ⟨h, elim⟩
  | removeAll _ _ ih | removeFrom _ _ _ ih =>
    exact ⟨(ih (h.remove sessionID key _).1 trivial).1, elim⟩
  | evictResources _ _ ih =>
    exact ⟨(ih h trivial).1.of_resources rfl rfl rfl rfl rfl, elim⟩
  | @revalidationSucceeded s t revalidatingResource resource clientsToMove hstatus hout _ hin _ _
      ih =>
    have hne : resource ≠ revalidatingResource := by
      rintro rfl
      rw [hin] at hout
      cases hout
    have hrem := (h.remove sessionID key revalidatingResource).1
    have hout' : ((s.remove sessionID key revalidatingResource).resources resource).inCache =
        false := by
      rw [resources_remove_of_ne hne]
      exact hout
    have hacc : ((s.remove sessionID key revalidatingResource).resources
        resource).accessCount ≠ 0 := by
      rw [resources_remove_of_ne hne]
      exact hready resource hstatus
    obtain ⟨ht, -⟩ := ih (hrem.bringBack sessionID key hout' hacc) trivial
    exact ⟨ht.switchClients _ _ _, elim⟩
  | removeClientsEnd s _ => exact ⟨h, elim⟩
  | removeClients _ _ ihclient ih =>
    exact ⟨(ih (ihclient h trivial).1 trivial).1, elim⟩

variable {capacity : Unsigned} {status : ρ → ResourceStatus ρ} {overheadSize : ρ → Unsigned}

def Step (sessionID : ρ → σ) (key : ρ → κ) (targetPrunePercentage : Unsigned → Unsigned)
    (s : MemoryCache ρ γ σ κ) (operation : Operation ρ γ σ) (t : MemoryCache ρ γ σ κ) : Prop :=
  Exec sessionID key targetPrunePercentage s (.call operation) t

/-- A loaded resource that somebody has a handle of. -/
def heldStatus : ResourceStatus Unit where
  loading := false
  hasLoader := false
  preloadCount := 0
  handleCount := 1
  resourceToRevalidate := none
  proxyResource := none
  callsBackLater := false
  decodedDataIsPurgeable := false
  isSecureNoStore := false

/-- A cache and one resource of 8 bytes. -/
def held : MemoryCache Unit Unit Unit Unit := start 100 (fun _ => heldStatus) fun _ => 8

end MemoryCache

end WebKit.Loader
