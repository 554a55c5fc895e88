import WebKit.Loader.MemoryCacheSpec

/-!
# Operations of a `MemoryCache` keep it consistent

Each operation is one of the changes of `WebKit.Loader.MemoryCacheSpec`. While the cache prunes,
the vector of lists must not grow either: what happens then makes resources smaller or removes
them.
-/

namespace WebKit.Loader.MemoryCache

open WTF List MemoryCache CachedResource ListHashSet Bool

variable {ρ γ σ κ : Type} [DecidableEq ρ] {s t : MemoryCache ρ γ σ κ} {r x : ρ} {i : ℕ}

theorem removeFromCache_eq (s : MemoryCache ρ γ σ κ) (r : ρ) : s.removeFromCache r =
    (((s.setInCache r false).removeFromLRUList r).removeFromLiveDecodedResourcesList r).adjustSize
      (s.resources r).hasClients (-(s.resources r).size) := by
  unfold removeFromCache
  dsimp only
  rw [removeFromLiveDecodedResourcesList, resources_removeFromLRUList, setInCache,
    resources_setResource_self]
  rfl

theorem length_deleteIfPossible (s : MemoryCache ρ γ σ κ) (r : ρ) :
    (s.deleteIfPossible r).allResources.length = s.allResources.length := by
  unfold deleteIfPossible
  split <;> rfl

namespace Consistent

theorem removeFromCache (h : s.Consistent) (hin : (s.resources r).inCache = true) :
    (s.removeFromCache r).Consistent := by
  have hresources : (s.removeFromCache r).resources = (s.setInCache r false).resources := by
    rw [removeFromCache_eq, resources_adjustSize]
    exact resources_removeFromLRUList _ _
  have hself : (s.removeFromCache r).resources r = { s.resources r with inCache := false } := by
    rw [hresources]
    exact resources_setResource_self _
  have hdec : (s.removeFromCache r).liveDecodedResources = s.liveDecodedResources.remove r := by
    rw [removeFromCache_eq, liveDecodedResources_adjustSize]
    exact congrArg (·.remove r) (liveDecodedResources_removeFromLRUList _ _)
  have hmem : ∀ x i, x ∈ (s.removeFromCache r).lruList i ↔ x ∈ s.lruList i ∧ x ≠ r := by
    intro x i
    rw [removeFromCache_eq, lruList_adjustSize]
    apply h.mem_removeFromLRUList (t := s.setInCache r false) rfl
    · rw [setInCache, resources_setResource_self]
    · rw [setInCache, resources_setResource_self]
      rfl
  refine h.update (r := r) ?_
  constructor
  · intro x hx
    rw [hresources]
    exact resources_setResource_of_ne _ hx
  · rw [hself, share_of_inCache hin,
      share_of_not_inCache (a := { s.resources r with inCache := false }) rfl,
      removeFromCache_eq, liveSize_adjustSize, removeFromLiveDecodedResourcesList,
      liveSize_removeFromLRUList]
    have hsame : (s.setInCache r false).liveSize = s.liveSize := rfl
    rw [hsame]
    split <;> abel
  · rw [hself, share_of_inCache hin,
      share_of_not_inCache (a := { s.resources r with inCache := false }) rfl,
      removeFromCache_eq, deadSize_adjustSize, removeFromLiveDecodedResourcesList,
      deadSize_removeFromLRUList]
    have hsame : (s.setInCache r false).deadSize = s.deadSize := rfl
    rw [hsame]
    split <;> abel
  · intro x hx i
    rw [hmem]
    exact and_iff_left hx
  · intro i
    rw [hmem, hself]
    exact iff_of_false (fun hne => hne.2 rfl) fun hin' => nomatch hin'.1
  · rw [hself]
    exact fun hin' => nomatch hin'
  · intro x _ hx
    rw [hdec, mem_remove] at hx
    exact hx.1
  · intro hx
    rw [hdec, mem_remove] at hx
    exact absurd rfl hx.2
  · rw [hself]
    exact h.isSmall r

theorem length_removeFromCache (h : s.Consistent) (hin : (s.resources r).inCache = true) :
    (s.removeFromCache r).allResources.length = s.allResources.length := by
  rw [removeFromCache_eq, allResources_adjustSize]
  apply length_removeFromLRUList (s := s.setInCache r false)
  rw [setInCache, resources_setResource_self]
  exact h.lt_length hin

section Remove

variable [DecidableEq σ] [DecidableEq κ] (sessionID : ρ → σ) (key : ρ → κ)

theorem remove (h : s.Consistent) (r : ρ) : (s.remove sessionID key r).Consistent ∧
    (s.remove sessionID key r).allResources.length = s.allResources.length := by
  have hmap : (s.removeFromMap sessionID key r).Consistent :=
    ⟨h.live, h.dead, h.mem_lruList, h.accessed, h.mem_liveDecodedResources, h.isSmall⟩
  unfold MemoryCache.remove
  rw [length_deleteIfPossible]
  split
  · rename_i hin
    rw [and_eq_true] at hin
    have hin' : ((s.removeFromMap sessionID key r).resources r).inCache = true := hin.2
    exact ⟨(hmap.removeFromCache hin').deleteIfPossible, hmap.length_removeFromCache hin'⟩
  · exact ⟨h.deleteIfPossible, rfl⟩

end Remove

/-- Nothing but the live decoded list changes, and only for one resource. -/
theorem updateLiveDecodedResourcesList_eq (s : MemoryCache ρ γ σ κ) (r : ρ) :
    ∃ list, s.updateLiveDecodedResourcesList r = { s with liveDecodedResources := list } ∧
      (∀ x, x ≠ r → x ∈ list → x ∈ s.liveDecodedResources) ∧
      (r ∈ list → (s.resources r).decodedSize ≠ 0 ∧
        (r ∈ s.liveDecodedResources ∨ (s.resources r).hasClients = true)) := by
  unfold updateLiveDecodedResourcesList
  dsimp only
  split
  · rename_i hadd
    refine ⟨_, rfl, ?_, ?_⟩
    · intro x hx hmem
      exact (mem_add.mp hmem).resolve_right hx
    · exact fun _ => ⟨hadd.1, .inr hadd.2.2⟩
  · split
    · refine ⟨_, rfl, ?_, ?_⟩
      · intro x _ hmem
        exact (mem_remove.mp hmem).1
      · exact fun hmem => absurd rfl (mem_remove.mp hmem).2
    · rename_i hrem
      exact ⟨_, rfl, fun _ _ hmem => hmem, fun hmem => ⟨fun hzero => hrem ⟨hzero, hmem⟩, .inl hmem⟩⟩

theorem setDecodedSize (h : s.Consistent) {size : Unsigned}
    (hsmall : ({ s.resources r with decodedSize := size }).IsSmall) :
    (s.setDecodedSize r size).Consistent := by
  unfold MemoryCache.setDecodedSize
  dsimp only
  split
  · exact h
  · by_cases hin : (s.resources r).inCache = true
    · rw [if_pos hin, if_pos hin]
      obtain ⟨list, heq, hother, hself⟩ := updateLiveDecodedResourcesList_eq
        (((s.removeFromLRUList r).setResource r
          { s.resources r with decodedSize := size }).insertInLRUList r) r
      rw [resources_insertInLRUList, resources_setResource_self] at hself
      rw [heq]
      have hdelta : ({ s.resources r with decodedSize := size } : CachedResource ρ γ).size -
          (s.resources r).size = size - (s.resources r).decodedSize := by
        rw [CachedResource.size, CachedResource.size]
        abel
      refine h.moved { s.resources r with decodedSize := size } hin hin rfl (h.accessed r hin)
        hsmall ?_ ?_ ?_ ?_ ?_ ?_
      · simp [MemoryCache.setResource]
      · rw [allResources_adjustSize]
      · rw [liveSize_adjustSize, hdelta]
        simp [MemoryCache.setResource]
        rfl
      · rw [deadSize_adjustSize, hdelta]
        simp [MemoryCache.setResource]
        rfl
      · intro x hx hmem
        rw [liveDecodedResources_adjustSize] at hmem
        have hmem' := hother x hx hmem
        simp [MemoryCache.setResource] at hmem'
        exact hmem'
      · intro hmem
        rw [liveDecodedResources_adjustSize] at hmem
        obtain ⟨hne, hor⟩ := hself hmem
        refine ⟨hor.elim (fun hr => ?_) id, hne⟩
        simp [MemoryCache.setResource] at hr
        exact (h.mem_liveDecodedResources r hr).2.1
    · rw [if_neg hin, if_neg hin]
      rw [Bool.not_eq_true] at hin
      exact h.setResource_out hin hin hsmall

/-- The vector of lists does not grow when decoded data gets smaller. -/
theorem length_setDecodedSize (h : s.Consistent) {size : Unsigned}
    (hle : size ≤ (s.resources r).decodedSize) :
    (s.setDecodedSize r size).allResources.length = s.allResources.length := by
  unfold MemoryCache.setDecodedSize
  dsimp only
  split
  · rfl
  · by_cases hin : (s.resources r).inCache = true
    · rw [if_pos hin, if_pos hin, allResources_adjustSize]
      obtain ⟨list, heq, -, -⟩ := updateLiveDecodedResourcesList_eq
        (((s.removeFromLRUList r).setResource r
          { s.resources r with decodedSize := size }).insertInLRUList r) r
      rw [heq]
      have hlt := h.lt_length hin
      have hrem := length_removeFromLRUList hlt
      rw [length_insertInLRUList]
      · exact hrem
      · rw [resources_setResource_self]
        exact lt_of_le_of_lt ((h.isSmall r).queueIndex_le hle) (hrem.symm ▸ hlt)
    · rw [if_neg hin, if_neg hin]
      rfl

theorem setEncodedSize (h : s.Consistent) {size : Unsigned}
    (hsmall : ({ s.resources r with encodedSize := size }).IsSmall) :
    (s.setEncodedSize r size).Consistent := by
  unfold MemoryCache.setEncodedSize
  dsimp only
  split
  · exact h
  · by_cases hin : (s.resources r).inCache = true
    · rw [if_pos hin, if_pos hin]
      have hdelta : ({ s.resources r with encodedSize := size } : CachedResource ρ γ).size -
          (s.resources r).size = size - (s.resources r).encodedSize := by
        rw [CachedResource.size, CachedResource.size]
        abel
      refine h.moved { s.resources r with encodedSize := size } hin hin rfl (h.accessed r hin)
        hsmall ?_ ?_ ?_ ?_ ?_ ?_
      · simp [MemoryCache.setResource]
      · rw [allResources_adjustSize]
      · rw [liveSize_adjustSize, hdelta]
        simp [MemoryCache.setResource]
        rfl
      · rw [deadSize_adjustSize, hdelta]
        simp [MemoryCache.setResource]
        rfl
      · intro x _ hmem
        simp [MemoryCache.setResource] at hmem
        exact hmem
      · intro hmem
        simp [MemoryCache.setResource] at hmem
        exact (h.mem_liveDecodedResources r hmem).2
    · rw [if_neg hin, if_neg hin]
      rw [Bool.not_eq_true] at hin
      exact h.setResource_out hin hin hsmall

theorem resourceAccessed (h : s.Consistent) (hin : (s.resources r).inCache = true)
    (hcount : (s.resources r).accessCount + 1 ≠ 0) : (s.resourceAccessed r).Consistent := by
  have hacc := h.accessed r hin
  unfold MemoryCache.resourceAccessed
  dsimp only
  rw [resources_removeFromLRUList, if_neg hacc]
  refine h.moved { s.resources r with accessCount := (s.resources r).accessCount + 1 } hin hin rfl
    hcount (h.isSmall r) ?_ rfl ?_ ?_ ?_ ?_
  · simp [MemoryCache.setResource]
  · have hsize : ({ s.resources r with accessCount := (s.resources r).accessCount + 1 } :
        CachedResource ρ γ).size - (s.resources r).size = 0 := sub_self (s.resources r).size
    rw [hsize]
    simp [MemoryCache.setResource]
  · have hsize : ({ s.resources r with accessCount := (s.resources r).accessCount + 1 } :
        CachedResource ρ γ).size - (s.resources r).size = 0 := sub_self (s.resources r).size
    rw [hsize]
    simp [MemoryCache.setResource]
  · intro x _ hmem
    simp [MemoryCache.setResource] at hmem
    exact hmem
  · intro hmem
    simp [MemoryCache.setResource] at hmem
    exact (h.mem_liveDecodedResources r hmem).2

section Add

variable [DecidableEq σ] [DecidableEq κ] (sessionID : ρ → σ) (key : ρ → κ)

/-- A resource that is added is in the cache already, or has never been accessed. -/
theorem add (h : s.Consistent) (hguard : s.disabled = true ∨
      ((s.resources r).inCache = true ∨ (s.resources r).accessCount = 0) ∧
        (s.resources r).accessCount + 1 ≠ 0) : (s.add sessionID key r).Consistent := by
  have hmap : (s.setInMap sessionID key r).Consistent :=
    ⟨h.live, h.dead, h.mem_lruList, h.accessed, h.mem_liveDecodedResources, h.isSmall⟩
  unfold MemoryCache.add
  split
  · exact h
  · rename_i hdisabled
    obtain ⟨hfresh, hcount⟩ := hguard.resolve_left hdisabled
    by_cases hin : (s.resources r).inCache = true
    · apply resourceAccessed
      · exact hmap.setResource ⟨rfl, rfl, rfl, rfl, rfl, hin.symm⟩
      · rw [setInCache, resources_setResource_self]
      · rw [setInCache, resources_setResource_self]
        exact hcount
    · have hzero := hfresh.resolve_left hin
      rw [Bool.not_eq_true] at hin
      unfold MemoryCache.resourceAccessed removeFromLRUList setInCache
      dsimp only
      rw [resources_setResource_self]
      have hzero' : ((s.setInMap sessionID key r).resources r).accessCount = 0 := hzero
      rw [if_pos hzero', resources_setResource_self]
      rw [if_pos hzero']
      refine hmap.inserted { s.resources r with
        inCache := true
        accessCount := (s.resources r).accessCount + 1 } hin rfl hcount (h.isSmall r)
        ?_ ?_ ?_ ?_ ?_ ?_
      · simp [MemoryCache.setResource, setInMap]
      · simp [MemoryCache.setResource, setInMap, insertInLRUList, listsFor]
      · simp [MemoryCache.setResource]
        rfl
      · simp [MemoryCache.setResource]
        rfl
      · intro x _ hmem
        simp [MemoryCache.setResource] at hmem
        exact hmem
      · intro hmem
        simp [MemoryCache.setResource] at hmem
        exact absurd hmem (hmap.not_mem_liveDecodedResources hin)

end Add

/-! ## Clients -/

theorem gainClient (h : s.Consistent) (clients clientsAwaitingCallback : List γ)
    (hclients : ((s.resources r).withClients clients clientsAwaitingCallback).hasClients = true) :
    ((if (!(s.resources r).hasClients && (s.resources r).inCache) = true then
      s.addToLiveResourcesSize r else s).setResource r
        ((s.resources r).withClients clients clientsAwaitingCallback)).Consistent := by
  by_cases hin : (s.resources r).inCache = true
  · have hin' : ((s.resources r).withClients clients clientsAwaitingCallback).inCache = true := hin
    cases hold : (s.resources r).hasClients with
    | true => exact h.setResource ⟨rfl, rfl, rfl, rfl, hclients.trans hold.symm, rfl⟩
    | false =>
      rw [if_pos (by rw [hin]; rfl)]
      refine h.switched hin rfl rfl ?_ ?_ (fun _ _ hx => hx) ?_
      · rw [share_of_inCache hin, share_of_inCache hin', hold,
          hclients, if_neg Bool.false_ne_true, if_pos rfl, sub_zero]
        rfl
      · rw [share_of_inCache hin, share_of_inCache hin', hold,
          hclients, if_pos rfl, if_neg true_eq_false.mp, add_zero]
        rfl
      · intro hmem
        have hdec := (h.mem_liveDecodedResources r hmem).2.1
        rw [hold] at hdec
        cases hdec
  · rw [not_eq_true] at hin
    rw [hin, Bool.and_false, if_neg Bool.false_ne_true]
    exact h.setResource_out hin hin (h.isSmall r)

variable [DecidableEq γ]

section

variable (h : s.Consistent) (client : γ)
include h

theorem addClientToSet :
    (s.addClientToSet r client).1.Consistent := by
  unfold MemoryCache.addClientToSet
  dsimp only
  split
  · refine h.gainClient (s.resources r).clients _ ?_
    unfold hasClients withClients
    rw [or_eq_true, not_eq_true', not_eq_true']
    apply Or.inr
    split
    · rename_i hmem
      exact isEmpty_eq_false_iff.mpr (ne_nil_of_mem hmem)
    · rfl
  · exact h.gainClient (client :: (s.resources r).clients) _ rfl

theorem didAddClient : (s.didAddClient r client).Consistent := by
  unfold MemoryCache.didAddClient
  dsimp only
  split
  · rename_i hmem
    refine h.setResource ⟨rfl, rfl, rfl, rfl, ?_, rfl⟩
    have hne := isEmpty_eq_false_iff.mpr (ne_nil_of_mem hmem)
    rw [CachedResource.hasClients, CachedResource.hasClients, hne, Bool.not_false, Bool.or_true]
    rfl
  · exact h

theorem addClient : (s.addClient r client).Consistent := by
  unfold MemoryCache.addClient
  dsimp only
  split
  · exact (h.addClientToSet client).didAddClient client
  · exact h.addClientToSet client

end

end Consistent

theorem takeClient_spec [DecidableEq γ] {client : γ} (ht : s.takeClient r client = some t) :
    (s.resources r).hasClients = true ∧ ∃ clients clientsAwaitingCallback,
      t = s.setResource r ((s.resources r).withClients clients clientsAwaitingCallback) := by
  unfold takeClient at ht
  dsimp only at ht
  split at ht
  · rename_i hmem
    refine ⟨?_, _, _, (Option.some.inj ht).symm⟩
    rw [hasClients, isEmpty_eq_false_iff.mpr (ne_nil_of_mem hmem), Bool.not_false, Bool.or_true]
  · split at ht
    · rename_i hmem
      refine ⟨?_, _, _, (Option.some.inj ht).symm⟩
      rw [hasClients, isEmpty_eq_false_iff.mpr (ne_nil_of_mem hmem), Bool.not_false, Bool.true_or]
    · cases ht

theorem length_takeClient [DecidableEq γ] {client : γ} (ht : s.takeClient r client = some t) :
    t.allResources.length = s.allResources.length := by
  obtain ⟨-, clients, clientsAwaitingCallback, rfl⟩ := takeClient_spec ht
  rfl

theorem length_releaseFromLive (s : MemoryCache ρ γ σ κ) (r : ρ) :
    (s.releaseFromLive r).allResources.length = s.allResources.length := by
  unfold releaseFromLive
  split <;> rfl

namespace Consistent

section TakeClient

variable [DecidableEq γ] {client : γ}

theorem takeClient (h : s.Consistent) (ht : s.takeClient r client = some t)
    (hclients : (t.resources r).hasClients = true) : t.Consistent := by
  obtain ⟨hold, clients, clientsAwaitingCallback, rfl⟩ := takeClient_spec ht
  rw [resources_setResource_self] at hclients
  exact h.setResource ⟨rfl, rfl, rfl, rfl, hclients.trans hold.symm, rfl⟩

theorem takeClient_out (h : s.Consistent) (ht : s.takeClient r client = some t)
    (hout : (t.resources r).inCache = false) : t.Consistent := by
  obtain ⟨hold, clients, clientsAwaitingCallback, rfl⟩ := takeClient_spec ht
  rw [resources_setResource_self] at hout
  exact h.setResource_out hout hout (h.isSmall r)

/-- The last client has gone, and the cache has been told so. -/
theorem releaseFromLive (h : s.Consistent) (ht : s.takeClient r client = some t)
    (hclients : (t.resources r).hasClients = false) : (t.releaseFromLive r).Consistent := by
  by_cases hin : (t.resources r).inCache = true
  · obtain ⟨hold, clients, clientsAwaitingCallback, rfl⟩ := takeClient_spec ht
    unfold releaseFromLive
    rw [if_pos hin]
    rw [resources_setResource_self] at hin hclients
    have hin' : (s.resources r).inCache = true := hin
    refine h.switched hin' rfl rfl ?_ ?_ ?_ ?_
    · rw [share_of_inCache hin', share_of_inCache hin, hold,
        hclients, if_pos rfl, if_neg Bool.false_ne_true, add_zero,
        removeFromLiveDecodedResourcesList, removeFromLiveResourcesSize,
        resources_setResource_self]
      rfl
    · rw [share_of_inCache hin', share_of_inCache hin, hold,
        hclients, if_pos rfl, if_neg true_eq_false.mp, sub_zero,
        removeFromLiveDecodedResourcesList, removeFromLiveResourcesSize,
        resources_setResource_self]
      rfl
    · intro x _ hmem
      exact (mem_remove.mp hmem).1
    · intro hmem
      exact absurd rfl (mem_remove.mp hmem).2
  · unfold MemoryCache.releaseFromLive
    rw [if_neg hin]
    rw [not_eq_true] at hin
    exact h.takeClient_out ht hin

end TakeClient

theorem clearResourceToRevalidate (h : s.Consistent) :
    (s.clearResourceToRevalidate r).Consistent := by
  unfold MemoryCache.clearResourceToRevalidate
  split
  · exact h
  · dsimp only
    split
    · exact ((h.setStatus _).deleteIfPossible.setStatus _).deleteIfPossible
    · exact (h.setStatus _).deleteIfPossible

theorem switchClients [DecidableEq γ] (h : s.Consistent) (revalidatingResource resource : ρ)
    (clientsToMove : List γ) :
    (s.switchClients revalidatingResource resource clientsToMove).Consistent := by
  have hadd : (clientsToMove.foldl (fun s client => (s.addClientToSet resource client).1)
      s).Consistent :=
    foldlRecOn clientsToMove _ h fun s hs client _ => hs.addClientToSet client
  apply clearResourceToRevalidate
  refine foldlRecOn clientsToMove _ hadd fun s hs client _ => ?_
  split
  · exact hs.didAddClient client
  · exact hs

section BringBack

variable [DecidableEq σ] [DecidableEq κ] (sessionID : ρ → σ) (key : ρ → κ)

theorem bringBack (h : s.Consistent) (hout : (s.resources r).inCache = false)
    (hacc : (s.resources r).accessCount ≠ 0) :
    (s.bringBack sessionID key r).Consistent := by
  have hmap : (s.setInMap sessionID key r).Consistent :=
    ⟨h.live, h.dead, h.mem_lruList, h.accessed, h.mem_liveDecodedResources, h.isSmall⟩
  have hnot := h.not_mem_liveDecodedResources hout
  unfold MemoryCache.bringBack
  dsimp only
  rw [resources_insertInLRUList, setInCache, resources_setResource_self]
  generalize hu : ((s.setInMap sessionID key r).setResource r
    { (s.setInMap sessionID key r).resources r with inCache := true }).insertInLRUList r = u
  have hdec : u.liveDecodedResources = s.liveDecodedResources := by
    subst hu
    rfl
  -- the resource is in the live decoded list if it is live and decoded
  obtain ⟨list, heq, hother, hself⟩ : ∃ list,
      (if ((s.setInMap sessionID key r).resources r).decodedSize ≠ 0 ∧
          ({ (s.setInMap sessionID key r).resources r with inCache := true } :
            CachedResource ρ γ).hasClients = true then
        u.insertInLiveDecodedResourcesList r else u) = { u with liveDecodedResources := list } ∧
      (∀ x, x ≠ r → x ∈ list → x ∈ s.liveDecodedResources) ∧
      (r ∈ list → (s.resources r).hasClients = true ∧ (s.resources r).decodedSize ≠ 0) := by
    split
    · rename_i hlive
      refine ⟨_, rfl, ?_, fun _ => ⟨hlive.2, hlive.1⟩⟩
      intro x hx hmem
      exact hdec ▸ (mem_add.mp hmem).resolve_right hx
    · exact ⟨_, rfl, fun x _ hmem => hdec ▸ hmem, fun hmem => absurd (hdec ▸ hmem) hnot⟩
  rw [heq, adjustSize_of_ne_zero]
  refine hmap.inserted { s.resources r with inCache := true } hout rfl hacc (h.isSmall r)
    ?_ ?_ ?_ ?_ ?_ ?_
  · rw [resources_adjustSize, ← hu]
    rfl
  · rw [allResources_adjustSize, ← hu]
    rfl
  · rw [liveSize_adjustSize, ← hu]
    rfl
  · rw [deadSize_adjustSize, ← hu]
    rfl
  · intro x hx hmem
    rw [liveDecodedResources_adjustSize] at hmem
    exact hother x hx hmem
  · intro hmem
    rw [liveDecodedResources_adjustSize] at hmem
    exact hself hmem

end BringBack

omit [DecidableEq ρ] in
theorem shrinkLists (h : s.Consistent) (hempty : (s.lruList i).isEmpty = true)
    (hle : s.allResources.length ≤ i + 1) : (s.shrinkLists i).Consistent := by
  have hlist : ∀ j r, r ∈ (s.shrinkLists i).lruList j ↔ r ∈ s.lruList j := by
    intro j r
    rw [lruList, MemoryCache.shrinkLists, getD_eq_getElem?_getD, getElem?_take]
    split
    · rw [lruList, getD_eq_getElem?_getD]
    · rename_i hij
      refine iff_of_false not_mem_empty ?_
      intro hmem
      have hlt := lt_length_of_mem hmem
      obtain rfl : j = i := by omega
      exact not_mem_of_isEmpty hempty hmem
  exact ⟨h.live, h.dead, fun r j => (hlist j r).trans (h.mem_lruList r j), h.accessed,
    h.mem_liveDecodedResources, h.isSmall⟩

theorem protect (h : s.Consistent) (next : Option ρ) : (s.protect next).Consistent := by
  cases next with
  | none => exact h
  | some next => exact h.registerHandle

theorem unprotect (h : s.Consistent) (next : Option ρ) : (s.unprotect next).Consistent := by
  cases next with
  | none => exact h
  | some next => exact h.unregisterHandle

end Consistent

end WebKit.Loader.MemoryCache
