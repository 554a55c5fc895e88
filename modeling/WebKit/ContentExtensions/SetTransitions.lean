import WebKit.ContentExtensions.EpsilonClosure

/-!
# The transitions of a set of nodes

What `populateTransitions` computes for a set of nodes: the fallback set has the nodes
reached by the transitions on any character, and a key that some node has a slot for gets
the nodes reached by its character, the fallback set among them for every key but 0.
-/

namespace WebKit.ContentExtensions

open Automata List IndexSet NFANode

namespace NFA

variable {nfa : NFA} {nodeIds : Set ℕ} {c : Character} {t : ℕ}

/-- The nodes reached by the transitions on any character. -/
def fallbackSet (nfa : NFA) (nodeIds : Set ℕ) : Set ℕ :=
  {t | ∃ nodeId ∈ nodeIds, ∃ target ∈ (nfa.nodeAt nodeId).transitionsOnAnyCharacter,
    t ∈ nfa.automaton.εClosure {target}}

/-- Some node of the set has a slot for the key. -/
def HasSlot (nfa : NFA) (nodeIds : Set ℕ) (key : ℕ) : Prop :=
  ∃ nodeId ∈ nodeIds, key ∈ (nfa.nodeAt nodeId).transitions

/-- The nodes reached by the slots for a character. -/
def slotSet (nfa : NFA) (nodeIds : Set ℕ) (key : ℕ) : Set ℕ :=
  {t | ∃ nodeId ∈ nodeIds, ∃ target ∈ (nfa.nodeAt nodeId).slot key,
    t ∈ nfa.automaton.εClosure {target}}

/-- The character has a transition of its own, apart from the fallback transition. -/
def IsIndividual (nfa : NFA) (nodeIds : Set ℕ) (c : Character) : Prop :=
  nfa.HasSlot nodeIds c ∧ (nfa.automaton.stepSet nodeIds c).Nonempty

theorem mem_stepSet : t ∈ nfa.automaton.stepSet nodeIds c ↔
    t ∈ nfa.slotSet nodeIds c ∨ c ≠ 0 ∧ t ∈ nfa.fallbackSet nodeIds := by
  rw [εNFA.mem_stepSet_iff]
  constructor
  · rintro ⟨nodeId, hnodeId, ht⟩
    obtain ⟨target, htarget, ht⟩ := (εNFA.mem_εClosure_iff_exists _).mp ht
    rcases mem_targets_some.mp (show target ∈ nfa.targets nodeId (some c) from htarget) with
      hslot | ⟨hc, hany⟩
    · exact .inl ⟨nodeId, hnodeId, target, hslot, ht⟩
    · exact .inr ⟨hc, nodeId, hnodeId, target, hany, ht⟩
  · rintro (⟨nodeId, hnodeId, target, hslot, ht⟩ | ⟨hc, nodeId, hnodeId, target, hany, ht⟩)
    · exact ⟨nodeId, hnodeId, (εNFA.mem_εClosure_iff_exists _).mpr
        ⟨target, mem_targets_some.mpr (.inl hslot), ht⟩⟩
    · exact ⟨nodeId, hnodeId, (εNFA.mem_εClosure_iff_exists _).mpr
        ⟨target, mem_targets_some.mpr (.inr ⟨hc, hany⟩), ht⟩⟩

theorem slotSet_eq_empty {key : ℕ} (h : ¬nfa.HasSlot nodeIds key) :
    nfa.slotSet nodeIds key = ∅ := by
  rw [Set.eq_empty_iff_forall_notMem]
  rintro t ⟨nodeId, hnodeId, target, hslot, -⟩
  exact h ⟨nodeId, hnodeId, mem_transitions_of_mem_slot hslot⟩

theorem stepSet_mono {nodeIds' : Set ℕ} (h : nodeIds ⊆ nodeIds') :
    nfa.automaton.stepSet nodeIds c ⊆ nfa.automaton.stepSet nodeIds' c :=
  Set.biUnion_subset_biUnion_left h

theorem IsIndividual.mono {nodeIds' : Set ℕ} (hsub : nodeIds ⊆ nodeIds')
    (h : nfa.IsIndividual nodeIds c) : nfa.IsIndividual nodeIds' c := by
  obtain ⟨⟨nodeId, hnodeId, hkey⟩, hstep⟩ := h
  exact ⟨⟨nodeId, hsub hnodeId, hkey⟩, hstep.mono (stepSet_mono hsub)⟩

theorem fallbackSet_subset_stepSet (nodeIds : Set ℕ) (hc : c ≠ 0) :
    nfa.fallbackSet nodeIds ⊆ nfa.automaton.stepSet nodeIds c :=
  fun _ ht => mem_stepSet.mpr (.inr ⟨hc, ht⟩)

theorem stepSet_of_not_hasSlot (h : ¬nfa.HasSlot nodeIds c) :
    nfa.automaton.stepSet nodeIds c = if c = 0 then ∅ else nfa.fallbackSet nodeIds := by
  ext t
  rw [mem_stepSet, slotSet_eq_empty h]
  by_cases hc : c = 0 <;> simp [hc]

end NFA

namespace NFAToDFA

variable {nfa : NFA} {nfaGraph : List NFANode} {nfaNodeClosures : List (List ℕ)}
  {set sourceNodeSet : NodeIdSet} {l : List ℕ} {t u key : ℕ}

namespace Resolved

variable (h : Resolved nfa nfaGraph nfaNodeClosures)

include h

theorem mem_extendSetWithClosure (ht : t < nfa.graphSize) :
    u ∈ extendSetWithClosure nfaNodeClosures t (set.add t) ↔
      u ∈ set ∨ u ∈ nfa.automaton.εClosure {t} := by
  rw [extendSetWithClosure, mem_addAll, mem_add, or_assoc, h.closure t ht u]

theorem mem_foldl_addTarget (hl : ∀ t ∈ l, t < nfa.graphSize) :
    u ∈ l.foldl (addTarget nfaNodeClosures) set ↔
      u ∈ set ∨ ∃ t ∈ l, u ∈ nfa.automaton.εClosure {t} := by
  induction l generalizing set with
  | nil => simp
  | cons t l ih =>
    rw [foldl_cons, ih fun t ht => hl t (mem_cons_of_mem _ ht), addTarget,
      h.mem_extendSetWithClosure (hl t mem_cons_self), exists_mem_cons_iff, or_assoc]

theorem mem_foldl_addFallbackTarget (hl : ∀ t ∈ l, t < nfa.graphSize)
    (hset : ∀ t ∈ set, ∀ u ∈ nfa.automaton.εClosure {t}, u ∈ set) :
    u ∈ l.foldl (addFallbackTarget nfaNodeClosures) set ↔
      u ∈ set ∨ ∃ t ∈ l, u ∈ nfa.automaton.εClosure {t} := by
  induction l generalizing set with
  | nil => simp
  | cons t l ih =>
    have hstep : ∀ u, u ∈ addFallbackTarget nfaNodeClosures set t ↔
        u ∈ set ∨ u ∈ nfa.automaton.εClosure {t} := by
      intro u
      unfold addFallbackTarget
      split
      · next ht => exact ⟨.inl, fun hu => hu.elim id (hset t ht u)⟩
      · exact h.mem_extendSetWithClosure (hl t mem_cons_self)
    have hclosed : ∀ v ∈ addFallbackTarget nfaNodeClosures set t,
        ∀ u ∈ nfa.automaton.εClosure {v}, u ∈ addFallbackTarget nfaNodeClosures set t := by
      intro v hv u hu
      rw [hstep] at hv ⊢
      rcases hv with hv | hv
      · exact .inl (hset v hv u hu)
      · exact .inr (εClosure_trans hv hu)
    rw [foldl_cons, ih (fun t ht => hl t (mem_cons_of_mem _ ht)) hclosed, hstep,
      exists_mem_cons_iff, or_assoc]

theorem mem_initialSet (hvalid : nfa.Valid) :
    u ∈ extendSetWithClosure nfaNodeClosures nfa.root ((∅ : NodeIdSet).add nfa.root) ↔
      u ∈ nfa.automaton.eval [] := by
  rw [h.mem_extendSetWithClosure hvalid.root, or_iff_right not_mem_empty]
  rfl

theorem mem_populateFallbackTransition (hvalid : nfa.Valid) :
    u ∈ populateFallbackTransition sourceNodeSet nfaGraph nfaNodeClosures ↔
      u ∈ nfa.fallbackSet sourceNodeSet.toSet := by
  have hmem : ∀ target, target ∈ (sourceNodeSet.elems.flatMap fun nodeId =>
      (nfaGraph.getD nodeId {}).transitionsOnAnyCharacter.elems) ↔
      ∃ nodeId ∈ sourceNodeSet, target ∈ (nfa.nodeAt nodeId).transitionsOnAnyCharacter := by
    intro target
    rw [mem_flatMap]
    simp only [h.transitionsOnAnyCharacter, mem_elems]
  have hlt : ∀ target ∈ (sourceNodeSet.elems.flatMap fun nodeId =>
      (nfaGraph.getD nodeId {}).transitionsOnAnyCharacter.elems), target < nfa.graphSize := by
    intro target htarget
    obtain ⟨nodeId, -, hany⟩ := (hmem target).mp htarget
    exact (hvalid.nodeAt nodeId).any target hany
  unfold populateFallbackTransition
  rw [h.mem_foldl_addFallbackTarget hlt fun t ht => absurd ht not_mem_empty,
    or_iff_right not_mem_empty]
  constructor
  · rintro ⟨target, htarget, hu⟩
    obtain ⟨nodeId, hnodeId, hany⟩ := (hmem target).mp htarget
    exact ⟨nodeId, hnodeId, target, hany, hu⟩
  · rintro ⟨nodeId, hnodeId, target, hany, hu⟩
    exact ⟨target, (hmem target).mpr ⟨nodeId, hnodeId, hany⟩, hu⟩

theorem mem_populateSlot {slot : NFANodeIndexSet} {setFallbackTransition : NodeIdSet}
    (hslot : ∀ t ∈ slot, t < nfa.graphSize) :
    u ∈ populateSlot nfaNodeClosures setFallbackTransition key slot set ↔
      u ∈ set ∨ (∃ t ∈ slot, u ∈ nfa.automaton.εClosure {t}) ∨
        key ≠ 0 ∧ u ∈ setFallbackTransition := by
  have htargets : u ∈ slot.elems.foldl (addTarget nfaNodeClosures) set ↔
      u ∈ set ∨ ∃ t ∈ slot.elems, u ∈ nfa.automaton.εClosure {t} := h.mem_foldl_addTarget hslot
  unfold populateSlot
  split
  · next hkey =>
    rw [mem_addAll, htargets, or_assoc, mem_elems]
    simp [hkey]
  · next hkey =>
    rw [htargets]
    simp [hkey]

end Resolved

theorem mem_foldl_modify {f : ℕ → NFANodeIndexSet → NodeIdSet → NodeIdSet}
    {P : ℕ → NFANodeIndexSet → ℕ → Prop} {slots : List (Sigma fun _ : ℕ => NFANodeIndexSet)}
    {setTransitions : SetTransitions} (hkey : key < setTransitions.length)
    (hf : ∀ slot ∈ slots, ∀ set, ∀ u, u ∈ f slot.1 slot.2 set ↔ u ∈ set ∨ P slot.1 slot.2 u) :
    u ∈ (slots.foldl (fun setTransitions slot =>
        setTransitions.modify slot.1 (f slot.1 slot.2)) setTransitions).getD key ∅ ↔
      u ∈ setTransitions.getD key ∅ ∨ ∃ slot ∈ slots, slot.1 = key ∧ P slot.1 slot.2 u := by
  induction slots generalizing setTransitions with
  | nil => simp
  | cons slot slots ih =>
    have hstep : u ∈ (setTransitions.modify slot.1 (f slot.1 slot.2)).getD key ∅ ↔
        u ∈ setTransitions.getD key ∅ ∨ slot.1 = key ∧ P slot.1 slot.2 u := by
      rw [getD_eq_getElem _ _ (by rw [length_modify]; exact hkey), getElem_modify,
        getD_eq_getElem _ _ hkey]
      split
      · next heq =>
        rw [hf slot mem_cons_self]
        simp [heq]
      · next hne => simp [hne]
    rw [foldl_cons, ih (by rw [length_modify]; exact hkey) fun slot hslot =>
      hf slot (mem_cons_of_mem _ hslot), hstep, exists_mem_cons_iff, or_assoc]

theorem Resolved.mem_populateSetTransitions (h : Resolved nfa nfaGraph nfaNodeClosures)
    (hvalid : nfa.Valid) {setFallbackTransition : NodeIdSet}
    (hfall : ∀ u, u ∈ setFallbackTransition ↔ u ∈ nfa.fallbackSet sourceNodeSet.toSet)
    (c : Character) :
    u ∈ (populateSetTransitions sourceNodeSet nfaGraph nfaNodeClosures
        setFallbackTransition).getD c ∅ ↔
      nfa.HasSlot sourceNodeSet.toSet c ∧ u ∈ nfa.automaton.stepSet sourceNodeSet.toSet c := by
  have hc : (c : ℕ) ≠ epsilonTransitionCharacter := by
    unfold epsilonTransitionCharacter
    omega
  have hempty : ∀ u, u ∉ emptySetTransitions.getD c ∅ := by
    intro u
    rw [emptySetTransitions, getD_replicate _ c.isLt]
    exact not_mem_empty
  -- the slots of the nodes of the set
  have hmem : ∀ key slot, Sigma.mk key slot ∈ (sourceNodeSet.elems.flatMap fun nodeId =>
      (nfaGraph.getD nodeId {}).transitions.entries) ↔ ∃ nodeId ∈ sourceNodeSet,
        (nfaGraph.getD nodeId {}).transitions.lookup key = some slot := by
    intro key slot
    rw [mem_flatMap]
    exact exists_congr fun nodeId => and_congr Iff.rfl AList.mem_lookup_iff.symm
  unfold populateSetTransitions
  rw [mem_foldl_modify (P := fun key slot u => (∃ t ∈ slot, u ∈ nfa.automaton.εClosure {t}) ∨
    key ≠ 0 ∧ u ∈ setFallbackTransition) (by simp [emptySetTransitions]), or_iff_right (hempty u)]
  · constructor
    · rintro ⟨⟨key, slot⟩, hslot, rfl, hu⟩
      obtain ⟨nodeId, hnodeId, hget⟩ := (hmem _ slot).mp hslot
      rw [h.lookup nodeId _ hc] at hget
      have hkey : (c : ℕ) ∈ (nfa.nodeAt nodeId).transitions := by
        rw [← AList.lookup_isSome, hget]
        rfl
      refine ⟨⟨nodeId, hnodeId, hkey⟩, NFA.mem_stepSet.mpr ?_⟩
      rcases hu with ⟨t, ht, hu⟩ | ⟨hne, hu⟩
      · rw [← slot_eq_of_lookup hget] at ht
        exact .inl ⟨nodeId, hnodeId, t, ht, hu⟩
      · exact .inr ⟨fun h0 => hne (by rw [h0]; rfl), (hfall u).mp hu⟩
    · rintro ⟨⟨nodeId, hnodeId, hkey⟩, hu⟩
      rcases NFA.mem_stepSet.mp hu with ⟨source, hsrc, t, ht, hu⟩ | ⟨hne, hu⟩
      · obtain ⟨slot, hget⟩ := Option.isSome_iff_exists.mp
          (AList.lookup_isSome.mpr (mem_transitions_of_mem_slot ht))
        rw [slot_eq_of_lookup hget] at ht
        rw [← h.lookup source _ hc] at hget
        exact ⟨⟨c, slot⟩, (hmem _ slot).mpr ⟨source, hsrc, hget⟩, rfl, .inl ⟨t, ht, hu⟩⟩
      · -- the fallback set comes with the slot of any node of the set
        obtain ⟨slot, hget⟩ := Option.isSome_iff_exists.mp (AList.lookup_isSome.mpr hkey)
        rw [← h.lookup nodeId _ hc] at hget
        have hne' : (c : ℕ) ≠ 0 := fun h0 => hne (Fin.ext h0)
        exact ⟨⟨c, slot⟩, (hmem _ slot).mpr ⟨nodeId, hnodeId, hget⟩, rfl,
          .inr ⟨hne', (hfall u).mpr hu⟩⟩
  · rintro ⟨key, slot⟩ hslot set u
    obtain ⟨nodeId, -, hget⟩ := (hmem _ slot).mp hslot
    refine h.mem_populateSlot fun t ht => ?_
    have hkey : key ≠ epsilonTransitionCharacter := by
      rintro rfl
      exact h.noEpsilonTransition nodeId (by rw [← AList.lookup_isSome, hget]; rfl)
    rw [h.lookup nodeId key hkey] at hget
    exact (hvalid.nodeAt nodeId).slot key t (by rwa [slot_eq_of_lookup hget])

end NFAToDFA

end WebKit.ContentExtensions
