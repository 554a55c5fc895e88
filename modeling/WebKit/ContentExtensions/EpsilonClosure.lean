import Mathlib.Data.List.GetD
import WebKit.ContentExtensions.NFAToDFA
import WebKit.Transition.Outcome

/-!
# What `resolveEpsilonClosures` computes

The loop of `epsilonClosureExcludingSelf` marks nodes from a worklist. Everything it marks
is in the epsilon closure of the node, what has been taken off the worklist has all its
targets marked, and every iteration takes one of at most `graphSize` nodes off. So its
output is the closure, up to the node itself.
-/

variable {nodeId fuel : ℕ}

open List

namespace WebKit.ContentExtensions

open Automata IndexSet NFANode

namespace NFA

variable {nodeId target : ℕ}

theorem mem_targets_none {nfa : NFA} : target ∈ nfa.targets nodeId none ↔
      target ∈ (nfa.nodes.getD nodeId {}).slot epsilonTransitionCharacter := by
  cases h : nfa.nodes[nodeId]? with
  | none =>
    have hslot : target ∉ slot {} epsilonTransitionCharacter := not_mem_empty
    simp [targets, h, hslot]
  | some node => simp [targets, h]

theorem mem_targets_some {nfa : NFA} {c : Character} : target ∈ nfa.targets nodeId (some c) ↔
      target ∈ (nfa.nodes.getD nodeId {}).slot c ∨
        c ≠ 0 ∧ target ∈ (nfa.nodes.getD nodeId {}).transitionsOnAnyCharacter := by
  cases h : nfa.nodes[nodeId]? with
  | none =>
    have hslot : target ∉ slot {} c := not_mem_empty
    have hany : target ∉ ({} : NFANode).transitionsOnAnyCharacter := not_mem_empty
    simp [targets, h, hslot, hany]
  | some node => simp [targets, h]

theorem Valid.targets_lt {nfa : NFA} (h : nfa.Valid)
    {c : Option Character} (ht : target ∈ nfa.targets nodeId c) : target < nfa.graphSize := by
  cases c with
  | none =>
    obtain ⟨node, hnode, ht⟩ := ht
    exact (h.node node (mem_of_getElem? hnode)).slot _ target ht
  | some c =>
    obtain ⟨node, hnode, ht | ⟨-, ht⟩⟩ := ht
    · exact (h.node node (mem_of_getElem? hnode)).slot _ target ht
    · exact (h.node node (mem_of_getElem? hnode)).any target ht

theorem Valid.closure_lt {nfa : NFA} (h : nfa.Valid) {nodeIds : Set ℕ}
    (hlt : ∀ t ∈ nodeIds, t < nfa.graphSize) :
    ∀ t ∈ nfa.automaton.εClosure nodeIds, t < nfa.graphSize :=
  εClosure_subset (B := {t | t < nfa.graphSize}) hlt fun s _ _ ht =>
    h.targets_lt (show _ ∈ nfa.targets s none from ht)

end NFA

namespace NFAToDFA

namespace Closure

variable {state : Closure} {l : List ℕ} {t : ℕ}

theorem visit_of_mem (h : t ∈ state.closure) : state.visit t = state := if_pos h

theorem visit_of_not_mem (h : t ∉ state.closure) :
    state.visit t = ⟨state.closure.add t, t :: state.unprocessedNodes, state.output ++ [t]⟩ :=
  if_neg h

theorem mem_closure_foldl : t ∈ (l.foldl visit state).closure ↔ t ∈ state.closure ∨ t ∈ l := by
  induction l generalizing state with
  | nil => simp
  | cons a l ih =>
    rw [foldl_cons, ih, mem_cons]
    by_cases h : a ∈ state.closure
    · rw [visit_of_mem h]
      grind
    · rw [visit_of_not_mem h, mem_add, or_assoc]

theorem mem_unprocessedNodes_foldl : t ∈ (l.foldl visit state).unprocessedNodes ↔
      t ∈ state.unprocessedNodes ∨ t ∉ state.closure ∧ t ∈ l := by
  induction l generalizing state with
  | nil => simp
  | cons a l ih =>
    rw [foldl_cons, ih, mem_cons]
    by_cases h : a ∈ state.closure
    · rw [visit_of_mem h]
      grind
    · rw [visit_of_not_mem h, mem_add, mem_cons]
      grind

theorem mem_output_foldl :
    t ∈ (l.foldl visit state).output ↔ t ∈ state.output ∨ t ∉ state.closure ∧ t ∈ l := by
  induction l generalizing state with
  | nil => simp
  | cons a l ih =>
    rw [foldl_cons, ih, mem_cons]
    by_cases h : a ∈ state.closure
    · rw [visit_of_mem h]
      grind
    · rw [visit_of_not_mem h, mem_add, mem_append, mem_singleton]
      grind

theorem length_foldl : (l.foldl visit state).unprocessedNodes.length + state.closure.elems.length =
      state.unprocessedNodes.length + (l.foldl visit state).closure.elems.length := by
  induction l generalizing state with
  | nil => rfl
  | cons a l ih =>
    rw [foldl_cons]
    by_cases h : a ∈ state.closure
    · rw [visit_of_mem h]
      exact ih
    · have hstep := @ih (state.visit a)
      have hclos : (state.visit a).closure.elems.length = state.closure.elems.length + 1 := by
        rw [visit_of_not_mem h, elems_add h, length_append, length_singleton]
      have hwork : (state.visit a).unprocessedNodes.length = state.unprocessedNodes.length + 1 := by
        rw [visit_of_not_mem h, length_cons]
      omega

end Closure

/-! ## The loop -/

/-- What holds each time the loop takes a node off the worklist. -/
structure ClosureInvariant (nfa : NFA) (nodeId fuel : ℕ) (state : Closure) : Prop where
  sound : ∀ t ∈ state.closure, t ∈ nfa.automaton.εClosure {nodeId}
  output : ∀ t, t ∈ state.closure ↔ t = nodeId ∨ t ∈ state.output
  marked : ∀ t ∈ state.unprocessedNodes, t ∈ state.closure
  closed : ∀ t ∈ state.closure, t ∉ state.unprocessedNodes →
    ∀ u ∈ nfa.targets t none, u ∈ state.closure
  fuel : state.unprocessedNodes.length + nfa.graphSize ≤ fuel + state.closure.elems.length

variable {state : Closure}

theorem ClosureInvariant.step {nfa : NFA} {nodeId fuel u : ℕ} {rest : List ℕ}
    (h : ClosureInvariant nfa nodeId (fuel + 1) state)
    (hstate : state.unprocessedNodes = u :: rest) :
    ClosureInvariant nfa nodeId fuel
      (((nfa.nodes.getD u {}).slot epsilonTransitionCharacter).elems.foldl Closure.visit
        { state with unprocessedNodes := rest }) := by
  have hu : u ∈ state.closure := h.marked u (by rw [hstate]; exact mem_cons_self)
  have htargets : ∀ t, t ∈ ((nfa.nodes.getD u {}).slot epsilonTransitionCharacter).elems ↔
      t ∈ nfa.targets u none := fun t => NFA.mem_targets_none.symm
  constructor
  · intro t ht
    rcases Closure.mem_closure_foldl.mp ht with ht | ht
    · exact h.sound t ht
    · exact εNFA.εClosure.step u t ((htargets t).mp ht) (h.sound u hu)
  · intro t
    rw [Closure.mem_closure_foldl, Closure.mem_output_foldl]
    have := h.output t
    grind
  · intro t ht
    rw [Closure.mem_closure_foldl]
    rcases Closure.mem_unprocessedNodes_foldl.mp ht with ht | ht
    · exact .inl (h.marked t (by rw [hstate]; exact mem_cons_of_mem u ht))
    · exact .inr ht.2
  · intro t ht hnot v hv
    rw [Closure.mem_unprocessedNodes_foldl] at hnot
    rw [Closure.mem_closure_foldl] at ht ⊢
    push Not at hnot
    have hold : t ∈ state.closure := by
      by_contra hnew
      exact ht.elim hnew (hnot.2 hnew)
    by_cases htu : t = u
    · subst htu
      exact .inr ((htargets v).mpr hv)
    · refine .inl (h.closed t hold ?_ v hv)
      rw [hstate, mem_cons]
      exact not_or.mpr ⟨htu, hnot.1⟩
  · have hlen := @Closure.length_foldl { state with unprocessedNodes := rest }
      ((nfa.nodes.getD u {}).slot epsilonTransitionCharacter).elems
    have hfuel := h.fuel
    rw [hstate, length_cons] at hfuel
    dsimp only at hlen
    omega

/-- Up to the node itself, the closure is the output once the worklist is empty. -/
theorem ClosureInvariant.done {nfa : NFA}
    (h : ClosureInvariant nfa nodeId fuel state) (hstate : state.unprocessedNodes = []) (t : ℕ) :
    t = nodeId ∨ t ∈ state.output ↔ t ∈ nfa.automaton.εClosure {nodeId} := by
  rw [← h.output]
  refine ⟨h.sound t, fun ht => ?_⟩
  refine εClosure_subset (B := {t | t ∈ state.closure}) ?_ ?_ ht
  · rintro _ rfl
    exact (h.output _).mpr (.inl rfl)
  · intro s hs u hu
    exact h.closed s hs (by rw [hstate]; exact not_mem_nil) u hu

theorem ClosureInvariant.fuel_pos {nfa : NFA}
    (hvalid : nfa.Valid) (hnodeId : nodeId < nfa.graphSize)
    (h : ClosureInvariant nfa nodeId fuel state) (hstate : state.unprocessedNodes ≠ []) :
    0 < fuel := by
  have hsub : ∀ t ∈ state.closure.elems, t ∈ range nfa.graphSize := by
    intro t ht
    refine mem_range.mpr (hvalid.closure_lt ?_ t (h.sound t ht))
    rintro _ rfl
    exact hnodeId
  have hcard := (subperm_of_subset state.closure.nodup hsub).length_le
  rw [length_range] at hcard
  have hpos := length_pos_iff.mpr hstate
  have hfuel := h.fuel
  omega

/-- From a worklist with a node the loop returns, and its output is the closure. -/
theorem closureLoop_spec {nfa : NFA} (hvalid : nfa.Valid)
    (hnodeId : nodeId < nfa.graphSize) (h : ClosureInvariant nfa nodeId fuel state)
    (hstate : state.unprocessedNodes ≠ []) :
    ∃ output, closureLoop nfa.nodes fuel state = .ok output ∧ (∀ t ∈ state.output, t ∈ output) ∧
      ∀ t, t = nodeId ∨ t ∈ output ↔ t ∈ nfa.automaton.εClosure {nodeId} := by
  induction fuel generalizing state with
  | zero => exact absurd (h.fuel_pos hvalid hnodeId hstate) (lt_irrefl 0)
  | succ fuel ih =>
    rw [closureLoop]
    split
    · next hnil => exact absurd hnil hstate
    · next u rest hrest =>
      have hnext := h.step hrest
      have houtput : ∀ t ∈ state.output, t ∈
          (((nfa.nodes.getD u {}).slot epsilonTransitionCharacter).elems.foldl Closure.visit
            { state with unprocessedNodes := rest }).output :=
        fun t ht => Closure.mem_output_foldl.mpr (.inl ht)
      dsimp only
      split
      · next hdone => exact ⟨_, rfl, houtput, hnext.done (isEmpty_iff.mp hdone)⟩
      · next hdone =>
        obtain ⟨output, hrun, hkept, hclos⟩ := ih hnext fun hnil => hdone (isEmpty_iff.mpr hnil)
        exact ⟨output, hrun, fun t ht => hkept t (houtput t ht), hclos⟩

end NFAToDFA

end WebKit.ContentExtensions

/-!
## A graph without epsilon transitions

What `resolveEpsilonClosures` leaves of a graph: the same transitions on characters, no
epsilon transition, and the epsilon closure of every node in a table beside the graph. It
crashes only on a slot of epsilon transitions that is there without a target, which the
building functions never make.
-/

open Automata Transition

namespace WebKit.ContentExtensions

namespace NFA

/-- No slot was left empty. -/
def EverySlotHasTarget (nfa : NFA) : Prop :=
  ∀ node ∈ nfa.nodes, ∀ key ∈ node.transitions, ∃ target, target ∈ node.slot key

/-- The node of an id, an empty one when there is none. -/
def nodeAt (nfa : NFA) (nodeId : ℕ) : NFANode := nfa.nodes.getD nodeId {}

theorem Valid.nodeAt {nfa : NFA} (h : nfa.Valid) (nodeId : ℕ) :
    (nfa.nodeAt nodeId).Valid nfa.graphSize := by
  by_cases hlt : nodeId < nfa.nodes.length
  · rw [NFA.nodeAt, getD_eq_getElem _ _ hlt]
    exact h.node _ (getElem_mem hlt)
  · rw [NFA.nodeAt, getD_eq_default _ _ (Nat.le_of_not_lt hlt)]
    exact .default

end NFA

namespace NFANode

variable {node : NFANode} {key target : ℕ} {slot : NFANodeIndexSet}

theorem slot_eq_of_lookup (h : node.transitions.lookup key = some slot) : node.slot key = slot := by
  rw [NFANode.slot, h, Option.getD_some]

theorem mem_transitions_of_mem_slot (h : target ∈ node.slot key) : key ∈ node.transitions := by
  rw [← AList.lookup_isSome]
  cases hget : node.transitions.lookup key with
  | some slot => rfl
  | none =>
    rw [NFANode.slot, hget] at h
    exact absurd h IndexSet.not_mem_empty

end NFANode

namespace NFAToDFA

/-- A crash at an epsilon transition without a target. -/
def IsEmptySlotCrash (nfa : NFA) (failure : Failure) : Prop :=
  failure = .crash ∧ ¬nfa.EverySlotHasTarget

/-- A list of the nodes of a closure, up to the node itself, empty only for a node without
epsilon transitions. -/
structure IsClosureOf (nfa : NFA) (nodeId : ℕ) (output : List ℕ) : Prop where
  mem : ∀ t, t = nodeId ∨ t ∈ output ↔ t ∈ nfa.automaton.εClosure {nodeId}
  ne_nil : epsilonTransitionCharacter ∈ (nfa.nodeAt nodeId).transitions → output ≠ []

theorem ClosureInvariant.initial {nfa : NFA} {slot : NFANodeIndexSet}
    (htargets : ∀ t, t ∈ slot ↔ t ∈ nfa.targets nodeId none) (hfuel : nfa.graphSize + 1 ≤ fuel) :
    ClosureInvariant nfa nodeId fuel
      ⟨((∅ : NodeIdSet).add nodeId).addAll slot.elems, slot.elems.reverse, slot.elems⟩ := by
  constructor
  · intro t ht
    rcases IndexSet.mem_addAll.mp ht with ht | ht
    · refine nfa.automaton.subset_εClosure _ ?_
      simpa using ht
    · exact εNFA.εClosure.step nodeId t ((htargets t).mp ht) (nfa.automaton.subset_εClosure _ rfl)
  · intro t
    simp
  · intro t ht
    exact IndexSet.mem_addAll.mpr (.inr (mem_reverse.mp ht))
  · intro t ht hnot u hu
    rw [mem_reverse] at hnot
    have htn : t = nodeId := by simpa [hnot] using ht
    exact IndexSet.mem_addAll.mpr (.inr ((htargets u).mpr (htn ▸ hu)))
  · have hsub : slot.elems.Subperm (((∅ : NodeIdSet).add nodeId).addAll slot.elems).elems :=
      subperm_of_subset slot.nodup fun t ht =>
        IndexSet.mem_elems.mpr (IndexSet.mem_addAll.mpr (.inr ht))
    have hle := hsub.length_le
    simp only [length_reverse]
    omega

theorem epsilonClosureExcludingSelf_spec {nfa : NFA} {nodeId : ℕ} (hvalid : nfa.Valid)
    (hnodeId : nodeId < nfa.graphSize) :
    Outcome (IsEmptySlotCrash nfa) (IsClosureOf nfa nodeId)
      (epsilonClosureExcludingSelf nfa.nodes nodeId) := by
  unfold epsilonClosureExcludingSelf
  split
  · next hget =>
    have hnot : epsilonTransitionCharacter ∉ (nfa.nodeAt nodeId).transitions := by
      rw [← AList.lookup_eq_none]
      exact hget
    refine .pure ⟨fun t => ?_, fun h => absurd h hnot⟩
    rw [or_iff_left not_mem_nil]
    constructor
    · rintro rfl
      exact nfa.automaton.subset_εClosure _ rfl
    · intro ht
      refine εClosure_subset (B := {nodeId}) subset_rfl ?_ ht
      rintro _ rfl u hu
      have hslot := NFANode.mem_transitions_of_mem_slot (NFA.mem_targets_none.mp hu)
      exact absurd hslot hnot
  · next slot hget =>
    have hslot : (nfa.nodes.getD nodeId {}).slot epsilonTransitionCharacter = slot :=
      NFANode.slot_eq_of_lookup hget
    have htargets : ∀ t, t ∈ slot ↔ t ∈ nfa.targets nodeId none := fun t => by
      rw [NFA.mem_targets_none, hslot]
    by_cases hempty : slot.elems = []
    · -- the slot is there without a target
      have hloop : closureLoop nfa.nodes (nfa.nodes.length + 1)
          ⟨((∅ : NodeIdSet).add nodeId).addAll slot.elems, slot.elems.reverse, slot.elems⟩ =
            .error .crash := by
        rw [closureLoop, hempty]
        rfl
      rw [hloop]
      refine ⟨rfl, fun hall => ?_⟩
      have hmem : nfa.nodes.getD nodeId {} ∈ nfa.nodes := by
        rw [getD_eq_getElem _ _ hnodeId]
        exact getElem_mem hnodeId
      have hkey : epsilonTransitionCharacter ∈ (nfa.nodes.getD nodeId {}).transitions := by
        rw [← AList.lookup_isSome, hget]
        rfl
      obtain ⟨target, htarget⟩ := hall _ hmem _ hkey
      rw [hslot, ← IndexSet.mem_elems, hempty] at htarget
      exact not_mem_nil htarget
    · have hinv := ClosureInvariant.initial htargets (le_refl (nfa.graphSize + 1))
      obtain ⟨output, hrun, hkept, hclos⟩ :=
        closureLoop_spec hvalid hnodeId hinv (by simpa using hempty)
      refine .of_eq_ok hrun ⟨hclos, fun _ hnil => ?_⟩
      obtain ⟨t, ht⟩ := exists_mem_of_ne_nil _ hempty
      have hmem := hkept t ht
      rw [hnil] at hmem
      exact not_mem_nil hmem

structure Resolved (nfa : NFA) (nfaGraph : List NFANode) (nfaNodeClosures : List (List ℕ)) :
    Prop where
  closure : ∀ nodeId < nfa.graphSize, ∀ t,
    t = nodeId ∨ t ∈ nfaNodeClosures.getD nodeId [] ↔ t ∈ nfa.automaton.εClosure {nodeId}
  lookup : ∀ nodeId, ∀ key ≠ epsilonTransitionCharacter,
    (nfaGraph.getD nodeId {}).transitions.lookup key = (nfa.nodeAt nodeId).transitions.lookup key
  noEpsilonTransition : ∀ nodeId,
    epsilonTransitionCharacter ∉ (nfaGraph.getD nodeId {}).transitions
  transitionsOnAnyCharacter : ∀ nodeId, (nfaGraph.getD nodeId {}).transitionsOnAnyCharacter =
    (nfa.nodeAt nodeId).transitionsOnAnyCharacter
  finalRuleIds : ∀ nodeId,
    (nfaGraph.getD nodeId {}).finalRuleIds = (nfa.nodeAt nodeId).finalRuleIds

theorem resolveEpsilonClosures_spec {nfa : NFA} (hvalid : nfa.Valid) :
    Outcome (IsEmptySlotCrash nfa) (fun result => Resolved nfa result.1 result.2)
      (resolveEpsilonClosures nfa.nodes) := by
  have hclosures := Outcome.mapM fun nodeId hnodeId =>
    epsilonClosureExcludingSelf_spec hvalid (mem_range.mp hnodeId)
  refine hclosures.bind fun nfaNodeClosures hall => .pure ?_
  have hlen : nfaNodeClosures.length = nfa.graphSize := by
    rw [← hall.length_eq, length_range]
  have hclos : ∀ nodeId < nfa.graphSize,
      IsClosureOf nfa nodeId (nfaNodeClosures.getD nodeId []) := by
    intro nodeId hnodeId
    have hget := forall₂_iff_get.mp hall |>.2 nodeId
      (by rw [length_range]; exact hnodeId) (by rw [hlen]; exact hnodeId)
    rw [getD_eq_getElem _ _ (by rw [hlen]; exact hnodeId)]
    simpa using hget
  -- a node of the graph that is left, from the node it was
  have hnode : ∀ nodeId, (nfa.nodes.mapIdx fun nodeId node =>
      if (nfaNodeClosures.getD nodeId []).isEmpty then node
      else { node with transitions := node.transitions.erase epsilonTransitionCharacter }).getD
        nodeId {} =
      if (nfaNodeClosures.getD nodeId []).isEmpty then nfa.nodeAt nodeId
      else { nfa.nodeAt nodeId with
        transitions := (nfa.nodeAt nodeId).transitions.erase epsilonTransitionCharacter } := by
    intro nodeId
    by_cases hlt : nodeId < nfa.nodes.length
    · rw [getD_eq_getElem _ _ (by rw [length_mapIdx]; exact hlt), getElem_mapIdx,
        NFA.nodeAt, getD_eq_getElem _ _ hlt]
    · have hle := Nat.le_of_not_lt hlt
      rw [getD_eq_default _ _ (by rw [length_mapIdx]; exact hle),
        getD_eq_default _ _ (by rw [hlen]; exact hle), NFA.nodeAt,
        getD_eq_default _ _ hle]
      rfl
  refine ⟨fun nodeId hnodeId => (hclos nodeId hnodeId).mem, fun nodeId key hkey => ?_,
    fun nodeId => ?_, fun nodeId => ?_, fun nodeId => ?_⟩
  · rw [hnode]
    split
    · rfl
    · exact AList.lookup_erase_ne hkey
  · rw [hnode]
    split
    · next hempty =>
      intro hmem
      by_cases hlt : nodeId < nfa.graphSize
      · exact (hclos nodeId hlt).ne_nil hmem (isEmpty_iff.mp hempty)
      · rw [NFA.nodeAt, getD_eq_default _ _ (Nat.le_of_not_lt hlt)] at hmem
        exact AList.notMem_empty _ hmem
    · intro hmem
      exact (AList.mem_erase.mp hmem).1 rfl
  · rw [hnode]
    split <;> rfl
  · rw [hnode]
    split <;> rfl

namespace Resolved

end Resolved

end NFAToDFA

end WebKit.ContentExtensions
