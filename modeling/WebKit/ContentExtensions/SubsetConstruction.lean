import WebKit.ContentExtensions.Interning

/-!
# `convert` is the subset construction

Every set of the table is processed once, and each gets the transitions of the automaton
from that set. So the result tracks the automaton of the graph, and a run ends in the node
of the set of nodes that the word leads to. The conversion returns unless a release
assertion fails, and there is one that fails exactly when such a set has too many actions
or individual transitions for a node.
-/

open Automata Transition List

namespace WebKit.ContentExtensions

namespace NFAToDFA

variable {nfa : NFA} {nfaGraph : List NFANode} {nfaNodeClosures : List (List ℕ)}
  {order : ActionOrder} {builder builder' : Builder} {location : UniqueNodeIdSet}
  {node : DFANode} {dfaNodeId fuel : ℕ} {transitions : List (ℕ × ℕ)}

/-- Another node in the place of one, with the same actions. -/
def Builder.setNode (builder : Builder) (dfaNodeId : ℕ) (node : DFANode)
    (transitions : List (ℕ × ℕ)) : Builder :=
  { builder with dfa := { builder.dfa with
      transitions := transitions, nodes := builder.dfa.nodes.set dfaNodeId node } }

theorem Interned.setNode (h : Interned nfa builder)
    (hnode : builder.dfa.nodes[dfaNodeId]? = some node) (node' : DFANode)
    (hstart : node'.actionsStart = node.actionsStart)
    (hlen : node'.actionsLength = node.actionsLength) (transitions : List (ℕ × ℕ)) :
    Interned nfa (builder.setNode dfaNodeId node' transitions) := by
  refine h.of_dfa rfl ?_
  obtain ⟨hlt, hget⟩ := List.getElem?_eq_some_iff.mp hnode
  rw [map_set, hstart, hlen, ← hget]
  apply ext_getElem?
  intro i
  rw [List.getElem?_set]
  split
  · next heq =>
    subst heq
    simp [hlt]
  · rfl

/-- The graph and the table grow at their ends, and one node changes. -/
structure Changed (dfaNodeId : ℕ) (builder builder' : Builder) : Prop where
  table : ∃ l, builder'.uniqueNodeIdSetTable = builder.uniqueNodeIdSetTable ++ l ∧
    builder'.unprocessedNodes = l.reverse ++ builder.unprocessedNodes
  old : ∀ id ≠ dfaNodeId, ∀ node, builder.dfa.nodes[id]? = some node →
    builder'.dfa.nodes[id]? = some node
  new : ∀ id ≥ builder.dfa.nodes.length, ∀ node, builder'.dfa.nodes[id]? = some node →
    node.hasFallbackTransition = false
  transitions : builder.dfa.transitions <+: builder'.dfa.transitions
  root : builder'.dfa.root = builder.dfa.root

theorem Grown.changed (h : Grown builder builder') : Changed dfaNodeId builder builder' where
  table := h.table
  old _ _ _ hnode := h.getElem? hnode
  new id hid node hnode := by
    obtain ⟨l, hnodes, hl⟩ := h.nodes
    rw [hnodes, getElem?_append_right hid] at hnode
    exact hl node (mem_of_getElem? hnode)
  transitions := h.transitions
  root := h.root

theorem changed_setNode (dfaNodeId : ℕ) (node : DFANode)
    (htrans : builder.dfa.transitions <+: transitions) :
    Changed dfaNodeId builder (builder.setNode dfaNodeId node transitions) where
  table := ⟨[], (append_nil _).symm, rfl⟩
  old id hid node' hnode := by
    change (builder.dfa.nodes.set dfaNodeId node)[id]? = some node'
    rw [List.getElem?_set_ne (Ne.symm hid), hnode]
  new id hid node' hnode := by
    obtain ⟨hlt, -⟩ := List.getElem?_eq_some_iff.mp hnode
    change id < (builder.dfa.nodes.set dfaNodeId node).length at hlt
    rw [length_set] at hlt
    exact absurd hlt (Nat.not_lt.mpr hid)
  transitions := htrans
  root := rfl

theorem Changed.trans {builder'' : Builder} (hlt : dfaNodeId < builder.dfa.nodes.length)
    (h : Changed dfaNodeId builder builder') (h' : Changed dfaNodeId builder' builder'') :
    Changed dfaNodeId builder builder'' where
  table := by
    obtain ⟨l, htable, hstack⟩ := h.table
    obtain ⟨l', htable', hstack'⟩ := h'.table
    refine ⟨l ++ l', ?_, ?_⟩
    · rw [htable', htable, append_assoc]
    · rw [hstack', hstack, reverse_append, append_assoc]
  old id hid node hnode := h'.old id hid node (h.old id hid node hnode)
  new id hid node hnode := by
    by_cases hold : id < builder'.dfa.nodes.length
    · have hget := getElem?_eq_getElem hold
      have hsame := h'.old id (hlt.trans_le hid).ne' _ hget
      rw [hsame, Option.some.injEq] at hnode
      exact hnode ▸ h.new id hid _ hget
    · exact h'.new id (Nat.le_of_not_lt hold) node hnode
  transitions := h.transitions.trans h'.transitions
  root := h'.root.trans h.root

theorem Changed.denotes (h : Changed dfaNodeId builder builder') {id : ℕ} {nodeIds : Set ℕ}
    (hset : builder.Denotes id nodeIds) : builder'.Denotes id nodeIds := by
  obtain ⟨l, htable, -⟩ := h.table
  obtain ⟨location, hlocation, hid, hset⟩ := hset
  exact ⟨location, htable ▸ mem_append_left l hlocation, hid, hset⟩

def Processed (nfa : NFA) (builder : Builder) (location : UniqueNodeIdSet) : Prop :=
  ∃ node, builder.dfa.nodes[location.dfaNodeId]? = some node ∧
    NodeProcessed nfa builder location.nodeIdSet.toSet node

theorem appendFallbackTransition_spec (hresolved : Resolved nfa nfaGraph nfaNodeClosures)
    {setFallbackTransition : NodeIdSet} {nodeIds : Set ℕ} {w : List Character}
    (hinterned : Interned nfa builder)
    (hfall : ∀ u, u ∈ setFallbackTransition ↔ u ∈ nfa.fallbackSet nodeIds)
    (hw : nodeIds ⊆ nfa.automaton.eval w)
    (hnode : builder.dfa.nodes[dfaNodeId]? = some node)
    (hend : node.fallbackIndex = builder.dfa.transitions.length)
    (hnone : node.hasFallbackTransition = false)
    (htrans : HasTransitions nfa builder nodeIds node) :
    Outcome (IsActionsCrash nfa)
      (fun builder' => Interned nfa builder' ∧ Changed dfaNodeId builder builder' ∧
        ∃ node, builder'.dfa.nodes[dfaNodeId]? = some node ∧
          NodeProcessed nfa builder' nodeIds node)
      (appendFallbackTransition order nfaGraph dfaNodeId setFallbackTransition builder) := by
  have hset : setFallbackTransition.toSet = nfa.fallbackSet nodeIds := Set.ext hfall
  have hlt : dfaNodeId < builder.dfa.nodes.length := (List.getElem?_eq_some_iff.mp hnode).1
  unfold appendFallbackTransition
  split
  · next hempty =>
    have hnot : ¬(nfa.fallbackSet nodeIds).Nonempty := by
      rintro ⟨u, hu⟩
      exact IndexSet.isEmpty_iff.mp hempty u ((hfall u).mpr hu)
    refine .pure ⟨hinterned, Grown.refl.changed, node, hnode, htrans, ?_, ?_⟩
    · simp [hnone, hnot]
    · simp [hnone]
  · next hne =>
    rw [IndexSet.isEmpty_iff] at hne
    push Not at hne
    obtain ⟨u, hu⟩ := hne
    have hnonempty : (nfa.fallbackSet nodeIds).Nonempty := ⟨u, (hfall u).mp hu⟩
    have hreached : IsReached nfa setFallbackTransition.toSet := by
      rw [hset]
      refine ⟨hnonempty, w ++ [1], ?_⟩
      rw [εNFA.eval_append_singleton]
      exact (nfa.fallbackSet_subset_stepSet nodeIds (by decide)).trans (NFA.stepSet_mono hw)
    refine (getOrCreateDFANode_spec hresolved hinterned hreached).bind ?_
    rintro ⟨builder', targetNodeId⟩ ⟨hinterned', hgrown, hsame, hdenotes⟩
    have hnode' := hgrown.getElem? hnode
    have hgetD : builder'.dfa.nodes.getD dfaNodeId {} = node := by
      rw [getD_eq_getElem?_getD, hnode', Option.getD_some]
    have hadd : builder'.dfa.addFallbackTransition dfaNodeId targetNodeId =
        some { builder'.dfa with
          transitions := builder'.dfa.transitions ++ [(fallbackTransitionCharacter, targetNodeId)]
          nodes := builder'.dfa.nodes.set dfaNodeId
            { node with hasFallbackTransition := true } } := by
      unfold DFA.addFallbackTransition
      rw [hgetD, if_pos (by rw [hsame, hend])]
    dsimp only
    rw [hadd]
    have hpre : builder'.dfa.transitions <+:
        builder'.dfa.transitions ++ [(fallbackTransitionCharacter, targetNodeId)] :=
      prefix_append ..
    have hset' := changed_setNode dfaNodeId { node with hasFallbackTransition := true } hpre
    have hchanged := (Grown.changed hgrown).trans hlt hset'
    -- the individual transitions do not depend on the flag
    have hindividual : HasTransitions nfa builder nodeIds
        { node with hasFallbackTransition := true } :=
      ⟨htrans.fallbackIndex, htrans.transitionsLength, htrans.sorted,
        htrans.individual, htrans.target⟩
    replace hindividual := hindividual.mono hchanged.transitions fun _ _ h => hchanged.denotes h
    have hinterned1 : Interned nfa (builder'.setNode dfaNodeId
        { node with hasFallbackTransition := true } (builder'.dfa.transitions ++
          [(fallbackTransitionCharacter, targetNodeId)])) :=
      hinterned'.setNode hnode' { node with hasFallbackTransition := true } rfl rfl _
    refine .pure ⟨hinterned1, hchanged,
      { node with hasFallbackTransition := true }, ?_, hindividual,
      ⟨fun _ => hnonempty, fun _ => rfl⟩, fun _ => ⟨targetNodeId, ?_, ?_⟩⟩
    · have hlt' := (List.getElem?_eq_some_iff.mp hnode').1
      exact getElem?_set_self hlt'
    · change (builder'.dfa.transitions ++ _)[node.fallbackIndex]? = _
      rw [hend, ← hsame, getElem?_append_right le_rfl, Nat.sub_self]
      rfl
    · rw [← hset]
      exact hset'.denotes hdenotes

/-- The loop over the keys, for a set that has been taken off the stack. -/
def appendTransitions (order : ActionOrder) (nfaGraph : List NFANode)
    (nfaNodeClosures : List (List ℕ)) (uniqueNodeIdSet : UniqueNodeIdSet) (builder : Builder) :
    Except Failure Builder :=
  (List.range 128).foldlM (appendTransition order nfaGraph (populateSetTransitions
    uniqueNodeIdSet.nodeIdSet nfaGraph nfaNodeClosures (populateFallbackTransition
      uniqueNodeIdSet.nodeIdSet nfaGraph nfaNodeClosures))) builder

/-- The set gets `n` individual transitions. -/
def GetsTransitionsAt (order : ActionOrder) (nfaGraph : List NFANode)
    (nfaNodeClosures : List (List ℕ)) (uniqueNodeIdSet : UniqueNodeIdSet) (builder : Builder)
    (n : ℕ) : Prop :=
  ∃ builder', appendTransitions order nfaGraph nfaNodeClosures uniqueNodeIdSet builder =
    .ok builder' ∧ builder'.dfa.transitions.length - builder.dfa.transitions.length = n

section ProcessNode

variable (hvalid : nfa.Valid) (hresolved : Resolved nfa nfaGraph nfaNodeClosures)
  (hinterned : Interned nfa builder) (hlocation : location ∈ builder.uniqueNodeIdSetTable)

include hvalid hresolved

theorem isPopulated :
    IsPopulated nfa location.nodeIdSet.toSet (populateSetTransitions location.nodeIdSet nfaGraph
      nfaNodeClosures (populateFallbackTransition location.nodeIdSet nfaGraph nfaNodeClosures)) :=
  fun c _ => hresolved.mem_populateSetTransitions hvalid
    (fun _ => hresolved.mem_populateFallbackTransition hvalid) c

include hinterned hlocation

theorem appendTransitions_outcome (order : ActionOrder) :
    Outcome (IsActionsCrash nfa) (Appended nfa (populateSetTransitions location.nodeIdSet nfaGraph
        nfaNodeClosures (populateFallbackTransition location.nodeIdSet nfaGraph nfaNodeClosures))
        builder (range 128))
      (appendTransitions order nfaGraph nfaNodeClosures location builder) := by
  obtain ⟨-, w, hw⟩ := hinterned.reached location hlocation
  exact appendTransitions_spec hresolved hinterned fun key hkey hne =>
    (isPopulated hvalid hresolved).isReached hw hkey hne

theorem isIndividual_of_getsTransitionsAt {n : ℕ}
    (h : GetsTransitionsAt order nfaGraph nfaNodeClosures location builder n) (hn : 127 < n)
    (c : Character) : nfa.IsIndividual location.nodeIdSet.toSet c := by
  obtain ⟨builder', hrun, hlen⟩ := h
  obtain ⟨l, htrans, hkeys, -⟩ :=
    ((appendTransitions_outcome hvalid hresolved hinterned hlocation order).of_ok hrun).transitions
  refine (isPopulated hvalid hresolved).forall_isIndividual ?_ c
  rw [← hkeys, length_map]
  rw [htrans, length_append] at hlen
  omega

theorem processNode_spec (hnode : builder.dfa.nodes[location.dfaNodeId]? = some node)
    (hnone : node.hasFallbackTransition = false) :
    Outcome (fun failure => IsActionsCrash nfa failure ∨ failure = .crash ∧
        ∃ n > 127, GetsTransitionsAt order nfaGraph nfaNodeClosures location builder n)
      (fun builder' => Interned nfa builder' ∧ Changed location.dfaNodeId builder builder' ∧
        Processed nfa builder' location)
      (processNode order nfaGraph nfaNodeClosures location builder) := by
  obtain ⟨-, w, hw⟩ := hinterned.reached location hlocation
  have hlt := (List.getElem?_eq_some_iff.mp hnode).1
  have houtcome := appendTransitions_outcome hvalid hresolved hinterned hlocation order
  have hproc : processNode order nfaGraph nfaNodeClosures location builder =
      (appendTransitions order nfaGraph nfaNodeClosures location builder).bind fun builder' =>
        (setNodeTransitions location.dfaNodeId builder.dfa.transitions.length builder').bind
          (appendFallbackTransition order nfaGraph location.dfaNodeId
            (populateFallbackTransition location.nodeIdSet nfaGraph nfaNodeClosures)) := rfl
  rw [hproc]
  cases hrun : appendTransitions order nfaGraph nfaNodeClosures location builder with
  | error failure => exact .inl (houtcome.of_error hrun)
  | ok builder1 =>
    have happended := houtcome.of_ok hrun
    by_cases hlen : builder1.dfa.transitions.length - builder.dfa.transitions.length ≤ 127
    · have hnode1 := happended.grown.getElem? hnode
      have hlt1 := (List.getElem?_eq_some_iff.mp hnode1).1
      have hle := happended.grown.transitions.length_le
      have hindividual := happended.hasTransitions node (isPopulated hvalid hresolved) hlen
      obtain ⟨node1, hnode1'⟩ : ∃ node1, node1 = { node with
        transitionsStart := builder.dfa.transitions.length
        transitionsLength := builder1.dfa.transitions.length -
          builder.dfa.transitions.length } := ⟨_, rfl⟩
      rw [← hnode1'] at hindividual
      have hset : setNodeTransitions location.dfaNodeId builder.dfa.transitions.length builder1 =
          .ok (builder1.setNode location.dfaNodeId node1 builder1.dfa.transitions) := by
        unfold setNodeTransitions
        rw [if_pos hlen, modify_eq_set_getElem?, hnode1, hnode1']
        rfl
      have hchanged1 := (happended.grown.changed).trans hlt
        (changed_setNode location.dfaNodeId node1 prefix_rfl)
      have hend : node1.fallbackIndex = builder1.dfa.transitions.length := by
        rw [hnode1']
        change builder.dfa.transitions.length + (builder1.dfa.transitions.length -
          builder.dfa.transitions.length) = builder1.dfa.transitions.length
        omega
      have hinterned1 : Interned nfa
          (builder1.setNode location.dfaNodeId node1 builder1.dfa.transitions) :=
        happended.interned.setNode hnode1 node1 (by rw [hnode1']) (by rw [hnode1']) _
      dsimp only [Except.bind]
      rw [hset]
      refine ((appendFallbackTransition_spec hresolved hinterned1
        (fun _ => hresolved.mem_populateFallbackTransition hvalid) hw
        (List.getElem?_set_self hlt1) hend (by rw [hnode1']; exact hnone)
        (hindividual.mono prefix_rfl fun _ _ h => h)).mono ?_).mono_fails fun _ => .inl
      rintro builder2 ⟨hinterned2, hchanged2, hprocessed⟩
      exact ⟨hinterned2, hchanged1.trans hlt hchanged2, hprocessed⟩
    · have hcrash : setNodeTransitions location.dfaNodeId builder.dfa.transitions.length
          builder1 = .error .crash := if_neg hlen
      dsimp only [Except.bind]
      rw [hcrash]
      exact .inr ⟨rfl, _, Nat.lt_of_not_le hlen, builder1, hrun, rfl⟩

end ProcessNode

/-! ## The loop -/

/-- What holds each time the loop takes a set off the stack. -/
structure ConvertInvariant (nfa : NFA) (fuel : ℕ) (builder : Builder) : Prop where
  interned : Interned nfa builder
  nodup : builder.unprocessedNodes.Nodup
  pending : ∀ location ∈ builder.unprocessedNodes, ∃ node,
    builder.dfa.nodes[location.dfaNodeId]? = some node ∧ node.hasFallbackTransition = false
  processed : ∀ location ∈ builder.uniqueNodeIdSetTable,
    location ∉ builder.unprocessedNodes → Processed nfa builder location
  root : builder.Denotes builder.dfa.root (nfa.automaton.eval [])
  fuel : builder.unprocessedNodes.length + 2 ^ nfa.nodes.length ≤
    fuel + builder.uniqueNodeIdSetTable.length

variable {rest : List UniqueNodeIdSet}

theorem ConvertInvariant.step (h : ConvertInvariant nfa (fuel + 1) builder)
    (hstack : builder.unprocessedNodes = location :: rest)
    (hinterned : Interned nfa builder')
    (hchanged : Changed location.dfaNodeId { builder with unprocessedNodes := rest } builder')
    (hproc : Processed nfa builder' location) : ConvertInvariant nfa fuel builder' := by
  obtain ⟨l, htable, hunproc⟩ := hchanged.table
  dsimp only at htable hunproc
  have hlocation : location ∈ builder.uniqueNodeIdSetTable :=
    h.interned.unprocessed location (hstack ▸ mem_cons_self)
  have hnodup := h.nodup
  rw [hstack, nodup_cons] at hnodup
  have hrest : ∀ u ∈ rest, u ∈ builder.uniqueNodeIdSetTable := fun u hu =>
    h.interned.unprocessed u (hstack ▸ mem_cons_of_mem _ hu)
  have hnew : (builder.uniqueNodeIdSetTable ++ l).Nodup := by
    rw [← htable]
    exact hinterned.distinct.of_map
  obtain ⟨-, hl, hdisj⟩ := nodup_append.mp hnew
  refine ⟨hinterned, ?_, fun u hu => ?_, fun u hu hnot => ?_, ?_, ?_⟩
  · rw [hunproc, nodup_append]
    refine ⟨nodup_reverse.mpr hl, hnodup.2, fun u hu v hv => ?_⟩
    exact (hdisj v (hrest v hv) u (mem_reverse.mp hu)).symm
  · rw [hunproc] at hu
    rcases mem_append.mp hu with hu | hu
    · -- a new set
      have hmem : u ∈ builder'.uniqueNodeIdSetTable :=
        htable ▸ mem_append_right _ (mem_reverse.mp hu)
      have hlt := hinterned.dfaNodeId_lt hmem
      refine ⟨_, getElem?_eq_getElem hlt, hchanged.new _ ?_ _ (getElem?_eq_getElem hlt)⟩
      by_contra hold
      obtain ⟨v, hv, hid⟩ := h.interned.exists_denotes (Nat.lt_of_not_le hold)
      have hmem' : v ∈ builder'.uniqueNodeIdSetTable := htable ▸ mem_append_left l hv
      exact hdisj v hv u (mem_reverse.mp hu) (hinterned.eq_of_dfaNodeId hmem' hmem hid)
    · obtain ⟨node, hnode, hnone⟩ := h.pending u (hstack ▸ mem_cons_of_mem _ hu)
      refine ⟨node, hchanged.old _ (fun hid => hnodup.1 ?_) node hnode, hnone⟩
      rwa [← h.interned.eq_of_dfaNodeId (hrest u hu) hlocation hid]
  · rw [hunproc, mem_append, not_or, mem_reverse] at hnot
    rw [htable, mem_append, or_iff_left hnot.1] at hu
    by_cases heq : u = location
    · exact heq ▸ hproc
    · have hdone : u ∉ builder.unprocessedNodes := by
        rw [hstack, mem_cons, not_or]
        exact ⟨heq, hnot.2⟩
      obtain ⟨node, hnode, hnodeProcessed⟩ := h.processed u hu hdone
      refine ⟨node, hchanged.old _ (fun hid => heq ?_) node hnode,
        hnodeProcessed.mono hchanged.transitions fun _ _ hset => hchanged.denotes hset⟩
      exact h.interned.eq_of_dfaNodeId hu hlocation hid
  · rw [hchanged.root]
    exact hchanged.denotes h.root
  · have hfuel := h.fuel
    rw [hstack, length_cons] at hfuel
    rw [htable, hunproc, length_append, length_append, length_reverse]
    omega

theorem ConvertInvariant.mono {fuel' : ℕ} (h : ConvertInvariant nfa fuel builder)
    (hle : fuel ≤ fuel') : ConvertInvariant nfa fuel' builder :=
  { h with fuel := h.fuel.trans (Nat.add_le_add_right hle _) }

theorem ConvertInvariant.pop (h : ConvertInvariant nfa fuel builder)
    (hstack : builder.unprocessedNodes = location :: rest) :
    Interned nfa { builder with unprocessedNodes := rest } :=
  { h.interned with
    unprocessed := fun u hu => h.interned.unprocessed u (hstack ▸ mem_cons_of_mem _ hu) }

/-- The builders with which the loop is entered. -/
inductive LoopState (order : ActionOrder) (nfaGraph : List NFANode)
    (nfaNodeClosures : List (List ℕ)) (start : Builder) : Builder → Prop
  | start : LoopState order nfaGraph nfaNodeClosures start start
  | next {builder builder' : Builder} {location : UniqueNodeIdSet} {rest : List UniqueNodeIdSet} :
    LoopState order nfaGraph nfaNodeClosures start builder →
    builder.unprocessedNodes = location :: rest →
    processNode order nfaGraph nfaNodeClosures location
      { builder with unprocessedNodes := rest } = .ok builder' →
    LoopState order nfaGraph nfaNodeClosures start builder'

theorem ConvertInvariant.processNode (order : ActionOrder) (hvalid : nfa.Valid)
    (hresolved : Resolved nfa nfaGraph nfaNodeClosures)
    (h : ConvertInvariant nfa (fuel + 1) builder)
    (hstack : builder.unprocessedNodes = location :: rest) :
    Outcome (fun failure => IsActionsCrash nfa failure ∨ failure = .crash ∧
        ∃ n > 127, GetsTransitionsAt order nfaGraph nfaNodeClosures location
          { builder with unprocessedNodes := rest } n)
      (ConvertInvariant nfa fuel)
      (processNode order nfaGraph nfaNodeClosures location
        { builder with unprocessedNodes := rest }) := by
  have hlocation : location ∈ builder.unprocessedNodes := hstack ▸ mem_cons_self
  obtain ⟨node, hnode, hnone⟩ := h.pending location hlocation
  refine (processNode_spec hvalid hresolved (h.pop hstack)
    (h.interned.unprocessed location hlocation) hnode hnone).mono ?_
  rintro builder' ⟨hinterned, hchanged, hproc⟩
  exact h.step hstack hinterned hchanged hproc

theorem LoopState.invariant {start : Builder} (hvalid : nfa.Valid)
    (hresolved : Resolved nfa nfaGraph nfaNodeClosures) (hstart : ConvertInvariant nfa fuel start)
    (h : LoopState order nfaGraph nfaNodeClosures start builder) :
    ConvertInvariant nfa fuel builder := by
  induction h with
  | start => exact hstart
  | next _ hstack hrun ih =>
    exact ((ih.mono (Nat.le_succ _)).processNode order hvalid hresolved hstack).of_ok hrun

/-- The builder of a finished conversion. -/
structure Converted (nfa : NFA) (builder : Builder) : Prop where
  interned : Interned nfa builder
  processed : ∀ location ∈ builder.uniqueNodeIdSetTable, Processed nfa builder location
  root : builder.Denotes builder.dfa.root (nfa.automaton.eval [])

theorem convertLoop_spec {start : Builder} (hvalid : nfa.Valid)
    (hresolved : Resolved nfa nfaGraph nfaNodeClosures) (h : ConvertInvariant nfa fuel builder)
    (hstate : LoopState order nfaGraph nfaNodeClosures start builder)
    (hstack : builder.unprocessedNodes ≠ []) :
    Outcome (fun failure => IsActionsCrash nfa failure ∨ failure = .crash ∧
        ∃ builder location rest, LoopState order nfaGraph nfaNodeClosures start builder ∧
          builder.unprocessedNodes = location :: rest ∧
          ∃ n > 127, GetsTransitionsAt order nfaGraph nfaNodeClosures location
            { builder with unprocessedNodes := rest } n)
      (fun dfa => ∃ builder, Converted nfa builder ∧ builder.dfa = dfa)
      (convertLoop order nfaGraph nfaNodeClosures fuel builder) := by
  induction fuel generalizing builder with
  | zero =>
    -- there are no more sets than the fuel
    have hfuel := h.fuel
    have hle := h.interned.length_le hvalid
    have hpos := length_pos_iff.mpr hstack
    omega
  | succ fuel ih =>
    unfold convertLoop
    split
    · next hnil => exact absurd hnil hstack
    · next location rest hrest =>
      have houtcome := h.processNode order hvalid hresolved hrest
      cases hrun : processNode order nfaGraph nfaNodeClosures location
          { builder with unprocessedNodes := rest } with
      | error failure =>
        rcases houtcome.of_error hrun with hacts | ⟨hcrash, hmany⟩
        · exact .inl hacts
        · exact .inr ⟨hcrash, builder, location, rest, hstate, hrest, hmany⟩
      | ok builder' =>
        have hnext := houtcome.of_ok hrun
        change Outcome _ _ (if builder'.unprocessedNodes.isEmpty then _ else _)
        split
        · next hdone =>
          rw [List.isEmpty_iff] at hdone
          refine .pure ⟨builder', ⟨hnext.interned, fun u hu => ?_, hnext.root⟩, rfl⟩
          exact hnext.processed u hu (hdone ▸ not_mem_nil)
        · next hmore =>
          exact ih hnext (hstate.next hrest hrun) fun hnil => hmore (isEmpty_iff.mpr hnil)

/-! ## The conversion -/

/-- The first set of the conversion, with its node. -/
def IsStart (order : ActionOrder) (nfa : NFA) (nfaGraph : List NFANode)
    (nfaNodeClosures : List (List ℕ)) (start : Builder) : Prop :=
  ∃ builder location,
    resolveEpsilonClosures nfa.nodes = .ok (nfaGraph, nfaNodeClosures) ∧
    translate order nfaGraph (extendSetWithClosure nfaNodeClosures nfa.root
      ((∅ : NodeIdSet).add nfa.root)) {} = .ok (builder, location) ∧
    start = { builder with unprocessedNodes := [location] }

/-- A node of the result gets `n` individual transitions in the conversion. -/
def GetsTransitions (order : ActionOrder) (nfa : NFA) (n : ℕ) : Prop :=
  ∃ nfaGraph nfaNodeClosures start builder location rest,
    IsStart order nfa nfaGraph nfaNodeClosures start ∧
    LoopState order nfaGraph nfaNodeClosures start builder ∧
    builder.unprocessedNodes = location :: rest ∧
    GetsTransitionsAt order nfaGraph nfaNodeClosures location
      { builder with unprocessedNodes := rest } n

theorem translate_initialSet (order : ActionOrder) (hvalid : nfa.Valid)
    (hresolved : Resolved nfa nfaGraph nfaNodeClosures) :
    Outcome (IsActionsCrash nfa) (fun result => ConvertInvariant nfa (2 ^ nfa.nodes.length)
        { result.1 with unprocessedNodes := [result.2] })
      (translate order nfaGraph (extendSetWithClosure nfaNodeClosures nfa.root
        ((∅ : NodeIdSet).add nfa.root)) {}) := by
  have hroot : ((extendSetWithClosure nfaNodeClosures nfa.root
      ((∅ : NodeIdSet).add nfa.root))).toSet = nfa.automaton.eval [] :=
    Set.ext fun u => hresolved.mem_initialSet hvalid
  have hreached : IsReached nfa ((extendSetWithClosure nfaNodeClosures nfa.root
      ((∅ : NodeIdSet).add nfa.root))).toSet := by
    rw [hroot]
    exact ⟨⟨nfa.root, nfa.automaton.subset_εClosure _ rfl⟩, [], subset_rfl⟩
  refine (translate_spec hresolved Interned.empty hreached fun _ h => absurd h not_mem_nil).mono ?_
  rintro ⟨builder, location⟩ ⟨hinterned, htranslated⟩
  have htable : builder.uniqueNodeIdSetTable = [location] := htranslated.table
  have hlocation : location ∈ builder.uniqueNodeIdSetTable := by
    rw [htable]
    exact mem_singleton.mpr rfl
  obtain ⟨node, hnodes, hnone⟩ := htranslated.nodes
  have hnodes' : builder.dfa.nodes = [node] := hnodes
  have hid : location.dfaNodeId = 0 := by
    have hids := hinterned.dfaNodeId
    rw [htable, hnodes'] at hids
    simpa using hids
  refine ⟨{ hinterned with unprocessed := fun u hu => ?_ }, nodup_singleton _,
    fun u hu => ?_, fun u hu hnot => ?_, ?_, ?_⟩
  · rw [mem_singleton.mp hu]
    exact hlocation
  · rw [mem_singleton.mp hu, hid]
    exact ⟨node, by rw [hnodes']; rfl, hnone⟩
  · rw [htable] at hu
    exact absurd hu hnot
  · refine ⟨location, hlocation, hid.trans htranslated.root.symm, ?_⟩
    rw [htranslated.nodeIdSet, hroot]
  · rw [htable]
    simp only [length_singleton]
    omega

theorem convert_spec (order : ActionOrder) (hvalid : nfa.Valid) :
    Outcome (fun failure => IsEmptySlotCrash nfa failure ∨ IsActionsCrash nfa failure ∨
        failure = .crash ∧ ∃ n > 127, GetsTransitions order nfa n)
      (fun dfa => ∃ builder, Converted nfa builder ∧ builder.dfa = dfa) (convert order nfa) := by
  have hconv : convert order nfa = (resolveEpsilonClosures nfa.nodes).bind fun result =>
      (translate order result.1 (extendSetWithClosure result.2 nfa.root
        ((∅ : NodeIdSet).add nfa.root)) {}).bind fun first =>
        convertLoop order result.1 result.2 (2 ^ nfa.nodes.length)
          { first.1 with unprocessedNodes := [first.2] } := rfl
  rw [hconv]
  have hresolve := resolveEpsilonClosures_spec hvalid
  cases hgraph : resolveEpsilonClosures nfa.nodes with
  | error failure => exact .inl (hresolve.of_error hgraph)
  | ok result =>
    have hresolved := hresolve.of_ok hgraph
    have htranslate := translate_initialSet order hvalid hresolved
    dsimp only [Except.bind]
    cases hfirst : translate order result.1 (extendSetWithClosure result.2 nfa.root
        ((∅ : NodeIdSet).add nfa.root)) {} with
    | error failure => exact .inr (.inl (htranslate.of_error hfirst))
    | ok first =>
      have hinv := htranslate.of_ok hfirst
      refine Outcome.mono_fails ?_ (convertLoop_spec hvalid hresolved hinv .start (cons_ne_nil _ _))
      rintro failure (hacts | ⟨hcrash, builder, location, rest, hstate, hstack, n, hn, hgets⟩)
      · exact .inr (.inl hacts)
      · exact .inr (.inr ⟨hcrash, n, hn, result.1, result.2, _, builder, location, rest,
          ⟨first.1, first.2, hgraph, hfirst, rfl⟩, hstate, hstack, hgets⟩)

/-- More than 127 transitions are one for every character, for the nodes that a word leads to. -/
theorem GetsTransitions.exists_word {n : ℕ} (hvalid : nfa.Valid)
    (h : GetsTransitions order nfa n) (hn : 127 < n) :
    ∃ w, ∀ c, nfa.IsIndividual (nfa.automaton.eval w) c := by
  obtain ⟨nfaGraph, nfaNodeClosures, start, builder, location, rest,
    ⟨first, initial, hgraph, hfirst, rfl⟩, hstate, hstack, hgets⟩ := h
  have hresolved := (resolveEpsilonClosures_spec hvalid).of_ok hgraph
  have hinv := hstate.invariant hvalid hresolved
    ((translate_initialSet order hvalid hresolved).of_ok hfirst)
  have hlocation := hinv.interned.unprocessed location (hstack ▸ mem_cons_self)
  obtain ⟨-, w, hw⟩ := hinv.interned.reached location hlocation
  exact ⟨w, fun c => (isIndividual_of_getsTransitionsAt hvalid hresolved (hinv.pop hstack)
    hlocation hgets hn c).mono hw⟩

end NFAToDFA

end WebKit.ContentExtensions

/-!
## Runs of the converted graph

A run of the result of `convert` ends in the node of the set of nodes that the word leads
to, and is stuck when there is none.
-/

open Automata Transition

namespace WebKit.ContentExtensions

namespace NFAToDFA

variable {nfa : NFA} {builder : Builder} {nodeIds : Set ℕ} {dfaNodeId : ℕ} {order : ActionOrder}

/-- The set that a node of the result stands for. -/
def Builder.label (builder : Builder) (dfaNodeId : ℕ) : Set ℕ :=
  {t | ∃ nodeIds, builder.Denotes dfaNodeId nodeIds ∧ t ∈ nodeIds}

theorem Interned.label_eq (h : Interned nfa builder) (hset : builder.Denotes dfaNodeId nodeIds) :
    builder.label dfaNodeId = nodeIds := by
  ext t
  constructor
  · rintro ⟨nodeIds', hset', ht⟩
    rwa [h.denotes_unique hset hset']
  · intro ht
    exact ⟨nodeIds, hset, ht⟩

namespace Converted

theorem stepNode_spec {node : DFANode} (h : NodeProcessed nfa builder nodeIds node)
    (c : Character) :
    (∀ target, builder.dfa.stepNode node c = some target →
      builder.Denotes target (nfa.automaton.stepSet nodeIds c)) ∧
    (builder.dfa.stepNode node c = none → nfa.automaton.stepSet nodeIds c = ∅) := by
  unfold DFA.stepNode
  cases hlookup : (node.transitions builder.dfa).lookup c.val with
  | some target =>
    refine ⟨fun target' htarget => ?_, fun hnone => by cases hnone⟩
    cases htarget
    obtain ⟨l1, l2, hl, -⟩ := lookup_eq_some_iff.mp hlookup
    have hmem : (c.val, target) ∈ node.transitions builder.dfa := by
      rw [hl]
      exact mem_append_right _ mem_cons_self
    obtain ⟨c', hc, hdenotes⟩ := h.target _ hmem
    rwa [Fin.ext hc]
  | none =>
    have hnot : ¬nfa.IsIndividual nodeIds c := by
      intro hindividual
      obtain ⟨target, hmem⟩ := (h.individual c).mpr hindividual
      have hne := lookup_eq_none_iff.mp hlookup _ hmem
      simp at hne
    dsimp only
    by_cases hslot : nfa.HasSlot nodeIds c
    · -- a slot that leads nowhere
      have hempty : nfa.automaton.stepSet nodeIds c = ∅ :=
        Set.not_nonempty_iff_eq_empty.mp fun hne => hnot ⟨hslot, hne⟩
      refine ⟨fun target htarget => ?_, fun _ => hempty⟩
      split at htarget
      · next hfall =>
        have hsub := nfa.fallbackSet_subset_stepSet nodeIds hfall.1
        rw [hempty, Set.subset_empty_iff] at hsub
        exact absurd hsub (h.fallback.mp hfall.2).ne_empty
      · cases htarget
    · rw [NFA.stepSet_of_not_hasSlot hslot]
      split
      · next hfall =>
        obtain ⟨destination, hget, hdenotes⟩ := h.destination hfall.2
        refine ⟨fun target htarget => ?_, fun hnone => by cases hnone⟩
        cases htarget
        unfold DFANode.fallbackTransitionDestination
        rw [if_neg hfall.1, getD_eq_getElem?_getD, hget]
        exact hdenotes
      · next hfall =>
        refine ⟨fun target htarget => (by cases htarget), fun _ => ?_⟩
        split
        · rfl
        · next hc =>
          rw [← Set.not_nonempty_iff_eq_empty, ← h.fallback]
          exact fun htrue => hfall ⟨hc, htrue⟩

theorem tracks (h : Converted nfa builder) :
    Tracks nfa.automaton builder.dfa.step {id | ∃ nodeIds, builder.Denotes id nodeIds}
      builder.label := by
  have hstep : ∀ id nodeIds, builder.Denotes id nodeIds → ∀ c,
      (∀ target, builder.dfa.step id c = some target →
        builder.Denotes target (nfa.automaton.stepSet nodeIds c)) ∧
      (builder.dfa.step id c = none → nfa.automaton.stepSet nodeIds c = ∅) := by
    rintro id nodeIds ⟨location, hlocation, rfl, rfl⟩ c
    obtain ⟨node, hnode, hproc⟩ := h.processed location hlocation
    unfold DFA.step
    rw [hnode, Option.bind_some]
    exact stepNode_spec hproc c
  constructor
  · rintro id ⟨nodeIds, hset⟩ c target htarget
    have hdenotes := (hstep id nodeIds hset c).1 target htarget
    rw [h.interned.label_eq hset, h.interned.label_eq hdenotes]
    exact ⟨⟨_, hdenotes⟩, rfl⟩
  · rintro id ⟨nodeIds, hset⟩ c hnone
    rw [h.interned.label_eq hset]
    exact (hstep id nodeIds hset c).2 hnone

variable (h : Converted nfa builder) {w : List Character}

include h

theorem label_root : builder.label builder.dfa.root = nfa.automaton.εClosure {nfa.root} :=
  h.interned.label_eq h.root

theorem run_eq_none_iff : builder.dfa.run w = none ↔ nfa.automaton.eval w = ∅ := by
  refine h.tracks.run_stuck ?_ ⟨_, h.root⟩ h.label_root
  rintro id ⟨nodeIds, hset⟩
  rw [h.interned.label_eq hset]
  obtain ⟨location, hlocation, -, rfl⟩ := hset
  exact (h.interned.reached location hlocation).1

theorem denotes_run (hrun : builder.dfa.run w = some dfaNodeId) :
    builder.Denotes dfaNodeId (nfa.automaton.eval w) := by
  obtain ⟨⟨nodeIds, hset⟩, hlabel⟩ := h.tracks.run_label ⟨_, h.root⟩ h.label_root hrun
  rw [h.interned.label_eq hset] at hlabel
  rwa [show nfa.automaton.eval w = nodeIds from hlabel.symm]

theorem mem_actionsOf_run (hrun : builder.dfa.run w = some dfaNodeId) (ruleId : ℕ) :
    ruleId ∈ builder.dfa.actionsOf dfaNodeId ↔ ruleId ∈ nfa.ruleIds (nfa.automaton.eval w) := by
  obtain ⟨location, hlocation, rfl, hset⟩ := h.denotes_run hrun
  rw [h.interned.actions location hlocation, hset]

/-- Some character has no individual transition from the nodes that a word leads to. -/
theorem exists_not_isIndividual (w : List Character) :
    ∃ c, ¬nfa.IsIndividual (nfa.automaton.eval w) c := by
  by_contra hall
  push Not at hall
  cases hrun : builder.dfa.run w with
  | none =>
    obtain ⟨⟨nodeId, hnodeId, -⟩, -⟩ := hall 0
    rw [h.run_eq_none_iff.mp hrun] at hnodeId
    exact hnodeId
  | some id =>
    obtain ⟨location, hlocation, hid, hset⟩ := h.denotes_run hrun
    rw [← hset] at hall
    -- 128 keys in a list of at most 127 transitions
    obtain ⟨node, -, hproc⟩ := h.processed location hlocation
    have hsub : range 128 ⊆ (node.transitions builder.dfa).map Prod.fst := by
      intro key hkey
      obtain ⟨target, hmem⟩ := (hproc.individual ⟨key, mem_range.mp hkey⟩).mpr (hall _)
      exact mem_map.mpr ⟨_, hmem, rfl⟩
    have hle := (subperm_of_subset nodup_range hsub).length_le
    have hlen : (node.transitions builder.dfa).length ≤ node.transitionsLength := by
      exact length_take_le ..
    have hfew := hproc.transitionsLength
    rw [length_range, length_map] at hle
    omega

end Converted

/-- Where the assertions on slots and on actions hold, the one on transitions does when no word
leads to nodes that have an individual transition for every character. -/
theorem getsTransitions_le_iff (order : ActionOrder) {nfa : NFA} (hvalid : nfa.Valid)
    (hslots : nfa.EverySlotHasTarget)
    (hacts : ∀ w, ¬nfa.HasTooManyActions (nfa.automaton.eval w)) :
    (∀ n, GetsTransitions order nfa n → n ≤ 127) ↔
      ∀ w, ∃ c, ¬nfa.IsIndividual (nfa.automaton.eval w) c := by
  constructor
  · intro hle
    have hspec := convert_spec order hvalid
    cases hconvert : convert order nfa with
    | ok dfa =>
      obtain ⟨builder, hconv, -⟩ := hspec.of_ok hconvert
      exact hconv.exists_not_isIndividual
    | error failure =>
      rcases hspec.of_error hconvert with ⟨-, hslot⟩ | ⟨-, w, hmany⟩ | ⟨-, n, hn, hgets⟩
      · exact absurd hslots hslot
      · exact absurd hmany (hacts w)
      · exact absurd (hle n hgets) (Nat.not_le.mpr hn)
  · intro hfew n hgets
    by_contra hn
    obtain ⟨w, hall⟩ := hgets.exists_word hvalid (Nat.lt_of_not_le hn)
    obtain ⟨c, hc⟩ := hfew w
    exact hc (hall c)

/-- A conversion fails on no other account than its assertions, and its result does what the
graph does: a run ends in a node with the actions of the nodes that the word leads to. -/
theorem convert_equivalent (order : ActionOrder) {nfa : NFA} (hvalid : nfa.Valid) :
    (∀ failure, convert order nfa = .error failure → failure = .crash ∧
      (¬nfa.EverySlotHasTarget ∨ (∃ w, nfa.HasTooManyActions (nfa.automaton.eval w)) ∨
        ∃ n > 127, GetsTransitions order nfa n)) ∧
    ∀ dfa, convert order nfa = .ok dfa → ∀ w,
      (dfa.run w = none ↔ nfa.automaton.eval w = ∅) ∧
      ∀ nodeId, dfa.run w = some nodeId → ∀ ruleId,
        ruleId ∈ dfa.actionsOf nodeId ↔ ruleId ∈ nfa.ruleIds (nfa.automaton.eval w) := by
  have hspec := convert_spec order hvalid
  constructor
  · intro failure hfailure
    rcases hspec.of_error hfailure with ⟨hcrash, hslot⟩ | ⟨hcrash, hactions⟩ | ⟨hcrash, hgets⟩
    · exact ⟨hcrash, .inl hslot⟩
    · exact ⟨hcrash, .inr (.inl hactions)⟩
    · exact ⟨hcrash, .inr (.inr hgets)⟩
  · intro dfa hdfa w
    obtain ⟨builder, hconverted, rfl⟩ := hspec.of_ok hdfa
    exact ⟨hconverted.run_eq_none_iff, fun nodeId => hconverted.mem_actionsOf_run⟩

/-- The actions in the order in which they were first added. -/
def insertionOrder : ActionOrder where
  iterate _ added := added.reverse.dedup.reverse
  mem_iterate _ _ _ := by simp
  nodup_iterate _ added := by simpa using added.reverse.nodup_dedup

/-- A graph for the pattern `a.` with the rule 7. -/
def sampleGraph : NFA :=
  let (nfa, first) := NFA.create.createNode
  let nfa := nfa.addTransition nfa.root first 97
  let (nfa, second) := nfa.createNode
  (nfa.addTransitionsOnAnyCharacter first second).setActions second [7]

theorem valid_sampleGraph : sampleGraph.Valid :=
  (((NFA.Valid.create.createNode.addTransition (by decide) (by decide)).createNode
    ).addTransitionsOnAnyCharacter (by decide)).setActions [7]

theorem convert_equivalent_sampleGraph :
    (convert insertionOrder sampleGraph).toOption.any
      (fun dfa => (dfa.run [97, 98]).any fun nodeId => dfa.actionsOf nodeId = [7]) = true ∧
    ((∀ failure, convert insertionOrder sampleGraph = .error failure → failure = .crash ∧
      (¬sampleGraph.EverySlotHasTarget ∨
        (∃ w, sampleGraph.HasTooManyActions (sampleGraph.automaton.eval w)) ∨
        ∃ n > 127, GetsTransitions insertionOrder sampleGraph n)) ∧
    ∀ dfa, convert insertionOrder sampleGraph = .ok dfa → ∀ w,
      (dfa.run w = none ↔ sampleGraph.automaton.eval w = ∅) ∧
      ∀ nodeId, dfa.run w = some nodeId → ∀ ruleId,
        ruleId ∈ dfa.actionsOf nodeId ↔
          ruleId ∈ sampleGraph.ruleIds (sampleGraph.automaton.eval w)) :=
  ⟨by decide +kernel, convert_equivalent insertionOrder valid_sampleGraph⟩

end NFAToDFA

end WebKit.ContentExtensions
