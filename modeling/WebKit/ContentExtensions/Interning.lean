import Mathlib.Data.Set.Card
import WebKit.ContentExtensions.SetTransitions

/-!
# The table of sets that have a node

Every set of NFA nodes in the table of the conversion has a node of the DFA, whose id is
its place in the table. A set is added once, when it is first reached, with the rules that
are final in one of its nodes; entries that are there stay.
-/

open Automata Transition List

namespace WebKit.ContentExtensions

namespace NFA

variable {nfa : NFA} {nodeIds : Set ℕ} {ruleId : ℕ}

theorem mem_ruleIds : ruleId ∈ nfa.ruleIds nodeIds ↔
    ∃ nodeId ∈ nodeIds, ruleId ∈ (nfa.nodeAt nodeId).finalRuleIds := by
  refine exists_congr fun nodeId => and_congr Iff.rfl ?_
  rw [nodeAt, getD_eq_getElem?_getD]
  cases h : nfa.nodes[nodeId]? with
  | none | some => simp

theorem ruleIds_mono {nodeIds' : Set ℕ} (h : nodeIds ⊆ nodeIds') :
    nfa.ruleIds nodeIds ⊆ nfa.ruleIds nodeIds' := by
  rintro ruleId ⟨nodeId, hnodeId, hrule⟩
  exact ⟨nodeId, h hnodeId, hrule⟩

theorem finite_ruleIds : (nfa.ruleIds nodeIds).Finite := by
  refine (nfa.nodes.flatMap (·.finalRuleIds)).finite_toSet.subset ?_
  rintro ruleId ⟨nodeId, -, node, hnode, hrule⟩
  exact mem_flatMap.mpr ⟨node, mem_of_getElem? hnode, hrule⟩

/-- The nodes have more actions than a node of a DFA holds. -/
def HasTooManyActions (nfa : NFA) (nodeIds : Set ℕ) : Prop :=
  65535 < (nfa.ruleIds nodeIds).ncard

theorem HasTooManyActions.mono {nodeIds' : Set ℕ} (hsub : nodeIds ⊆ nodeIds')
    (h : nfa.HasTooManyActions nodeIds) : nfa.HasTooManyActions nodeIds' :=
  lt_of_lt_of_le h (Set.ncard_le_ncard (ruleIds_mono hsub) finite_ruleIds)

end NFA

namespace NFAToDFA

/-- The assertion on the number of actions fails, for the nodes that a word leads to. -/
def IsActionsCrash (nfa : NFA) (failure : Failure) : Prop :=
  failure = .crash ∧ ∃ w, nfa.HasTooManyActions (nfa.automaton.eval w)

/-- Some of the nodes that a word leads to. A fallback set need not be all of them: where
every character has an individual transition, no word leads to it alone. -/
def IsReached (nfa : NFA) (nodeIds : Set ℕ) : Prop :=
  nodeIds.Nonempty ∧ ∃ w, nodeIds ⊆ nfa.automaton.eval w

/-- The node of the DFA stands for the set. -/
def Builder.Denotes (builder : Builder) (dfaNodeId : ℕ) (nodeIds : Set ℕ) : Prop :=
  ∃ location ∈ builder.uniqueNodeIdSetTable,
    location.dfaNodeId = dfaNodeId ∧ location.nodeIdSet.toSet = nodeIds

structure Interned (nfa : NFA) (builder : Builder) : Prop where
  dfaNodeId : builder.uniqueNodeIdSetTable.map (·.dfaNodeId) =
    List.range builder.dfa.nodes.length
  distinct : (builder.uniqueNodeIdSetTable.map (·.nodeIdSet.toFinset)).Nodup
  reached : ∀ location ∈ builder.uniqueNodeIdSetTable, IsReached nfa location.nodeIdSet.toSet
  actions : ∀ location ∈ builder.uniqueNodeIdSetTable, ∀ ruleId,
    ruleId ∈ builder.dfa.actionsOf location.dfaNodeId ↔
      ruleId ∈ nfa.ruleIds location.nodeIdSet.toSet
  fits : ∀ location ∈ builder.uniqueNodeIdSetTable,
    (nfa.ruleIds location.nodeIdSet.toSet).ncard ≤ 65535
  actionsEnd : ∀ node ∈ builder.dfa.nodes, node.actionsEnd ≤ builder.dfa.actions.length
  unprocessed : ∀ location ∈ builder.unprocessedNodes, location ∈ builder.uniqueNodeIdSetTable

theorem Interned.empty {nfa : NFA} : Interned nfa {} where
  dfaNodeId := rfl
  distinct := nodup_nil
  reached _ h := absurd h not_mem_nil
  actions _ h := absurd h not_mem_nil
  fits _ h := absurd h not_mem_nil
  actionsEnd _ h := absurd h not_mem_nil
  unprocessed _ h := absurd h not_mem_nil

variable {dfaNodeId : ℕ}

namespace Interned

variable {nfa : NFA} {builder : Builder}

section

variable (h : Interned nfa builder)
include h

theorem dfaNodeId_lt {location : UniqueNodeIdSet} (hloc : location ∈ builder.uniqueNodeIdSetTable) :
    location.dfaNodeId < builder.dfa.nodes.length := by
  have hmem := mem_map_of_mem (f := fun u : UniqueNodeIdSet => u.dfaNodeId) hloc
  rw [h.dfaNodeId] at hmem
  exact mem_range.mp hmem

theorem eq_of_dfaNodeId {location location' : UniqueNodeIdSet}
    (hloc : location ∈ builder.uniqueNodeIdSetTable)
    (hloc' : location' ∈ builder.uniqueNodeIdSetTable)
    (hid : location.dfaNodeId = location'.dfaNodeId) : location = location' := by
  have hnodup : (builder.uniqueNodeIdSetTable.map (·.dfaNodeId)).Nodup := by
    rw [h.dfaNodeId]
    exact nodup_range
  exact inj_on_of_nodup_map hnodup hloc hloc' hid

theorem denotes_unique {nodeIds nodeIds' : Set ℕ}
    (hset : builder.Denotes dfaNodeId nodeIds) (hset' : builder.Denotes dfaNodeId nodeIds') :
    nodeIds = nodeIds' := by
  obtain ⟨location, hloc, hid, rfl⟩ := hset
  obtain ⟨location', hloc', hid', rfl⟩ := hset'
  rw [h.eq_of_dfaNodeId hloc hloc' (hid.trans hid'.symm)]

theorem exists_denotes (hlt : dfaNodeId < builder.dfa.nodes.length) :
    ∃ location ∈ builder.uniqueNodeIdSetTable, location.dfaNodeId = dfaNodeId := by
  have hmem : dfaNodeId ∈ builder.uniqueNodeIdSetTable.map (·.dfaNodeId) := by
    rw [h.dfaNodeId]
    exact mem_range.mpr hlt
  obtain ⟨location, hloc, hid⟩ := mem_map.mp hmem
  exact ⟨location, hloc, hid⟩

theorem of_dfa {dfa : DFA} (hacts : dfa.actions = builder.dfa.actions)
    (hnodes : dfa.nodes.map (fun node => (node.actionsStart, node.actionsLength)) =
      builder.dfa.nodes.map fun node => (node.actionsStart, node.actionsLength)) :
    Interned nfa { builder with dfa := dfa } := by
  have hlength : dfa.nodes.length = builder.dfa.nodes.length := by
    simpa using congrArg length hnodes
  have hnode : ∀ i (hi : i < dfa.nodes.length) (hi' : i < builder.dfa.nodes.length),
      dfa.nodes[i].actionsStart = builder.dfa.nodes[i].actionsStart ∧
        dfa.nodes[i].actionsLength = builder.dfa.nodes[i].actionsLength := by
    intro i hi hi'
    have hget := congrArg (·[i]?) hnodes
    simpa [hi, hi'] using hget
  refine ⟨?_, h.distinct, h.reached, fun location hloc ruleId => ?_, h.fits,
    fun node hmem => ?_, h.unprocessed⟩
  · rw [hlength]
    exact h.dfaNodeId
  · have hlt := h.dfaNodeId_lt hloc
    have hlt' : location.dfaNodeId < dfa.nodes.length := by rwa [hlength]
    obtain ⟨hstart, hlen⟩ := hnode _ hlt' hlt
    rw [← h.actions location hloc]
    unfold DFA.actionsOf DFANode.actions
    rw [getD_eq_getElem _ _ hlt', getD_eq_getElem _ _ hlt, hacts, hstart, hlen]
  · obtain ⟨i, hi, rfl⟩ := mem_iff_getElem.mp hmem
    obtain ⟨hstart, hlen⟩ := hnode i hi (by rwa [← hlength])
    have hi : i < builder.dfa.nodes.length := by rwa [← hlength]
    have hend := h.actionsEnd _ (getElem_mem hi)
    unfold DFANode.actionsEnd at hend ⊢
    rw [hacts, hstart, hlen]
    exact hend

theorem length_le (hvalid : nfa.Valid) :
    builder.uniqueNodeIdSetTable.length ≤ 2 ^ nfa.nodes.length := by
  have hlt : ∀ w, ∀ t ∈ nfa.automaton.eval w, t < nfa.graphSize := by
    intro w
    induction w using reverseRecOn with
    | nil =>
      refine hvalid.closure_lt ?_
      rintro _ rfl
      exact hvalid.root
    | append_singleton w c ih =>
      intro t ht
      rw [εNFA.eval_append_singleton, εNFA.mem_stepSet_iff] at ht
      obtain ⟨s, -, ht⟩ := ht
      change t ∈ nfa.automaton.εClosure (nfa.targets s (some c)) at ht
      exact hvalid.closure_lt (fun u hu => hvalid.targets_lt hu) t ht
  have hsub : (builder.uniqueNodeIdSetTable.map (·.nodeIdSet.toFinset)).toFinset ⊆
      (Finset.range nfa.nodes.length).powerset := by
    intro set hset
    obtain ⟨location, hloc, rfl⟩ := mem_map.mp (mem_toFinset.mp hset)
    obtain ⟨-, w, hw⟩ := h.reached location hloc
    exact Finset.mem_powerset.mpr fun t ht =>
      Finset.mem_range.mpr (hlt w t (hw (IndexSet.mem_toFinset.mp ht)))
  have hcard := Finset.card_le_card hsub
  rwa [toFinset_card_of_nodup h.distinct, length_map, Finset.card_powerset,
    Finset.card_range] at hcard

end

end Interned

variable {nfa : NFA} {nfaGraph : List NFANode} {nfaNodeClosures : List (List ℕ)}
  {order : ActionOrder} {nodeIdSet : NodeIdSet} {builder builder' : Builder}

/-- The actions of a new node. -/
def actionsOfSet (order : ActionOrder) (nfaGraph : List NFANode) (nodeIdSet : NodeIdSet) : List ℕ :=
  order.iterate nodeIdSet
    (nodeIdSet.elems.flatMap fun nfaNodeId => (nfaGraph.getD nfaNodeId {}).finalRuleIds)

theorem Resolved.mem_actionsOfSet (h : Resolved nfa nfaGraph nfaNodeClosures) {ruleId : ℕ} :
    ruleId ∈ actionsOfSet order nfaGraph nodeIdSet ↔ ruleId ∈ nfa.ruleIds nodeIdSet.toSet := by
  rw [actionsOfSet, order.mem_iterate, mem_flatMap, NFA.mem_ruleIds]
  simp only [h.finalRuleIds, IndexSet.mem_elems, IndexSet.mem_toSet]

theorem Resolved.length_actionsOfSet (h : Resolved nfa nfaGraph nfaNodeClosures)
    (order : ActionOrder) (nodeIdSet : NodeIdSet) :
    (actionsOfSet order nfaGraph nodeIdSet).length = (nfa.ruleIds nodeIdSet.toSet).ncard := by
  have hset : nfa.ruleIds nodeIdSet.toSet =
      ((actionsOfSet order nfaGraph nodeIdSet).toFinset : Set ℕ) := by
    ext ruleId
    rw [Finset.mem_coe, mem_toFinset, h.mem_actionsOfSet]
  have hnodup : (actionsOfSet order nfaGraph nodeIdSet).Nodup := order.nodup_iterate ..
  rw [hset, Set.ncard_coe_finset, toFinset_card_of_nodup hnodup]

/-- The table and the graph with the set, which was not there. -/
structure Translated (nodeIdSet : NodeIdSet) (builder builder' : Builder)
    (location : UniqueNodeIdSet) : Prop where
  nodeIdSet : location.nodeIdSet = nodeIdSet
  table : builder'.uniqueNodeIdSetTable = builder.uniqueNodeIdSetTable ++ [location]
  unprocessed : builder'.unprocessedNodes = builder.unprocessedNodes
  nodes : ∃ node, builder'.dfa.nodes = builder.dfa.nodes ++ [node] ∧
    node.hasFallbackTransition = false
  transitions : builder'.dfa.transitions = builder.dfa.transitions
  root : builder'.dfa.root = builder.dfa.root

theorem translate_spec (hresol : Resolved nfa nfaGraph nfaNodeClosures)
    (h : Interned nfa builder) (hreached : IsReached nfa nodeIdSet.toSet)
    (hnew : ∀ location ∈ builder.uniqueNodeIdSetTable,
      location.nodeIdSet.toFinset ≠ nodeIdSet.toFinset) :
    Outcome (IsActionsCrash nfa)
      (fun result => Interned nfa result.1 ∧ Translated nodeIdSet builder result.1 result.2)
      (translate order nfaGraph nodeIdSet builder) := by
  have hlen := hresol.length_actionsOfSet order nodeIdSet
  change Outcome _ _ (if (actionsOfSet order nfaGraph nodeIdSet).length ≤ 65535 then _ else _)
  split
  · next hfits =>
    refine .pure ⟨⟨?_, ?_, ?_, ?_, ?_, ?_, ?_⟩, rfl, rfl, rfl, ⟨_, rfl, rfl⟩, rfl, rfl⟩
    · rw [map_append, h.dfaNodeId, length_append, length_singleton, range_succ]
      rfl
    · rw [map_append]
      refine nodup_append.mpr ⟨h.distinct, nodup_singleton _, fun set hset set' hset' => ?_⟩
      obtain ⟨location, hloc, rfl⟩ := mem_map.mp hset
      rw [mem_singleton.mp hset']
      exact hnew location hloc
    · intro location hloc
      rcases mem_append.mp hloc with hloc | hloc
      · exact h.reached location hloc
      · rw [mem_singleton.mp hloc]
        exact hreached
    · intro location hloc ruleId
      rcases mem_append.mp hloc with hloc | hloc
      · -- the range of an earlier node is not touched
        have hlt := h.dfaNodeId_lt hloc
        have hend := h.actionsEnd _ (getElem_mem hlt)
        rw [← h.actions location hloc]
        unfold DFA.actionsOf DFANode.actions
        rw [getD_eq_getElem _ _ (by rw [length_append]; omega),
          getElem_append_left hlt, getD_eq_getElem _ _ hlt]
        unfold DFANode.actionsEnd at hend
        rw [drop_append_of_le_length (by omega),
          take_append_of_le_length (by rw [length_drop]; omega)]
      · rw [mem_singleton.mp hloc]
        unfold DFA.actionsOf DFANode.actions
        rw [getD_eq_getElem _ _ (by simp), getElem_append_right le_rfl]
        simp only [Nat.sub_self, getElem_cons_zero, drop_left, take_length]
        exact hresol.mem_actionsOfSet
    · intro location hloc
      rcases mem_append.mp hloc with hloc | hloc
      · exact h.fits location hloc
      · rw [mem_singleton.mp hloc, ← hlen]
        exact hfits
    · intro node hnode
      rw [length_append]
      rcases mem_append.mp hnode with hnode | hnode
      · exact (h.actionsEnd node hnode).trans (Nat.le_add_right ..)
      · rw [mem_singleton.mp hnode]
        exact le_rfl
    · intro location hloc
      exact mem_append_left _ (h.unprocessed location hloc)
  · next hmany =>
    obtain ⟨-, w, hw⟩ := hreached
    refine .throw ⟨rfl, w, NFA.HasTooManyActions.mono hw ?_⟩
    rw [NFA.HasTooManyActions, ← hlen]
    exact Nat.lt_of_not_le hmany

/-! ## Looking a set up -/

/-- The table grows at its end, and so does the graph; a new set is put on the stack. -/
structure Grown (builder builder' : Builder) : Prop where
  table : ∃ l, builder'.uniqueNodeIdSetTable = builder.uniqueNodeIdSetTable ++ l ∧
    builder'.unprocessedNodes = l.reverse ++ builder.unprocessedNodes
  nodes : ∃ l, builder'.dfa.nodes = builder.dfa.nodes ++ l ∧
    ∀ node ∈ l, node.hasFallbackTransition = false
  transitions : builder.dfa.transitions <+: builder'.dfa.transitions
  root : builder'.dfa.root = builder.dfa.root

namespace Grown

theorem refl : Grown builder builder where
  table := ⟨[], (append_nil _).symm, rfl⟩
  nodes := ⟨[], (append_nil _).symm, fun _ h => absurd h not_mem_nil⟩
  transitions := prefix_rfl
  root := rfl

theorem trans {builder'' : Builder} (h : Grown builder builder') (h' : Grown builder' builder'') :
    Grown builder builder'' where
  table := by
    obtain ⟨l, htable, hstack⟩ := h.table
    obtain ⟨l', htable', hstack'⟩ := h'.table
    refine ⟨l ++ l', ?_, ?_⟩
    · rw [htable', htable, append_assoc]
    · rw [hstack', hstack, reverse_append, append_assoc]
  nodes := by
    obtain ⟨l, hnodes, hl⟩ := h.nodes
    obtain ⟨l', hnodes', hl'⟩ := h'.nodes
    refine ⟨l ++ l', by rw [hnodes', hnodes, append_assoc], fun node hnode => ?_⟩
    exact (mem_append.mp hnode).elim (hl node) (hl' node)
  transitions := h.transitions.trans h'.transitions
  root := h'.root.trans h.root

theorem denotes (h : Grown builder builder') {nodeIds : Set ℕ}
    (hset : builder.Denotes dfaNodeId nodeIds) : builder'.Denotes dfaNodeId nodeIds := by
  obtain ⟨l, htable, -⟩ := h.table
  obtain ⟨location, hloc, hid, hset⟩ := hset
  exact ⟨location, htable ▸ mem_append_left l hloc, hid, hset⟩

theorem getElem? (h : Grown builder builder') {node : DFANode}
    (hnode : builder.dfa.nodes[dfaNodeId]? = some node) :
    builder'.dfa.nodes[dfaNodeId]? = some node := by
  obtain ⟨l, hnodes, -⟩ := h.nodes
  obtain ⟨hlt, -⟩ := List.getElem?_eq_some_iff.mp hnode
  rw [hnodes, List.getElem?_append_left hlt, hnode]

end Grown

theorem getOrCreateDFANode_spec (hresol : Resolved nfa nfaGraph nfaNodeClosures)
    (h : Interned nfa builder) (hreached : IsReached nfa nodeIdSet.toSet) :
    Outcome (IsActionsCrash nfa) (fun result => Interned nfa result.1 ∧ Grown builder result.1 ∧
        result.1.dfa.transitions = builder.dfa.transitions ∧
        result.1.Denotes result.2 nodeIdSet.toSet)
      (getOrCreateDFANode order nfaGraph nodeIdSet builder) := by
  unfold getOrCreateDFANode
  split
  · next location hfind =>
    have hsame := find?_some hfind
    refine .pure ⟨h, .refl, rfl, location, mem_of_find?_eq_some hfind, rfl, ?_⟩
    exact IndexSet.sameElements_iff_toSet.mp hsame
  · next hfind =>
    have hnew : ∀ location ∈ builder.uniqueNodeIdSetTable,
        location.nodeIdSet.toFinset ≠ nodeIdSet.toFinset := by
      intro location hloc heq
      have hnone := find?_eq_none.mp hfind location hloc
      exact hnone (IndexSet.sameElements_iff_toFinset.mpr heq)
    refine (translate_spec hresol h hreached hnew).bind ?_
    rintro ⟨builder', location⟩ ⟨hinterned, htranslated⟩
    have hloc : location ∈ builder'.uniqueNodeIdSetTable := by
      rw [htranslated.table]
      exact mem_append_right _ (mem_singleton.mpr rfl)
    obtain ⟨node, hnodes, hfall⟩ := htranslated.nodes
    refine .pure ⟨{ hinterned with unprocessed := fun u hu => ?_ },
      ⟨⟨[location], htranslated.table, ?_⟩, ⟨[node], hnodes, ?_⟩,
        htranslated.transitions ▸ prefix_rfl, htranslated.root⟩,
      htranslated.transitions, location, hloc, rfl, by rw [htranslated.nodeIdSet]⟩
    · rcases mem_cons.mp hu with rfl | hu
      · exact hloc
      · exact hinterned.unprocessed u hu
    · exact congrArg (location :: ·) htranslated.unprocessed
    · intro u hu
      rw [mem_singleton.mp hu]
      exact hfall

end NFAToDFA

end WebKit.ContentExtensions

/-!
## The transitions of a node

Processing a set gives its node an individual transition for every character that some
node of the set has a slot for, in the order of the characters, and after them a fallback
transition. The assertion on their number fails only for a set with all 128 of them.
-/

open Automata Transition

namespace WebKit.ContentExtensions

namespace NFAToDFA

variable {nfa : NFA} {nfaGraph : List NFANode} {nfaNodeClosures : List (List ℕ)}
  {order : ActionOrder} {builder builder' : Builder} {setTransitions : SetTransitions} {node : DFANode}
  {nodeIds : Set ℕ}

/-- The transitions after the loop over some of the keys. -/
structure Appended (nfa : NFA) (setTransitions : SetTransitions) (builder : Builder)
    (done : List ℕ) (builder' : Builder) : Prop where
  interned : Interned nfa builder'
  grown : Grown builder builder'
  transitions : ∃ l, builder'.dfa.transitions = builder.dfa.transitions ++ l ∧
    l.map Prod.fst = done.filter (fun key => !(setTransitions.getD key ∅).isEmpty) ∧
    ∀ transition ∈ l,
      builder'.Denotes transition.2 (setTransitions.getD transition.1 ∅).toSet

theorem appendTransition_spec (hresol : Resolved nfa nfaGraph nfaNodeClosures)
    {done : List ℕ} {key : ℕ} (h : Appended nfa setTransitions builder done builder')
    (hreached : (setTransitions.getD key ∅).isEmpty = false →
      IsReached nfa (setTransitions.getD key ∅).toSet) :
    Outcome (IsActionsCrash nfa) (Appended nfa setTransitions builder (done ++ [key]))
      (appendTransition order nfaGraph setTransitions builder' key) := by
  obtain ⟨l, htransitions, hkeys, htargets⟩ := h.transitions
  unfold appendTransition
  dsimp only
  split
  · next hempty =>
    refine .pure ⟨h.interned, h.grown, l, htransitions, ?_, htargets⟩
    rw [filter_append, filter_cons_of_neg (by rw [hempty]; exact Bool.noConfusion),
      filter_nil, append_nil, hkeys]
  · next hne =>
    rw [Bool.not_eq_true] at hne
    refine (getOrCreateDFANode_spec hresol h.interned (hreached hne)).bind ?_
    rintro ⟨builder'', targetNodeId⟩ ⟨hinterned, hgrown, hsame, hdenotes⟩
    refine .pure ⟨hinterned.of_dfa rfl rfl, h.grown.trans ⟨hgrown.table, hgrown.nodes,
      hgrown.transitions.trans (prefix_append ..), hgrown.root⟩, l ++ [(key, targetNodeId)],
      ?_, ?_, ?_⟩
    · rw [hsame, htransitions, append_assoc]
    · rw [map_append, hkeys, filter_append, filter_cons_of_pos (by rw [hne]; rfl)]
      rfl
    · intro transition htrans
      rcases mem_append.mp htrans with htrans | htrans
      · exact hgrown.denotes (htargets transition htrans)
      · rw [mem_singleton.mp htrans]
        exact hdenotes

theorem appendTransitions_spec (hresol : Resolved nfa nfaGraph nfaNodeClosures)
    (h : Interned nfa builder)
    (hreached : ∀ key < 128, (setTransitions.getD key ∅).isEmpty = false →
      IsReached nfa (setTransitions.getD key ∅).toSet) :
    Outcome (IsActionsCrash nfa) (Appended nfa setTransitions builder (range 128))
      ((range 128).foldlM (appendTransition order nfaGraph setTransitions) builder) := by
  refine Outcome.foldlM (I := Appended nfa setTransitions builder)
    ⟨h, .refl, [], (append_nil _).symm, rfl, fun _ h => absurd h not_mem_nil⟩ ?_
  intro done key rest builder' hrange happended
  refine appendTransition_spec hresol happended (hreached key ?_)
  have hmem : key ∈ range 128 := hrange ▸ mem_append_right done mem_cons_self
  exact mem_range.mp hmem

/-- The node has the individual transitions of the set. -/
structure HasTransitions (nfa : NFA) (builder : Builder) (nodeIds : Set ℕ) (node : DFANode) :
    Prop where
  fallbackIndex : node.fallbackIndex ≤ builder.dfa.transitions.length
  transitionsLength : node.transitionsLength ≤ 127
  sorted : (node.transitions builder.dfa).Pairwise (·.1 < ·.1)
  individual : ∀ c : Character,
    (∃ target, (c.val, target) ∈ node.transitions builder.dfa) ↔ nfa.IsIndividual nodeIds c
  target : ∀ transition ∈ node.transitions builder.dfa, ∃ c : Character,
    transition.1 = c ∧ builder.Denotes transition.2 (nfa.automaton.stepSet nodeIds c)

/-- The node has all transitions of the set. -/
structure NodeProcessed (nfa : NFA) (builder : Builder) (nodeIds : Set ℕ) (node : DFANode) : Prop
    extends HasTransitions nfa builder nodeIds node where
  fallback : node.hasFallbackTransition = true ↔ (nfa.fallbackSet nodeIds).Nonempty
  destination : node.hasFallbackTransition = true → ∃ destination,
    builder.dfa.transitions[node.fallbackIndex]? =
        some (fallbackTransitionCharacter, destination) ∧
      builder.Denotes destination (nfa.fallbackSet nodeIds)

theorem HasTransitions.mono (h : HasTransitions nfa builder nodeIds node)
    (htransitions : builder.dfa.transitions <+: builder'.dfa.transitions)
    (hdenotes : ∀ id set, builder.Denotes id set → builder'.Denotes id set) :
    HasTransitions nfa builder' nodeIds node := by
  have hsame : node.transitions builder'.dfa = node.transitions builder.dfa := by
    obtain ⟨l, hl⟩ := htransitions
    have hle : node.transitionsStart + node.transitionsLength ≤ builder.dfa.transitions.length :=
      h.fallbackIndex
    unfold DFANode.transitions
    rw [← hl, drop_append_of_le_length (by omega),
      take_append_of_le_length (by rw [length_drop]; omega)]
  refine ⟨h.fallbackIndex.trans htransitions.length_le, h.transitionsLength, hsame ▸ h.sorted,
    hsame ▸ h.individual, fun transition htrans => ?_⟩
  obtain ⟨c, hc, htarget⟩ := h.target transition (hsame ▸ htrans)
  exact ⟨c, hc, hdenotes _ _ htarget⟩

theorem NodeProcessed.mono (h : NodeProcessed nfa builder nodeIds node)
    (htrans : builder.dfa.transitions <+: builder'.dfa.transitions)
    (hdenotes : ∀ id set, builder.Denotes id set → builder'.Denotes id set) :
    NodeProcessed nfa builder' nodeIds node := by
  refine ⟨h.toHasTransitions.mono htrans hdenotes, h.fallback, fun hfall => ?_⟩
  obtain ⟨destination, hget, htarget⟩ := h.destination hfall
  refine ⟨destination, ?_, hdenotes _ _ htarget⟩
  obtain ⟨l, hl⟩ := htrans
  obtain ⟨hlt, -⟩ := List.getElem?_eq_some_iff.mp hget
  rw [← hl, List.getElem?_append_left hlt, hget]

/-- The sets that `populateTransitions` leaves for the characters. -/
def IsPopulated (nfa : NFA) (nodeIds : Set ℕ) (setTransitions : SetTransitions) : Prop :=
  ∀ (c : Character) u, u ∈ setTransitions.getD c ∅ ↔
    nfa.HasSlot nodeIds c ∧ u ∈ nfa.automaton.stepSet nodeIds c

section

variable (h : IsPopulated nfa nodeIds setTransitions)
include h

theorem IsPopulated.isEmpty_eq_false_iff (c : Character) :
    (setTransitions.getD c ∅).isEmpty = false ↔ nfa.IsIndividual nodeIds c := by
  rw [← Bool.not_eq_true, IndexSet.isEmpty_iff]
  push Not
  simp only [h c]
  constructor
  · rintro ⟨u, hslot, hu⟩
    exact ⟨hslot, u, hu⟩
  · rintro ⟨hslot, u, hu⟩
    exact ⟨u, hslot, hu⟩

theorem IsPopulated.toSet_eq {c : Character} (hc : (setTransitions.getD c ∅).isEmpty = false) :
    (setTransitions.getD c ∅).toSet = nfa.automaton.stepSet nodeIds c := by
  ext u
  rw [IndexSet.mem_toSet, h c u, and_iff_right ((h.isEmpty_eq_false_iff c).mp hc).1]

theorem IsPopulated.isReached {w : List Character}
    (hw : nodeIds ⊆ nfa.automaton.eval w) {key : ℕ} (hkey : key < 128)
    (hne : (setTransitions.getD key ∅).isEmpty = false) :
    IsReached nfa (setTransitions.getD key ∅).toSet := by
  have hset := h.toSet_eq (c := ⟨key, hkey⟩) hne
  have hindividual := (h.isEmpty_eq_false_iff ⟨key, hkey⟩).mp hne
  rw [hset]
  refine ⟨hindividual.2, w ++ [⟨key, hkey⟩], ?_⟩
  rw [εNFA.eval_append_singleton]
  exact NFA.stepSet_mono hw

/-- The number of individual transitions is only too large when every character has one. -/
theorem IsPopulated.forall_isIndividual (hlen : 127 < ((range 128).filter
      fun key => !(setTransitions.getD key ∅).isEmpty).length) :
    ∀ c, nfa.IsIndividual nodeIds c := by
  intro c
  rw [← h.isEmpty_eq_false_iff]
  have hle := length_filter_le (fun key => !(setTransitions.getD key ∅).isEmpty) (range 128)
  rw [length_range] at hle
  have hall := length_filter_eq_length_iff.mp (show _ = (range 128).length by
    rw [length_range]
    exact le_antisymm hle hlen)
  simpa using hall c (mem_range.mpr c.isLt)

end

theorem Appended.hasTransitions (node : DFANode)
    (h : Appended nfa setTransitions builder (range 128) builder')
    (hpopulated : IsPopulated nfa nodeIds setTransitions)
    (hlen : builder'.dfa.transitions.length - builder.dfa.transitions.length ≤ 127) :
    HasTransitions nfa builder' nodeIds
      { node with
        transitionsStart := builder.dfa.transitions.length
        transitionsLength :=
          builder'.dfa.transitions.length - builder.dfa.transitions.length } := by
  obtain ⟨l, htransitions, hkeys, htargets⟩ := h.transitions
  have hsame : DFANode.transitions { node with
        transitionsStart := builder.dfa.transitions.length
        transitionsLength :=
          builder'.dfa.transitions.length - builder.dfa.transitions.length } builder'.dfa = l := by
    unfold DFANode.transitions
    rw [htransitions, drop_left, length_append, Nat.add_sub_cancel_left, take_length]
  have hmem : ∀ key, (∃ target, (key, target) ∈ l) ↔
      key < 128 ∧ (setTransitions.getD key ∅).isEmpty = false := by
    intro key
    have hfst : key ∈ l.map Prod.fst ↔ ∃ target, (key, target) ∈ l := by simp
    rw [← hfst, hkeys, mem_filter, mem_range]
    simp
  refine ⟨?_, hlen, ?_, fun c => ?_, fun transition htrans => ?_⟩
  · unfold DFANode.fallbackIndex
    dsimp only
    rw [htransitions, length_append]
    omega
  · rw [hsame, ← pairwise_map (f := Prod.fst) (R := (· < ·)), hkeys]
    exact pairwise_lt_range.filter _
  · rw [hsame, hmem, and_iff_right c.isLt]
    exact hpopulated.isEmpty_eq_false_iff c
  · rw [hsame] at htrans
    obtain ⟨key, target⟩ := transition
    obtain ⟨hlt, hne⟩ := (hmem key).mp ⟨target, htrans⟩
    have htarget := htargets _ htrans
    have hset := hpopulated.toSet_eq (c := ⟨key, hlt⟩) hne
    exact ⟨⟨key, hlt⟩, rfl, hset ▸ htarget⟩

end NFAToDFA

end WebKit.ContentExtensions
