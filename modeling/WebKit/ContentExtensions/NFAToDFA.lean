import WebKit.ContentExtensions.DFA

/-!
# `NFAToDFA`

The subset construction. Epsilon closures are computed first and the epsilon transitions
are then taken out of the graph; every set of nodes that is reached is interned in a table
and becomes one node of the result.

A `Vector` used as a stack is a list with the top in front. Sets of node ids are iterated
in the order of insertion, as nothing but the order of a node's actions depends on it, and
for that order `ActionOrder` stands: whatever the hash table of the actions makes of it.
A release assertion, and taking the last element of an empty vector, is a `crash`.
-/

namespace WebKit.ContentExtensions

open Automata

inductive NFAToDFA.Failure
  | crash
  | outOfFuel
  deriving DecidableEq, Repr

/-- The order in which the actions of a set of nodes, added to a hash set one after the
other, come out of it. -/
structure ActionOrder where
  iterate : IndexSet → List ℕ → List ℕ
  mem_iterate : ∀ nodeIdSet added action, action ∈ iterate nodeIdSet added ↔ action ∈ added
  nodup_iterate : ∀ nodeIdSet added, (iterate nodeIdSet added).Nodup

namespace NFAToDFA

abbrev NodeIdSet := IndexSet

structure Closure where
  closure : NodeIdSet
  unprocessedNodes : List ℕ
  output : List ℕ

/-- The body of the loop over the epsilon transitions of a node. -/
def Closure.visit (state : Closure) (targetNodeId : ℕ) : Closure :=
  if targetNodeId ∈ state.closure then state
  else
    ⟨state.closure.add targetNodeId, targetNodeId :: state.unprocessedNodes,
      state.output ++ [targetNodeId]⟩

/-- The `do` loop; the fuel is a bound on the number of its iterations. -/
def closureLoop (nfaGraph : List NFANode) : ℕ → Closure → Except Failure (List ℕ)
  | 0, _ => throw .outOfFuel
  | fuel + 1, state =>
    match state.unprocessedNodes with
    | [] => throw .crash
    | unprocessedNodeId :: rest =>
      let node := nfaGraph.getD unprocessedNodeId {}
      let state := (node.slot epsilonTransitionCharacter).elems.foldl Closure.visit
        { state with unprocessedNodes := rest }
      if state.unprocessedNodes.isEmpty then return state.output
      else closureLoop nfaGraph fuel state

/-- The output has the node itself when it has an epsilon transition to itself. -/
def epsilonClosureExcludingSelf (nfaGraph : List NFANode) (nodeId : ℕ) : Except Failure (List ℕ) :=
  match (nfaGraph.getD nodeId {}).transitions.lookup epsilonTransitionCharacter with
  | none => return []
  | some slot =>
    closureLoop nfaGraph (nfaGraph.length + 1)
      ⟨((∅ : NodeIdSet).add nodeId).addAll slot.elems, slot.elems.reverse, slot.elems⟩

/-- The graph without the epsilon transitions, and the closures of its nodes. -/
def resolveEpsilonClosures (nfaGraph : List NFANode) :
    Except Failure (List NFANode × List (List ℕ)) := do
  let nfaNodeClosures ← (List.range nfaGraph.length).mapM (epsilonClosureExcludingSelf nfaGraph)
  let nfaGraph := nfaGraph.mapIdx fun nodeId node =>
    if (nfaNodeClosures.getD nodeId []).isEmpty then node
    else { node with transitions := node.transitions.erase epsilonTransitionCharacter }
  return (nfaGraph, nfaNodeClosures)

def extendSetWithClosure (nfaNodeClosures : List (List ℕ)) (nodeId : ℕ) (set : NodeIdSet) :
    NodeIdSet :=
  set.addAll (nfaNodeClosures.getD nodeId [])

/-- The targets for every key below 128. -/
abbrev SetTransitions := List NodeIdSet

def emptySetTransitions : SetTransitions := List.replicate 128 ∅

/-- A target that is in the set already is not extended with its closure again. -/
def addFallbackTarget (nfaNodeClosures : List (List ℕ)) (set : NodeIdSet) (targetNodeId : ℕ) :
    NodeIdSet :=
  if targetNodeId ∈ set then set
  else extendSetWithClosure nfaNodeClosures targetNodeId (set.add targetNodeId)

def addTarget (nfaNodeClosures : List (List ℕ)) (targetSet : NodeIdSet) (targetNodeId : ℕ) :
    NodeIdSet :=
  extendSetWithClosure nfaNodeClosures targetNodeId (targetSet.add targetNodeId)

/-- The first part of `populateTransitions`. -/
def populateFallbackTransition (sourceNodeSet : NodeIdSet) (graph : List NFANode)
    (nfaNodeClosures : List (List ℕ)) : NodeIdSet :=
  let allFallbackTransitions := sourceNodeSet.elems.flatMap fun nodeId =>
    (graph.getD nodeId {}).transitionsOnAnyCharacter.elems
  allFallbackTransitions.foldl (addFallbackTarget nfaNodeClosures) ∅

/-- The body of the loop over the transitions of a node, at the target set of its key. -/
def populateSlot (nfaNodeClosures : List (List ℕ)) (setFallbackTransition : NodeIdSet)
    (key : ℕ) (slot : NFANodeIndexSet) (targetSet : NodeIdSet) : NodeIdSet :=
  let targetSet := slot.elems.foldl (addTarget nfaNodeClosures) targetSet
  if key ≠ 0 then targetSet.addAll setFallbackTransition.elems else targetSet

/-- The second part of `populateTransitions`. -/
def populateSetTransitions (sourceNodeSet : NodeIdSet) (graph : List NFANode)
    (nfaNodeClosures : List (List ℕ)) (setFallbackTransition : NodeIdSet) : SetTransitions :=
  let slots := sourceNodeSet.elems.flatMap fun nodeId => (graph.getD nodeId {}).transitions.entries
  slots.foldl (fun setTransitions slot =>
    setTransitions.modify slot.1
      (populateSlot nfaNodeClosures setFallbackTransition slot.1 slot.2)) emptySetTransitions

structure UniqueNodeIdSet where
  nodeIdSet : NodeIdSet
  dfaNodeId : ℕ

/-- The result so far with the table of the sets that have a node. -/
structure Builder where
  dfa : DFA := {}
  uniqueNodeIdSetTable : List UniqueNodeIdSet := []
  unprocessedNodes : List UniqueNodeIdSet := []

/-- `NodeIdSetToUniqueNodeIdSetTranslator::translate`, for a set that is not in the table. -/
def translate (order : ActionOrder) (nfaGraph : List NFANode) (nodeIdSet : NodeIdSet)
    (builder : Builder) : Except Failure (Builder × UniqueNodeIdSet) :=
  let actions := order.iterate nodeIdSet
    (nodeIdSet.elems.flatMap fun nfaNodeId => (nfaGraph.getD nfaNodeId {}).finalRuleIds)
  if actions.length ≤ 65535 then
    let dfa := builder.dfa
    let newDFANode : DFANode :=
      { actionsStart := dfa.actions.length, actionsLength := actions.length }
    let location : UniqueNodeIdSet := ⟨nodeIdSet, dfa.nodes.length⟩
    return ({ builder with
      dfa := { dfa with actions := dfa.actions ++ actions, nodes := dfa.nodes ++ [newDFANode] }
      uniqueNodeIdSetTable := builder.uniqueNodeIdSetTable ++ [location] }, location)
  else throw .crash

def getOrCreateDFANode (order : ActionOrder) (nfaGraph : List NFANode) (nfaNodeSet : NodeIdSet)
    (builder : Builder) : Except Failure (Builder × ℕ) :=
  match builder.uniqueNodeIdSetTable.find? (·.nodeIdSet.sameElements nfaNodeSet) with
  | some uniqueNodeIdSet => return (builder, uniqueNodeIdSet.dfaNodeId)
  | none => do
    let (builder, location) ← translate order nfaGraph nfaNodeSet builder
    return ({ builder with unprocessedNodes := location :: builder.unprocessedNodes },
      location.dfaNodeId)

/-- The body of the loop over the keys. -/
def appendTransition (order : ActionOrder) (nfaGraph : List NFANode)
    (setTransitions : SetTransitions) (builder : Builder) (key : ℕ) : Except Failure Builder :=
  let targetNodeSet := setTransitions.getD key ∅
  if targetNodeSet.isEmpty then return builder
  else do
    let (builder, targetNodeId) ← getOrCreateDFANode order nfaGraph targetNodeSet builder
    let dfa := builder.dfa
    return { builder with
      dfa := { dfa with transitions := dfa.transitions ++ [(key, targetNodeId)] } }

/-- The range of a node's transitions, once they have been appended. -/
def setNodeTransitions (dfaNodeId transitionsStart : ℕ) (builder : Builder) :
    Except Failure Builder :=
  let dfa := builder.dfa
  let transitionsLength := dfa.transitions.length - transitionsStart
  if transitionsLength ≤ 127 then
    return { builder with dfa := { dfa with nodes := dfa.nodes.modify dfaNodeId fun node =>
      { node with transitionsStart := transitionsStart, transitionsLength := transitionsLength } } }
  else throw .crash

def appendFallbackTransition (order : ActionOrder) (nfaGraph : List NFANode) (dfaNodeId : ℕ)
    (setFallbackTransition : NodeIdSet) (builder : Builder) : Except Failure Builder :=
  if setFallbackTransition.isEmpty then return builder
  else do
    let (builder, targetNodeId) ← getOrCreateDFANode order nfaGraph setFallbackTransition builder
    match builder.dfa.addFallbackTransition dfaNodeId targetNodeId with
    | some dfa => return { builder with dfa }
    | none => throw .crash

/-- The body of the `do` loop, for a set that has been taken off the stack. -/
def processNode (order : ActionOrder) (nfaGraph : List NFANode) (nfaNodeClosures : List (List ℕ))
    (uniqueNodeIdSet : UniqueNodeIdSet) (builder : Builder) : Except Failure Builder := do
  let setFallbackTransition :=
    populateFallbackTransition uniqueNodeIdSet.nodeIdSet nfaGraph nfaNodeClosures
  let setTransitions := populateSetTransitions uniqueNodeIdSet.nodeIdSet nfaGraph nfaNodeClosures
    setFallbackTransition
  let transitionsStart := builder.dfa.transitions.length
  let builder ← (List.range 128).foldlM (appendTransition order nfaGraph setTransitions) builder
  let builder ← setNodeTransitions uniqueNodeIdSet.dfaNodeId transitionsStart builder
  appendFallbackTransition order nfaGraph uniqueNodeIdSet.dfaNodeId setFallbackTransition builder

/-- The `do` loop; the fuel is a bound on the number of its iterations. -/
def convertLoop (order : ActionOrder) (nfaGraph : List NFANode)
    (nfaNodeClosures : List (List ℕ)) : ℕ → Builder → Except Failure DFA
  | 0, _ => throw .outOfFuel
  | fuel + 1, builder =>
    match builder.unprocessedNodes with
    | [] => throw .crash
    | uniqueNodeIdSet :: rest => do
      let builder ← processNode order nfaGraph nfaNodeClosures uniqueNodeIdSet
        { builder with unprocessedNodes := rest }
      if builder.unprocessedNodes.isEmpty then return builder.dfa
      else convertLoop order nfaGraph nfaNodeClosures fuel builder

/-- A graph of `n` nodes has `2 ^ n` sets of nodes, each of which is processed once. -/
def convert (order : ActionOrder) (nfa : NFA) : Except Failure DFA := do
  let (nfaGraph, nfaNodeClosures) ← resolveEpsilonClosures nfa.nodes
  let initialSet := extendSetWithClosure nfaNodeClosures nfa.root ((∅ : NodeIdSet).add nfa.root)
  let (builder, location) ← translate order nfaGraph initialSet {}
  convertLoop order nfaGraph nfaNodeClosures (2 ^ nfa.nodes.length)
    { builder with unprocessedNodes := [location] }

end NFAToDFA

end WebKit.ContentExtensions
