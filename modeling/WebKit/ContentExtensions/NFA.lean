import Mathlib
import WebKit.Automata.IndexSet

/-!
# `NFA`

The nondeterministic graph that the patterns of a rule list are compiled to. A node maps
characters, and the epsilon key 256, to sets of nodes; apart from that it has the nodes
reached by every character other than the end of string 0. Characters are ASCII, so the
keys of the transitions are below 128.

`NFA.Valid` is what the assertions of the building functions promise: node ids are in
range. `NFA.automaton` is the meaning of a graph.
-/

open List

namespace WebKit.ContentExtensions

open Automata IndexSet

/-- The characters of a URL, with 0 for its end. -/
abbrev Character := Fin 128

instance neZeroCharacter : NeZero 128 := ⟨by decide⟩

abbrev NFANodeIndexSet := IndexSet

abbrev NFANodeTransitions := AList fun _ : ℕ => NFANodeIndexSet

structure NFANode where
  transitions : NFANodeTransitions := ∅
  transitionsOnAnyCharacter : NFANodeIndexSet := ∅
  finalRuleIds : List ℕ := []

structure NFA where
  nodes : List NFANode
  root : ℕ

/-- The key of the epsilon transitions. -/
def epsilonTransitionCharacter : ℕ := 256

/-- `HashMap::add`: the slot of the key, an empty one when there is none. -/
def NFANode.slot (node : NFANode) (key : ℕ) : NFANodeIndexSet :=
  (node.transitions.lookup key).getD ∅

/-- The node with one more target in the slot of the key. -/
def NFANode.addTarget (node : NFANode) (key target : ℕ) : NFANode :=
  { node with transitions := node.transitions.insert key ((node.slot key).add target) }

namespace NFA

/-- A graph with only its root. -/
def create : NFA := ⟨[{}], 0⟩

/-- The graph with a new node, and the id of the node. -/
def createNode (nfa : NFA) : NFA × ℕ := ({ nfa with nodes := nfa.nodes ++ [{}] }, nfa.nodes.length)

def addTransition (nfa : NFA) (source target character : ℕ) : NFA :=
  { nfa with nodes := nfa.nodes.modify source fun fromNode =>
      if target ∈ fromNode.transitionsOnAnyCharacter then fromNode
      else fromNode.addTarget character target }

def addEpsilonTransition (nfa : NFA) (source target : ℕ) : NFA :=
  { nfa with nodes := nfa.nodes.modify source (·.addTarget epsilonTransitionCharacter target) }

/-- The loop that follows in the source takes `to` out of copies of the other slots. -/
def addTransitionsOnAnyCharacter (nfa : NFA) (source target : ℕ) : NFA :=
  { nfa with nodes := nfa.nodes.modify source fun fromNode =>
      { fromNode with
        transitionsOnAnyCharacter := fromNode.transitionsOnAnyCharacter.add target } }

def setActions (nfa : NFA) (node : ℕ) (actions : List ℕ) : NFA :=
  { nfa with nodes := nfa.nodes.modify node ({ · with finalRuleIds := actions }) }

def graphSize (nfa : NFA) : ℕ := nfa.nodes.length

end NFA

structure NFANode.Valid (graphSize : ℕ) (node : NFANode) : Prop where
  key : ∀ key ∈ node.transitions, key < 128 ∨ key = epsilonTransitionCharacter
  slot : ∀ key, ∀ target ∈ node.slot key, target < graphSize
  any : ∀ target ∈ node.transitionsOnAnyCharacter, target < graphSize

structure NFA.Valid (nfa : NFA) : Prop where
  root : nfa.root < nfa.graphSize
  node : ∀ node ∈ nfa.nodes, node.Valid nfa.graphSize

namespace NFANode.Valid

variable {n : ℕ} {node : NFANode} {key target : ℕ}

theorem default : NFANode.Valid n {} := by
  refine ⟨fun key h => ?_, fun key target h => ?_, fun target h => ?_⟩
  · exact absurd h (AList.notMem_empty key)
  · exact absurd h not_mem_empty
  · exact absurd h not_mem_empty

theorem mono {m : ℕ} (h : node.Valid n) (hle : n ≤ m) : node.Valid m :=
  ⟨h.key, fun key target hto => (h.slot key target hto).trans_le hle,
    fun target hto => (h.any target hto).trans_le hle⟩

theorem addTarget (h : node.Valid n) (hkey : key < 128 ∨ key = epsilonTransitionCharacter)
    (hto : target < n) : (node.addTarget key target).Valid n := by
  refine ⟨fun k hk => ?_, fun k t ht => ?_, h.any⟩
  · rcases (AList.mem_insert _).mp hk with rfl | hk
    · exact hkey
    · exact h.key k hk
  · by_cases hk : k = key
    · subst hk
      have hslot : (node.addTarget k target).slot k = (node.slot k).add target := by
        simp [NFANode.slot, NFANode.addTarget]
      rw [hslot, mem_add] at ht
      rcases ht with ht | rfl
      · exact h.slot k t ht
      · exact hto
    · have hslot : (node.addTarget key target).slot k = node.slot k := by
        simp [NFANode.slot, NFANode.addTarget, AList.lookup_insert_ne hk]
      rw [hslot] at ht
      exact h.slot k t ht

end NFANode.Valid

namespace NFA.Valid

variable {nfa : NFA} {source target character node : ℕ}

theorem create : NFA.create.Valid := by
  refine ⟨by decide, fun node hnode => ?_⟩
  rw [mem_singleton.mp hnode]
  exact .default

theorem createNode (h : nfa.Valid) : nfa.createNode.1.Valid := by
  have hle : nfa.graphSize ≤ nfa.createNode.1.graphSize := by simp [graphSize, NFA.createNode]
  refine ⟨h.root.trans_le hle, fun node hnode => ?_⟩
  rcases mem_append.mp hnode with hnode | hnode
  · exact (h.node node hnode).mono hle
  · rw [mem_singleton.mp hnode]
    exact .default

theorem modify {f : NFANode → NFANode} (h : nfa.Valid)
    (hf : ∀ fromNode, fromNode.Valid nfa.graphSize → (f fromNode).Valid nfa.graphSize) :
    NFA.Valid { nfa with nodes := nfa.nodes.modify source f } := by
  have hsize : graphSize { nfa with nodes := nfa.nodes.modify source f } = nfa.graphSize := by
    simp [graphSize]
  refine ⟨hsize ▸ h.root, fun node hnode => hsize ▸ ?_⟩
  obtain ⟨i, hi, rfl⟩ := mem_iff_getElem.mp hnode
  have hi' : i < nfa.nodes.length := by simpa using hi
  rw [getElem_modify]
  have hvalid := h.node _ (getElem_mem hi')
  split
  · exact hf _ hvalid
  · exact hvalid

theorem addTransition (h : nfa.Valid) (hto : target < nfa.graphSize) (hchar : character < 128) :
    (nfa.addTransition source target character).Valid := by
  refine h.modify fun fromNode hfrom => ?_
  split
  · exact hfrom
  · exact hfrom.addTarget (.inl hchar) hto

theorem addTransitionsOnAnyCharacter (h : nfa.Valid) (hto : target < nfa.graphSize) :
    (nfa.addTransitionsOnAnyCharacter source target).Valid := by
  refine h.modify fun fromNode hfrom => ⟨hfrom.key, hfrom.slot, fun t ht => ?_⟩
  rcases mem_add.mp ht with ht | rfl
  · exact hfrom.any t ht
  · exact hto

theorem setActions (h : nfa.Valid) (actions : List ℕ) : (nfa.setActions node actions).Valid :=
  h.modify fun _ hfrom => ⟨hfrom.key, hfrom.slot, hfrom.any⟩

end NFA.Valid

namespace NFA

/-- The nodes reached by one character, or by an epsilon transition. -/
def targets (nfa : NFA) (nodeId : ℕ) : Option Character → Set ℕ
  | none => {target | ∃ node, nfa.nodes[nodeId]? = some node ∧
      target ∈ node.slot epsilonTransitionCharacter}
  | some c => {target | ∃ node, nfa.nodes[nodeId]? = some node ∧
      (target ∈ node.slot c ∨ c ≠ 0 ∧ target ∈ node.transitionsOnAnyCharacter)}

def automaton (nfa : NFA) : εNFA Character ℕ where
  step := nfa.targets
  start := {nfa.root}
  accept := {nodeId | ∃ node, nfa.nodes[nodeId]? = some node ∧ node.finalRuleIds ≠ []}

/-- The rules that are final in some node of the set. -/
def ruleIds (nfa : NFA) (nodeIds : Set ℕ) : Set ℕ :=
  {ruleId | ∃ nodeId ∈ nodeIds, ∃ node, nfa.nodes[nodeId]? = some node ∧ ruleId ∈ node.finalRuleIds}

end NFA

end WebKit.ContentExtensions
