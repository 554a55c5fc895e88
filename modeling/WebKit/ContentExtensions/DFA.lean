import WebKit.Automata.Determinize
import WebKit.ContentExtensions.NFA

/-!
# `DFA`

The deterministic graph in its packed form: the nodes hold ranges of two vectors that all
nodes share, one of actions and one of transitions. The fallback transition of a node is
the entry after its other transitions, with the key 255 in place of a character; it is
taken for every character but the end of string that has no transition of its own.
-/

namespace WebKit.ContentExtensions

open Automata

structure DFANode where
  actionsStart : ℕ := 0
  transitionsStart : ℕ := 0
  actionsLength : ℕ := 0
  transitionsLength : ℕ := 0
  hasFallbackTransition : Bool := false
  isKilled : Bool := false
  deriving DecidableEq, Repr

structure DFA where
  actions : List ℕ := []
  transitions : List (ℕ × ℕ) := []
  nodes : List DFANode := []
  root : ℕ := 0
  deriving DecidableEq, Repr

/-- `std::numeric_limits<uint8_t>::max()`, the key of a fallback transition. -/
def fallbackTransitionCharacter : ℕ := 255

namespace DFANode

def actions (node : DFANode) (dfa : DFA) : List ℕ :=
  (dfa.actions.drop node.actionsStart).take node.actionsLength

def transitions (node : DFANode) (dfa : DFA) : List (ℕ × ℕ) :=
  (dfa.transitions.drop node.transitionsStart).take node.transitionsLength

/-- The index of the entry after the transitions on characters. -/
def fallbackIndex (node : DFANode) : ℕ := node.transitionsStart + node.transitionsLength

/-- Only called when the node has a fallback transition. -/
def fallbackTransitionDestination (node : DFANode) (dfa : DFA) : ℕ :=
  (dfa.transitions.getD node.fallbackIndex (fallbackTransitionCharacter, 0)).2

end DFANode

namespace DFA

/-- `DFANode::addFallbackTransition`, which fails when the node is not at the end. -/
def addFallbackTransition (dfa : DFA) (nodeId destination : ℕ) : Option DFA :=
  let node := dfa.nodes.getD nodeId {}
  if dfa.transitions.length = node.fallbackIndex then
    some { dfa with
      transitions := dfa.transitions ++ [(fallbackTransitionCharacter, destination)]
      nodes := dfa.nodes.set nodeId { node with hasFallbackTransition := true } }
  else none

def stepNode (dfa : DFA) (node : DFANode) (c : Character) : Option ℕ :=
  match (node.transitions dfa).lookup c.val with
  | some target => some target
  | none =>
    if c ≠ 0 ∧ node.hasFallbackTransition then some (node.fallbackTransitionDestination dfa)
    else none

/-- The individual transition on the character, else the fallback transition. -/
def step (dfa : DFA) (nodeId : ℕ) (c : Character) : Option ℕ :=
  dfa.nodes[nodeId]?.bind (dfa.stepNode · c)

/-- The node reached from the root, or `none` when the run is stuck. -/
def run (dfa : DFA) (w : List Character) : Option ℕ := Automata.run dfa.step dfa.root w

def actionsOf (dfa : DFA) (nodeId : ℕ) : List ℕ := (dfa.nodes.getD nodeId {}).actions dfa

end DFA

namespace DFANode

/-- The index after the last transition of the node. -/
def transitionsEnd (node : DFANode) : ℕ :=
  node.fallbackIndex + if node.hasFallbackTransition then 1 else 0

def actionsEnd (node : DFANode) : ℕ := node.actionsStart + node.actionsLength

end DFANode

end WebKit.ContentExtensions
