import WebKit.ContentExtensions.DFA
import WebKit.ContentExtensions.PartitionRefinement
import WebKit.Counting.Buckets

/-!
# `FullGraphPartition`

What `DFAMinimizer::minimize` does between `simplifyTransitions` and the relocation of the
nodes: the nodes are partitioned by their actions, and then refined by the transitions on
characters and by the fallback transitions until no set of transitions tells two nodes of a
set apart. The transitions are partitioned too: a set of transitions has one character and
leads to one set of nodes.

The transitions are in tables that list those that lead to a node in one range, the table
of a counting sort. The loops over the sets of transitions end because a partition has at
most as many sets as elements; that many turns are the fuel of their definitions.
-/

namespace WebKit.ContentExtensions

structure Transition where
  source : ℕ
  target : ℕ
  character : ℕ
  deriving DecidableEq, Repr

/-- `m_flattenedTransitions` or `m_flattenedFallbackTransitions`, with the ranges of the
nodes that the transitions lead to. -/
structure FlattenedTransitions (δ : Type*) where
  startOffsetPerNode : ℕ → ℕ
  sizePerNode : ℕ → ℕ
  transition : ℕ → δ
  size : ℕ

namespace FlattenedTransitions

variable {ε δ : Type*}

/-- Count the incoming transitions per node, accumulate the offsets, and fill the table. -/
def create (nodeCount : ℕ) (target : ε → ℕ) (value : ε → δ) (unset : δ) (transitions : List ε) :
    FlattenedTransitions δ :=
  let offsets := Buckets.accumulate nodeCount (Buckets.counts target transitions)
  let placed := Buckets.place target value offsets.1 (fun _ => unset) transitions
  { startOffsetPerNode := offsets.1
    sizePerNode := placed.1
    transition := placed.2
    size := offsets.2 }

/-- The indices of the transitions that lead to a node. -/
def incoming (table : FlattenedTransitions δ) (nodeIndex : ℕ) : List ℕ :=
  (List.range (table.sizePerNode nodeIndex)).map (table.startOffsetPerNode nodeIndex + ·)

def markIncoming (table : FlattenedTransitions δ) (partition : Partition) (nodeIndex : ℕ) :
    Partition :=
  (table.incoming nodeIndex).foldl Partition.markElementInCurrentGeneration partition

end FlattenedTransitions

namespace DFA

/-- The transitions on characters in the order of the loops over the nodes. -/
def individualTransitions (dfa : DFA) : List Transition :=
  (List.range dfa.nodes.length).flatMap fun i =>
    ((dfa.nodes.getD i {}).transitions dfa).map fun transition =>
      ⟨i, transition.2, transition.1⟩

/-- The source and the target of the fallback transitions. -/
def fallbackTransitions (dfa : DFA) : List (ℕ × ℕ) :=
  (List.range dfa.nodes.length).filterMap fun i =>
    if (dfa.nodes.getD i {}).hasFallbackTransition then
      some (i, (dfa.nodes.getD i {}).fallbackTransitionDestination dfa)
    else none

end DFA

structure FullGraphPartition where
  flattenedTransitions : FlattenedTransitions Transition
  flattenedFallbackTransitions : FlattenedTransitions ℕ
  nodePartition : Partition
  transitionPartition : Partition
  fallbackTransitionPartition : Partition
  nextTransitionSetToProcess : ℕ

namespace FullGraphPartition

/-- Each character differentiating a transition from another gets its own set in the
partition. -/
def separateCharacter (table : FlattenedTransitions Transition) (partition : Partition)
    (i : ℕ) : Partition :=
  ((List.range table.size).foldl (fun partition transitionIndex =>
    if (table.transition transitionIndex).character = i then
      partition.markElementInCurrentGeneration transitionIndex
    else partition) partition).refine

def create (dfa : DFA) : FullGraphPartition :=
  let flattenedTransitions :=
    FlattenedTransitions.create dfa.nodes.length Transition.target id ⟨0, 0, 0⟩
      dfa.individualTransitions
  let flattenedFallbackTransitions :=
    FlattenedTransitions.create dfa.nodes.length Prod.snd Prod.fst 0 dfa.fallbackTransitions
  { flattenedTransitions
    flattenedFallbackTransitions
    nodePartition := .initialized dfa.nodes.length
    transitionPartition :=
      (List.range 128).foldl (separateCharacter flattenedTransitions)
        (.initialized flattenedTransitions.size)
    -- Fallback partitions are considered as a special type of differentiator, we don't split
    -- them initially.
    fallbackTransitionPartition := .initialized flattenedFallbackTransitions.size
    nextTransitionSetToProcess := 0 }

def markNode (g : FullGraphPartition) (nodeIndex : ℕ) : FullGraphPartition :=
  { g with nodePartition := g.nodePartition.markElementInCurrentGeneration nodeIndex }

/-- The function that `refinePartitions` calls for a new set of nodes: the transitions that
lead to it are separated. -/
def refineTransitions (g : FullGraphPartition) (nodes : Partition) (smallestSetIndex : ℕ)
    (transitions : Partition × Partition) : Partition × Partition :=
  let marked := nodes.iterateSet smallestSetIndex (fun transitions nodeIndex =>
    (g.flattenedTransitions.markIncoming transitions.1 nodeIndex,
      g.flattenedFallbackTransitions.markIncoming transitions.2 nodeIndex)) transitions
  (marked.1.refine, marked.2.refine)

def refinePartitions (g : FullGraphPartition) : FullGraphPartition :=
  let refined := g.nodePartition.refineGeneration g.refineTransitions
    (g.transitionPartition, g.fallbackTransitionPartition)
  { g with
    nodePartition := refined.1
    transitionPartition := refined.2.1
    fallbackTransitionPartition := refined.2.2 }

/-- Use a set of transitions as a splitter of the sets of nodes. -/
def splitByTransitionSet (g : FullGraphPartition) (setIndex : ℕ) : FullGraphPartition :=
  (g.transitionPartition.iterateSet setIndex (fun g transitionIndex =>
    g.markNode (g.flattenedTransitions.transition transitionIndex).source) g).refinePartitions

def splitByFallbackTransitionSet (g : FullGraphPartition) (setIndex : ℕ) : FullGraphPartition :=
  (g.fallbackTransitionPartition.iterateSet setIndex (fun g transitionIndex =>
    g.markNode (g.flattenedFallbackTransitions.transition transitionIndex)) g).refinePartitions

/-- The loop of `splitByUniqueTransitions`; `none` when the turns do not suffice. -/
def splitByUniqueTransitionsLoop : ℕ → FullGraphPartition → Option FullGraphPartition
  | 0, _ => none
  | turns + 1, g =>
    if g.nextTransitionSetToProcess < g.transitionPartition.size then
      splitByUniqueTransitionsLoop turns
        { g.splitByTransitionSet g.nextTransitionSetToProcess with
          nextTransitionSetToProcess := g.nextTransitionSetToProcess + 1 }
    else some g

def splitByUniqueTransitions (g : FullGraphPartition) : Option FullGraphPartition :=
  splitByUniqueTransitionsLoop (g.flattenedTransitions.size + 1) g

/-- The loop of `splitByFallbackTransitions` from a set on. -/
def splitByFallbackTransitionsLoop :
    ℕ → ℕ → FullGraphPartition → Option FullGraphPartition
  | 0, _, _ => none
  | turns + 1, fallbackTransitionSetIndex, g =>
    if fallbackTransitionSetIndex < g.fallbackTransitionPartition.size then do
      -- Any new split need to spread to all the unique transition that can reach the two new
      -- sets.
      let g ← (g.splitByFallbackTransitionSet fallbackTransitionSetIndex).splitByUniqueTransitions
      splitByFallbackTransitionsLoop turns (fallbackTransitionSetIndex + 1) g
    else some g

def splitByFallbackTransitions (g : FullGraphPartition) : Option FullGraphPartition :=
  splitByFallbackTransitionsLoop (g.flattenedFallbackTransitions.size + 1) 0 g

end FullGraphPartition

/-- `finalStates.add` of a key and `append` to the vector of its slot. -/
def addFinalState (key : List ℕ) (nodeIndex : ℕ) :
    List (List ℕ × List ℕ) → List (List ℕ × List ℕ)
  | [] => [(key, [nodeIndex])]
  | slot :: slots =>
    if slot.1 = key then (slot.1, slot.2 ++ [nodeIndex]) :: slots
    else slot :: addFinalState key nodeIndex slots

/-- The nodes with actions by their `ActionKey`. Two keys are equal when the actions are:
the same number of them, with the same values. (`state`, which the constructor of a key
leaves alone, is `Valid`.) -/
def DFA.finalStates (dfa : DFA) : List (List ℕ × List ℕ) :=
  (List.range dfa.nodes.length).foldl (fun finalStates i =>
    if (dfa.nodes.getD i {}).actionsLength ≠ 0 then
      addFinalState ((dfa.nodes.getD i {}).actions dfa) i finalStates
    else finalStates) []

/-- The part of `DFAMinimizer::minimize` that partitions the nodes. `slots` are the final
states in the order in which the hash table lists them. -/
def DFA.partitionNodes (dfa : DFA) (slots : List (List ℕ × List ℕ)) :
    Option FullGraphPartition := do
  let g := slots.foldl (fun g slot =>
    (slot.2.foldl FullGraphPartition.markNode g).refinePartitions) (.create dfa)
  -- Use every splitter to refine the node partitions.
  let g ← g.splitByUniqueTransitions
  g.splitByFallbackTransitions

/-!
## The sets of transitions follow the sets of nodes

`Edges` is what the refinement needs to know about a table of transitions, `Edges.Divided`
what it keeps of a partition of them: the transitions of one set have one character and
lead to one set of nodes, and the transitions of nodes that a relation `R` identifies are
not separated. When a set of nodes is split, separating the transitions that lead to the new
set restores this (`Edges.Divided.split`).
-/

open Refinement Partition

/-- The transitions of a graph of `n` nodes, by their index in a table. -/
structure Edges (n : ℕ) (R : ℕ → ℕ → Prop) where
  size : ℕ
  source : ℕ → ℕ
  target : ℕ → ℕ
  /-- The character; one value for all fallback transitions. -/
  character : ℕ → ℕ
  incoming : ℕ → List ℕ
  source_lt : ∀ e < size, source e < n
  target_lt : ∀ e < size, target e < n
  source_inj : ∀ e < size, ∀ e' < size,
    source e = source e' → character e = character e' → e = e'
  nodup_incoming : ∀ x < n, (incoming x).Nodup
  mem_incoming : ∀ x < n, ∀ e, e ∈ incoming x ↔ e < size ∧ target e = x
  lifts : Lifts (elements n) (elements size) source target R
    fun e e' => R (source e) (source e') ∧ character e = character e'

namespace Edges

variable {n : ℕ} {R : ℕ → ℕ → Prop} (E : Edges n R)

/-- Transitions on one character from nodes that are identified. -/
def Alike (e e' : ℕ) : Prop := R (E.source e) (E.source e') ∧ E.character e = E.character e'

def markIncoming (edges : Partition) (nodeIndex : ℕ) : Partition :=
  (E.incoming nodeIndex).foldl markElementInCurrentGeneration edges

/-- A partition of the transitions, when `index` are the sets of the nodes. -/
structure Divided (index : ℕ → ℕ) (edges : Partition) : Prop where
  clear : edges.Clear E.size
  sameTarget : SameTarget (elements E.size) E.target index edges.setIndex
  sameCharacter : ∀ e < E.size, ∀ e' < E.size, edges.setIndex e = edges.setIndex e' →
    E.character e = E.character e'
  keeps : Keeps E.Alike (elements E.size) edges.setIndex

/-- The second partition comes from the first by splitting sets. -/
structure Later (edges edges' : Partition) : Prop where
  refines : Refines (elements E.size) edges.size edges.setIndex edges'.setIndex
  size_le : edges.size ≤ edges'.size

variable {E} {edges edges' edges'' : Partition}

namespace Later

theorem refl (edges : Partition) : E.Later edges edges := ⟨.refl _ _ _, le_rfl⟩

theorem trans (h : E.Later edges edges') (h' : E.Later edges' edges'') : E.Later edges edges'' :=
  ⟨h.refines.trans h'.refines h.size_le, h.size_le.trans h'.size_le⟩

end Later

theorem Divided.injOn {index : ℕ → ℕ} (h : E.Divided index edges) (i : ℕ) :
    Set.InjOn E.source (cell (elements E.size) edges.setIndex i) := by
  rintro e ⟨he, hi⟩ e' ⟨he', hi'⟩ heq
  exact E.source_inj e he e' he' heq (h.sameCharacter e he e' he' (hi.trans hi'.symm))

theorem markIncoming_all {nodes : List ℕ} (h : edges.Clear E.size) (hlt : ∀ x ∈ nodes, x < n)
    (hnodup : nodes.Nodup) :
    (nodes.foldl E.markIncoming edges).Marking E.size ∧
      (nodes.foldl E.markIncoming edges).setIndex = edges.setIndex ∧
      (nodes.foldl E.markIncoming edges).size = edges.size ∧
      ∀ e < E.size, (nodes.foldl E.markIncoming edges).Marked e ↔ E.target e ∈ nodes := by
  have hfold : nodes.foldl E.markIncoming edges =
      (nodes.flatMap E.incoming).foldl markElementInCurrentGeneration edges := by
    rw [List.foldl_flatMap]
    rfl
  have hmem : ∀ e, e ∈ nodes.flatMap E.incoming ↔ e < E.size ∧ E.target e ∈ nodes := by
    intro e
    rw [List.mem_flatMap]
    constructor
    · rintro ⟨x, hx, he⟩
      obtain ⟨helt, rfl⟩ := (E.mem_incoming x (hlt x hx) e).mp he
      exact ⟨helt, hx⟩
    · rintro ⟨helt, hx⟩
      exact ⟨_, hx, (E.mem_incoming _ (hlt _ hx) e).mpr ⟨helt, rfl⟩⟩
  have hnodupAll : (nodes.flatMap E.incoming).Nodup := by
    rw [List.nodup_flatMap]
    refine ⟨fun x hx => E.nodup_incoming x (hlt x hx), ?_⟩
    refine hnodup.imp_of_mem fun {x y} hx hy hne e hex hey => hne ?_
    rw [← ((E.mem_incoming x (hlt x hx) e).mp hex).2, ((E.mem_incoming y (hlt y hy) e).mp hey).2]
  obtain ⟨hmarking, hindex, hsize, hmarked⟩ := h.marking.markAll (fun e he => ((hmem e).mp he).1)
    hnodupAll fun e he => h.not_marked ((hmem e).mp he).1
  rw [hfold]
  refine ⟨hmarking, hindex, hsize, fun e he => ?_⟩
  rw [hmarked e he, hmem]
  have hnot := h.not_marked he
  tauto

theorem Divided.split {p p' : Partition} {k : ℕ} (h : E.Divided p.setIndex edges)
    (href : SetRefined n p k p') (hsize : p'.size = p.size + 1)
    (hkeeps : Keeps R (elements n) p'.setIndex) :
    E.Divided p'.setIndex ((p'.elementsInSet p.size).foldl E.markIncoming edges).refine ∧
      E.Later edges ((p'.elementsInSet p.size).foldl E.markIncoming edges).refine := by
  have hnew : p.size < p'.size := by omega
  have hmem : ∀ x, x ∈ p'.elementsInSet p.size ↔ x < n ∧ p'.setIndex x = p.size :=
    fun x => href.valid.mem_elementsInSet hnew
  obtain ⟨hmarking, hindex, hcount, hmarked⟩ := E.markIncoming_all h.clear
    (fun x hx => ((hmem x).mp hx).1) (href.valid.nodup_elementsInSet hnew)
  obtain ⟨hclear, hsep, hsizeLe⟩ := hmarking.refine
  rw [hindex, hcount] at hsep
  rw [hcount] at hsizeLe
  -- The marked transitions are those that lead to the new set.
  have hsep' := hsep.congr (S := {e | p'.setIndex (E.target e) = p.size}) (by
    intro e he
    rw [Set.mem_ofPred_eq, Set.mem_ofPred_eq, hmarked e he, hmem]
    exact and_iff_right (E.target_lt e he))
  refine ⟨⟨hclear, ?_, ?_, ?_⟩, hsep.refines, hsizeLe⟩
  · exact h.sameTarget.split (fun x hx => (href.kept x hx).imp id And.left) E.target_lt hsep'
  · intro e he e' he' heq
    exact h.sameCharacter e he e' he' (hsep'.refines.same e he e' he' heq)
  · refine hsep'.keeps h.keeps ?_
    exact Respects.preimage E.lifts E.target_lt (hkeeps.respects p.size)

end Edges

end WebKit.ContentExtensions
