import WebKit.Automata.Walk
import WebKit.ContentExtensions.SetTransitions

/-!
# The edges of a graph

A graph as it is built: an edge leads from a node to a target, by a key or by any character.
Each building function adds at most one edge to each node, and no slot is left empty.
`mem_eval_iff` ties the walks along the edges to the automaton of the graph.
-/

namespace WebKit.ContentExtensions

open Automata List NFANode

inductive EdgeLabel
  | key (key : ℕ)
  | any

namespace EdgeLabel

def epsilon : EdgeLabel := .key epsilonTransitionCharacter

/-- The words that an edge reads. -/
def reads : EdgeLabel → Language ℕ
  | .key character => if character = epsilonTransitionCharacter then 1 else {[character]}
  | .any => {word | ∃ character, 0 < character ∧ character < 128 ∧ word = [character]}

@[simp] theorem reads_epsilon : epsilon.reads = 1 := by
  unfold epsilon reads
  exact if_pos rfl

theorem mem_reads_epsilon {word : List ℕ} : word ∈ epsilon.reads ↔ word = [] := by
  rw [reads_epsilon, Language.mem_one]

theorem mem_reads_key {character : ℕ} {word : List ℕ} (h : character ≠ epsilonTransitionCharacter) :
    word ∈ (EdgeLabel.key character).reads ↔ word = [character] := by
  have hreads : (EdgeLabel.key character).reads = ({[character]} : Set (List ℕ)) := if_neg h
  rw [hreads]
  exact Set.mem_singleton_iff

theorem cases_reads {label : EdgeLabel} {word : List ℕ} (h : word ∈ label.reads) :
    label = epsilon ∧ word = [] ∨ label ≠ epsilon ∧ ∃ character, word = [character] := by
  cases label with
  | key character =>
    by_cases hkey : character = epsilonTransitionCharacter
    · subst hkey
      exact .inl ⟨rfl, mem_reads_epsilon.mp h⟩
    · refine .inr ⟨fun heq => hkey ?_, character, (mem_reads_key hkey).mp h⟩
      exact EdgeLabel.key.inj heq
  | any =>
    obtain ⟨character, -, -, hword⟩ := h
    exact .inr ⟨nofun, character, hword⟩

end EdgeLabel

namespace NFANode

variable {node : NFANode} {key key' target t : ℕ}

theorem mem_slot_addTarget :
    t ∈ (node.addTarget key target).slot key' ↔ t ∈ node.slot key' ∨ key' = key ∧ t = target := by
  by_cases hkey : key' = key
  · subst hkey
    simp [slot, addTarget]
  · simp [slot, addTarget, AList.lookup_insert_ne hkey, hkey]

theorem exists_mem_slot_addTarget (h : ∀ key ∈ node.transitions, ∃ t, t ∈ node.slot key) :
    ∀ key' ∈ (node.addTarget key target).transitions,
      ∃ t, t ∈ (node.addTarget key target).slot key' := by
  intro key' hkey'
  simp only [mem_slot_addTarget]
  rcases (AList.mem_insert _).mp hkey' with rfl | hkey'
  · exact ⟨target, .inr ⟨rfl, rfl⟩⟩
  · obtain ⟨t, ht⟩ := h key' hkey'
    exact ⟨t, .inl ht⟩

def edges (node : NFANode) : EdgeLabel → Set ℕ
  | .key key => {target | target ∈ node.slot key}
  | .any => {target | target ∈ node.transitionsOnAnyCharacter}

theorem mem_edges_addTarget {label : EdgeLabel} : t ∈ (node.addTarget key target).edges label ↔
    t ∈ node.edges label ∨ label = .key key ∧ t = target := by
  cases label with
  | key key' =>
    change t ∈ (node.addTarget key target).slot key' ↔ _
    rw [mem_slot_addTarget]
    simp [edges]
  | any => simp [edges, addTarget]

end NFANode

namespace NFA

variable {nfa : NFA} {source target character x t : ℕ} {label : EdgeLabel}

def edges (nfa : NFA) (nodeId : ℕ) : EdgeLabel → Set ℕ
  | .key key => {target | target ∈ (nfa.nodeAt nodeId).slot key}
  | .any => {target | target ∈ (nfa.nodeAt nodeId).transitionsOnAnyCharacter}

/-- A walk along the edges reads the word. -/
abbrev Leads (nfa : NFA) : ℕ → List ℕ → ℕ → Prop := Walk nfa.edges EdgeLabel.reads

theorem edges_eq (x : ℕ) (label : EdgeLabel) : nfa.edges x label = (nfa.nodeAt x).edges label := by
  cases label <;> rfl

theorem lt_of_mem_edges (h : t ∈ nfa.edges x label) : x < nfa.graphSize := by
  by_contra hx
  have hnode : nfa.nodeAt x = {} := getD_eq_default _ _ (Nat.le_of_not_lt hx)
  rw [edges_eq, hnode] at h
  cases label <;> exact IndexSet.not_mem_empty h

theorem mem_targets_none_iff : t ∈ nfa.automaton.step x none ↔ t ∈ nfa.edges x EdgeLabel.epsilon :=
  mem_targets_none

theorem val_ne_epsilon (c : Character) : c.val ≠ epsilonTransitionCharacter := by
  unfold epsilonTransitionCharacter
  omega

theorem mem_targets_some_iff {c : Character} : t ∈ nfa.automaton.step x (some c) ↔
    ∃ label, t ∈ nfa.edges x label ∧ [c.val] ∈ label.reads := by
  refine mem_targets_some.trans ?_
  constructor
  · rintro (hslot | ⟨hne, hany⟩)
    · exact ⟨.key c.val, hslot, (EdgeLabel.mem_reads_key (val_ne_epsilon c)).mpr rfl⟩
    · have hpos : 0 < c.val := Nat.pos_of_ne_zero fun h0 => hne (Fin.ext h0)
      exact ⟨.any, hany, c.val, hpos, c.isLt, rfl⟩
  · rintro ⟨label, hedge, hreads⟩
    cases label with
    | key key =>
      by_cases hkey : key = epsilonTransitionCharacter
      · subst hkey
        exact absurd (EdgeLabel.mem_reads_epsilon.mp hreads) (cons_ne_nil _ _)
      · obtain rfl : c.val = key := by simpa using (EdgeLabel.mem_reads_key hkey).mp hreads
        exact .inl hedge
    | any =>
      obtain ⟨character, hpos, -, hword⟩ := hreads
      obtain rfl : c.val = character := by simpa using hword
      exact .inr ⟨fun h0 => by rw [h0] at hpos; exact absurd hpos (lt_irrefl 0), hedge⟩

variable {w : List Character}

theorem leads_of_mem_eval (h : t ∈ nfa.automaton.eval w) :
    nfa.Leads nfa.root (w.map Fin.val) t := by
  have hclos : ∀ (v : List ℕ) (nodeIds : Set ℕ), (∀ s ∈ nodeIds, nfa.Leads nfa.root v s) →
      ∀ t ∈ nfa.automaton.εClosure nodeIds, nfa.Leads nfa.root v t := by
    intro v nodeIds hbase t ht
    induction ht with
    | base s hs => exact hbase s hs
    | step s t hedge _ ih =>
      refine ih.append_edge (mem_targets_none_iff.mp hedge) ?_
      exact Language.nil_mem_one
  induction w using reverseRecOn generalizing t with
  | nil =>
    refine hclos [] _ ?_ t h
    rintro _ rfl
    exact .nil
  | append_singleton w c ih =>
    rw [εNFA.eval_append_singleton, εNFA.mem_stepSet_iff] at h
    obtain ⟨s, hs, ht⟩ := h
    rw [map_append]
    refine hclos _ _ (fun u hu => ?_) t ht
    obtain ⟨label, hedge, hreads⟩ := mem_targets_some_iff.mp hu
    exact (ih hs).snoc hedge hreads

theorem mem_eval_of_leads {v : List ℕ} (h : nfa.Leads nfa.root v t)
    (hw : v = w.map Fin.val) : t ∈ nfa.automaton.eval w := by
  have heps : ∀ {w : List Character} {s t : ℕ}, s ∈ nfa.automaton.eval w →
      t ∈ nfa.automaton.step s none → t ∈ nfa.automaton.eval w := by
    intro w s t hs ht
    induction w using reverseRecOn with
    | nil => exact εNFA.εClosure.step s t ht hs
    | append_singleton w c _ =>
      rw [εNFA.eval_append_singleton, εNFA.mem_stepSet_iff] at hs ⊢
      obtain ⟨r, hr, hs⟩ := hs
      exact ⟨r, hr, εNFA.εClosure.step s t ht hs⟩
  induction h generalizing w with
  | nil =>
    obtain rfl : w = [] := by simpa using hw.symm
    exact nfa.automaton.subset_εClosure _ rfl
  | @snoc s t label v u _ hedge hreads ih =>
    rcases EdgeLabel.cases_reads hreads with ⟨rfl, rfl⟩ | ⟨-, character, rfl⟩
    · rw [append_nil] at hw
      exact heps (ih hw) (mem_targets_none_iff.mpr hedge)
    · obtain ⟨w, w', rfl, hv, h'⟩ := map_eq_append_iff.mp hw.symm
      obtain ⟨c, rest, rfl, rfl, hrest⟩ := map_eq_cons_iff.mp h'
      obtain rfl := map_eq_nil_iff.mp hrest
      rw [εNFA.eval_append_singleton, εNFA.mem_stepSet_iff]
      exact ⟨s, ih hv.symm, nfa.automaton.subset_εClosure _
        (mem_targets_some_iff.mpr ⟨label, hedge, hreads⟩)⟩

theorem mem_eval_iff : t ∈ nfa.automaton.eval w ↔ nfa.Leads nfa.root (w.map Fin.val) t :=
  ⟨leads_of_mem_eval, fun h => mem_eval_of_leads h rfl⟩

theorem nodeAt_modify (nfa : NFA) (source x : ℕ) (f : NFANode → NFANode) :
    nodeAt { nfa with nodes := nfa.nodes.modify source f } x =
      if x = source ∧ x < nfa.graphSize then f (nfa.nodeAt x) else nfa.nodeAt x := by
  unfold nodeAt
  by_cases hx : x < nfa.nodes.length
  · rw [getD_eq_getElem _ _ (by rw [length_modify]; exact hx), getElem_modify,
      getD_eq_getElem _ _ hx]
    by_cases heq : x = source
    · subst heq
      rw [if_pos rfl, if_pos ⟨rfl, hx⟩]
    · rw [if_neg (Ne.symm heq), if_neg fun h => heq h.1]
  · have hle := Nat.le_of_not_lt hx
    rw [getD_eq_default _ _ (by rw [length_modify]; exact hle),
      getD_eq_default _ _ hle, if_neg fun h => hx h.2]

variable {f : NFANode → NFANode}

@[simp] theorem graphSize_modify :
    graphSize { nfa with nodes := nfa.nodes.modify source f } = nfa.graphSize := by
  exact length_modify ..

@[simp] theorem graphSize_createNode : nfa.createNode.1.graphSize = nfa.graphSize + 1 := by
  exact length_append ..

@[simp] theorem graphSize_addTransition :
    (nfa.addTransition source target character).graphSize = nfa.graphSize := graphSize_modify

@[simp] theorem graphSize_addEpsilonTransition :
    (nfa.addEpsilonTransition source target).graphSize = nfa.graphSize := graphSize_modify

@[simp] theorem graphSize_addTransitionsOnAnyCharacter :
    (nfa.addTransitionsOnAnyCharacter source target).graphSize = nfa.graphSize := graphSize_modify

@[simp] theorem graphSize_setActions {actions : List ℕ} :
    (nfa.setActions source actions).graphSize = nfa.graphSize := graphSize_modify

@[simp] theorem edges_createNode : nfa.createNode.1.edges = nfa.edges := by
  have hnode : ∀ x, nfa.createNode.1.nodeAt x = nfa.nodeAt x := by
    intro x
    change (nfa.nodes ++ [({} : NFANode)]).getD x {} = nfa.nodes.getD x {}
    rw [getD_eq_getElem?_getD, getD_eq_getElem?_getD]
    by_cases hx : x < nfa.nodes.length
    · rw [getElem?_append_left hx]
    · have hle := Nat.le_of_not_lt hx
      rw [getElem?_append_right hle, getElem?_eq_none hle]
      cases x - nfa.nodes.length <;> rfl
  funext x label
  cases label <;> simp only [edges, hnode]

/-- A change of one node that adds an edge to it. -/
theorem mem_edges_modify {added : EdgeLabel} (hsrc : source < nfa.graphSize)
    (hf : t ∈ (f (nfa.nodeAt source)).edges label ↔
      t ∈ (nfa.nodeAt source).edges label ∨ label = added ∧ t = target) :
    t ∈ ({ nfa with nodes := nfa.nodes.modify source f } : NFA).edges x label ↔
      t ∈ nfa.edges x label ∨ x = source ∧ label = added ∧ t = target := by
  rw [edges_eq, edges_eq, nfa.nodeAt_modify source x f]
  split
  · next h =>
    obtain ⟨rfl, -⟩ := h
    rw [hf, eq_self_iff_true, true_and]
  · next h =>
    have hx : x ≠ source := fun heq => h ⟨heq, heq ▸ hsrc⟩
    simp [hx]

theorem mem_edges_addEpsilonTransition (hsrc : source < nfa.graphSize) :
    t ∈ (nfa.addEpsilonTransition source target).edges x label ↔
      t ∈ nfa.edges x label ∨ x = source ∧ label = .epsilon ∧ t = target :=
  mem_edges_modify hsrc mem_edges_addTarget

theorem mem_edges_addTransition (hsrc : source < nfa.graphSize)
    (hany : target ∉ nfa.edges source .any) :
    t ∈ (nfa.addTransition source target character).edges x label ↔
      t ∈ nfa.edges x label ∨ x = source ∧ label = .key character ∧ t = target := by
  refine mem_edges_modify hsrc ?_
  rw [if_neg (show target ∉ (nfa.nodeAt source).transitionsOnAnyCharacter from hany)]
  exact mem_edges_addTarget

theorem mem_edges_addTransitionsOnAnyCharacter (hsrc : source < nfa.graphSize) :
    t ∈ (nfa.addTransitionsOnAnyCharacter source target).edges x label ↔
      t ∈ nfa.edges x label ∨ x = source ∧ label = .any ∧ t = target := by
  refine mem_edges_modify hsrc ?_
  cases label with
  | key key => simp [NFANode.edges, NFANode.slot]
  | any =>
    simp [NFANode.edges]

@[simp] theorem edges_setActions {actions : List ℕ} :
    (nfa.setActions source actions).edges = nfa.edges := by
  funext x label
  have hnode := nfa.nodeAt_modify source x ({ · with finalRuleIds := actions })
  rw [edges_eq, edges_eq, setActions, hnode]
  split <;> cases label <;> rfl

theorem EverySlotHasTarget.nodeAt (h : nfa.EverySlotHasTarget) {key : ℕ}
    (hkey : key ∈ (nfa.nodeAt x).transitions) : ∃ t, t ∈ nfa.edges x (.key key) := by
  by_cases hx : x < nfa.nodes.length
  · refine h (nfa.nodeAt x) ?_ key hkey
    rw [NFA.nodeAt, getD_eq_getElem _ _ hx]
    exact getElem_mem hx
  · rw [NFA.nodeAt, getD_eq_default _ _ (Nat.le_of_not_lt hx)] at hkey
    exact absurd hkey (AList.notMem_empty key)

/-- The characters with an individual transition are those of the edges by a key. -/
theorem EverySlotHasTarget.isIndividual_iff (h : nfa.EverySlotHasTarget) {nodeIds : Set ℕ}
    {c : Character} :
    nfa.IsIndividual nodeIds c ↔ ∃ x ∈ nodeIds, ∃ t, t ∈ nfa.edges x (.key c) := by
  constructor
  · rintro ⟨⟨x, hx, hkey⟩, -⟩
    exact ⟨x, hx, h.nodeAt hkey⟩
  · rintro ⟨x, hx, t, ht⟩
    refine ⟨⟨x, hx, mem_transitions_of_mem_slot ht⟩, t, mem_stepSet.mpr (.inl ?_)⟩
    exact ⟨x, hx, t, ht, nfa.automaton.subset_εClosure _ rfl⟩

theorem EverySlotHasTarget.modify (h : nfa.EverySlotHasTarget)
    (hf : ∀ node : NFANode, (∀ key ∈ node.transitions, ∃ t, t ∈ node.slot key) →
      ∀ key ∈ (f node).transitions, ∃ t, t ∈ (f node).slot key) :
    EverySlotHasTarget { nfa with nodes := nfa.nodes.modify source f } := by
  intro node hnode
  obtain ⟨i, hi, rfl⟩ := mem_iff_getElem.mp hnode
  have hi' : i < nfa.nodes.length := by simpa using hi
  rw [getElem_modify]
  have hold := h _ (getElem_mem hi')
  split
  · exact hf _ hold
  · exact hold

theorem everySlotHasTarget_create : NFA.create.EverySlotHasTarget := by
  intro node hnode key hkey
  rw [mem_singleton.mp hnode] at hkey
  exact absurd hkey (AList.notMem_empty key)

section

variable (h : nfa.EverySlotHasTarget)
include h

theorem EverySlotHasTarget.createNode :
    nfa.createNode.1.EverySlotHasTarget := by
  intro node hnode key hkey
  rcases mem_append.mp hnode with hnode | hnode
  · exact h node hnode key hkey
  · rw [mem_singleton.mp hnode] at hkey
    exact absurd hkey (AList.notMem_empty key)

theorem EverySlotHasTarget.addTransition :
    (nfa.addTransition source target character).EverySlotHasTarget := by
  refine h.modify fun node hnode => ?_
  split
  · exact hnode
  · exact exists_mem_slot_addTarget hnode

theorem EverySlotHasTarget.addEpsilonTransition :
    (nfa.addEpsilonTransition source target).EverySlotHasTarget :=
  h.modify fun _ hnode => exists_mem_slot_addTarget hnode

theorem EverySlotHasTarget.addTransitionsOnAnyCharacter :
    (nfa.addTransitionsOnAnyCharacter source target).EverySlotHasTarget :=
  h.modify fun _ hnode => hnode

theorem EverySlotHasTarget.setActions (actions : List ℕ) :
    (nfa.setActions source actions).EverySlotHasTarget :=
  h.modify fun _ hnode => hnode

end

end NFA

end WebKit.ContentExtensions
