import WebKit.ContentExtensions.Interning
import WebKit.ContentExtensions.PrefixTree
import WebKit.ContentExtensions.TermGraph

/-!
# The graphs of a prefix tree

Every graph of `createNFAs` is made of the patterns along one path of marked vertices, and
the paths of unmarked vertices behind it (`mem_createNFAs`). What can be read next after a
word is what one of these patterns can read next (`isIndividual_generateNFA`), and the keys
of its transitions are the keys of these patterns (`mem_transitions_generateNFA`).
-/

open Automata Computability

namespace WebKit.ContentExtensions

/-! ## Growth from the root -/

theorem NFA.notMem_edges_create {x t : ℕ} {edge : EdgeLabel} : t ∉ NFA.create.edges x edge := by
  have hnode : NFA.create.nodeAt x = {} := by
    cases x <;> rfl
  intro ht
  cases edge with
  | key key =>
    change t ∈ (NFA.create.nodeAt x).slot key at ht
    rw [hnode] at ht
    exact IndexSet.not_mem_empty ht
  | any =>
    change t ∈ (NFA.create.nodeAt x).transitionsOnAnyCharacter at ht
    rw [hnode] at ht
    exact IndexSet.not_mem_empty ht

theorem NFA.inRange_create : NFA.create.InRange := fun _ _ _ ht =>
  absurd ht NFA.notMem_edges_create

section NodeAt

variable {nfa : NFA} {x t key : ℕ}

theorem NFA.nodeAt_eq_getElem (hx : x < nfa.nodes.length) : nfa.nodeAt x = nfa.nodes[x] :=
  List.getD_eq_getElem _ _ hx

theorem NFA.mem_edges_key (hx : x < nfa.nodes.length) :
    t ∈ nfa.edges x (.key key) ↔ t ∈ nfa.nodes[x].slot key := by
  change t ∈ (nfa.nodeAt x).slot key ↔ _
  rw [nodeAt_eq_getElem hx]

theorem NFA.mem_edges_any (hx : x < nfa.nodes.length) :
    t ∈ nfa.edges x .any ↔ t ∈ nfa.nodes[x].transitionsOnAnyCharacter := by
  change t ∈ (nfa.nodeAt x).transitionsOnAnyCharacter ↔ _
  rw [nodeAt_eq_getElem hx]

end NodeAt

namespace Growth

variable {nfa nfa' : NFA} {start : ℕ} {reads : ℕ → Language ℕ} {keys : Set ℕ}
  {label : ℕ → Language ℕ} {w : List Character}

/-- Growth behind the same start is growth behind one of them. -/
theorem beside {nfa'' : NFA} {reads' : ℕ → Language ℕ} {keys' : Set ℕ} {label' : ℕ → Language ℕ}
    (h : Growth nfa nfa' start reads keys label) (hstart : start < nfa.graphSize)
    (h' : Growth nfa' nfa'' start reads' keys' label') :
    ∃ label, Growth nfa nfa'' start (fun key => reads key + reads' key) (keys ∪ keys') label := by
  have hafter := h.after (l := 1) hstart (.inl rfl) h.labelStart.le (fun w hw => by
    rw [(Language.mem_one w).mp hw]
    exact .nil) h'
  simp only [one_mul] at hafter
  exact ⟨_, hafter⟩

variable (h : Growth NFA.create nfa NFA.create.root reads keys label)

include h

theorem new_or_self {x t : ℕ} {edge : EdgeLabel} (ht : t ∈ nfa.edges x edge) :
    0 < t ∨ edge = .epsilon ∧ x = 0 ∧ t = 0 := by
  rcases Nat.eq_zero_or_pos x with rfl | hx
  · rcases h.fromStart edge t ht with ht | hnew | ⟨heps, rfl⟩
    · exact absurd ht NFA.notMem_edges_create
    · exact .inl hnew
    · exact .inr ⟨heps, rfl, rfl⟩
  · exact .inl (h.new x hx edge t ht)

theorem isLabelling : IsLabelling nfa.edges EdgeLabel.reads label := by
  intro x edge t ht
  rcases h.new_or_self ht with hnew | ⟨rfl, rfl, rfl⟩
  · exact h.labelEdge x (Nat.eq_zero_or_pos x) edge t ht hnew
  · rw [EdgeLabel.reads_epsilon, mul_one]

theorem everySlotHasTarget : nfa.EverySlotHasTarget := h.slots NFA.everySlotHasTarget_create

theorem isIndividual_iff {c : Character} :
    nfa.IsIndividual (nfa.automaton.eval w) c ↔ w.map Fin.val ∈ reads c := by
  rw [h.everySlotHasTarget.isIndividual_iff]
  constructor
  · rintro ⟨x, hx, t, ht⟩
    rw [NFA.mem_eval_iff, h.root] at hx
    have hlabel : w.map Fin.val ∈ label x :=
      h.isLabelling.mem (h.labelStart ▸ Language.nil_mem_one) hx
    rcases h.new_or_self ht with hnew | ⟨heps, -⟩
    · exact h.labelKey x (Nat.eq_zero_or_pos x) c (NFA.val_ne_epsilon c) t ht hnew hlabel
    · exact absurd (EdgeLabel.key.inj heps) (NFA.val_ne_epsilon c)
  · intro hw
    obtain ⟨x, hleads, t, ht⟩ := h.leadsToKey c _ hw
    refine ⟨x, ?_, t, ht⟩
    rw [NFA.mem_eval_iff, h.root]
    exact hleads

theorem mem_keys_iff {key : ℕ} (hkey : key ≠ epsilonTransitionCharacter) :
    (∃ node ∈ nfa.nodes, key ∈ node.transitions) ↔ key ∈ keys := by
  rw [h.mem_keys]
  constructor
  · rintro ⟨node, hnode, hmem⟩
    obtain ⟨x, hx, rfl⟩ := List.mem_iff_getElem.mp hnode
    obtain ⟨t, ht⟩ := h.everySlotHasTarget.nodeAt ((NFA.nodeAt_eq_getElem hx).symm ▸ hmem)
    refine ⟨hkey, x, Nat.eq_zero_or_pos x, t, ht, ?_⟩
    exact (h.new_or_self ht).resolve_right fun h => hkey (EdgeLabel.key.inj h.1)
  · rintro ⟨-, x, -, t, ht, -⟩
    have hx := NFA.lt_of_mem_edges ht
    exact ⟨nfa.nodes[x], List.getElem_mem hx,
      NFANode.mem_transitions_of_mem_slot ((NFA.mem_edges_key hx).mp ht)⟩

theorem valid (hkeys : ∀ key ∈ keys, key < 128) : nfa.Valid := by
  have hsize : NFA.create.graphSize ≤ nfa.graphSize := h.size
  refine ⟨?_, fun node hnode => ?_⟩
  · rw [h.root]
    exact hsize
  · obtain ⟨x, hx, rfl⟩ := List.mem_iff_getElem.mp hnode
    refine ⟨fun key hmem => ?_, fun key t ht => ?_, fun t ht => ?_⟩
    · by_cases hkey : key = epsilonTransitionCharacter
      · exact .inr hkey
      · exact .inl (hkeys key ((h.mem_keys_iff hkey).mp ⟨_, hnode, hmem⟩))
    · exact h.inRange x (.key key) t ((NFA.mem_edges_key hx).mpr ht)
    · exact h.inRange x .any t ((NFA.mem_edges_any hx).mpr ht)

end Growth

/-! ## Sets of patterns -/

namespace Term

variable {key : ℕ} {terms terms' : List Term} {patterns patterns' : Set (List Term)}

theorem readsOfTerms_append : readsOfTerms key (terms ++ terms') =
    readsOfTerms key terms + languageOfTerms terms * readsOfTerms key terms' := by
  induction terms with
  | nil => rw [List.nil_append, readsOfTerms, zero_add, languageOfTerms_nil, one_mul]
  | cons term terms ih => rw [List.cons_append, readsOfTerms, ih, readsOfTerms,
      languageOfTerms_cons, mul_add, add_assoc, mul_assoc]

theorem keysOfTerms_append :
    keysOfTerms (terms ++ terms') = keysOfTerms terms ∪ keysOfTerms terms' := by
  induction terms with
  | nil => rw [List.nil_append, keysOfTerms, Set.empty_union]
  | cons term terms ih => rw [List.cons_append, keysOfTerms, ih, keysOfTerms, Set.union_assoc]

theorem readsOfTerms_mono (h : terms <+: terms') :
    readsOfTerms key terms ≤ readsOfTerms key terms' := by
  obtain ⟨rest, rfl⟩ := h
  rw [readsOfTerms_append]
  exact le_self_add

theorem keysOfTerms_mono (h : terms <+: terms') : keysOfTerms terms ⊆ keysOfTerms terms' := by
  obtain ⟨rest, rfl⟩ := h
  rw [keysOfTerms_append]
  exact Set.subset_union_left

/-- The words after which one of the patterns reads a character by the key. -/
def readsOfPatterns (key : ℕ) (patterns : Set (List Term)) : Language ℕ :=
  {word | ∃ pattern ∈ patterns, word ∈ readsOfTerms key pattern}

def keysOfPatterns (patterns : Set (List Term)) : Set ℕ :=
  {key | ∃ pattern ∈ patterns, key ∈ keysOfTerms pattern}

theorem readsOfPatterns_empty : readsOfPatterns key ∅ = 0 := by
  ext word
  refine iff_of_false ?_ (Language.notMem_zero word)
  rintro ⟨pattern, hpat, -⟩
  exact hpat

theorem keysOfPatterns_empty : keysOfPatterns ∅ = ∅ := by
  ext key
  simp [keysOfPatterns]

theorem readsOfPatterns_singleton : readsOfPatterns key {terms} = readsOfTerms key terms := by
  ext word
  simp only [readsOfPatterns, Set.mem_singleton_iff, exists_eq_left]
  rfl

theorem keysOfPatterns_singleton : keysOfPatterns {terms} = keysOfTerms terms := by
  ext key
  simp [keysOfPatterns]

theorem readsOfPatterns_union : readsOfPatterns key (patterns ∪ patterns') =
    readsOfPatterns key patterns + readsOfPatterns key patterns' := by
  ext word
  simp only [readsOfPatterns, Set.mem_union, or_and_right, exists_or]
  rfl

theorem keysOfPatterns_union : keysOfPatterns (patterns ∪ patterns') =
    keysOfPatterns patterns ∪ keysOfPatterns patterns' := by
  ext key
  simp only [keysOfPatterns, Set.mem_union, or_and_right, exists_or, Set.mem_ofPred_eq]

/-- The patterns behind the terms, and the terms themselves. -/
theorem readsOfPatterns_image (hnil : [] ∈ patterns) :
    readsOfPatterns key ((terms ++ ·) '' patterns) =
      readsOfTerms key terms + languageOfTerms terms * readsOfPatterns key patterns := by
  ext word
  rw [Language.mem_add, Language.mem_mul]
  constructor
  · rintro ⟨_, ⟨pattern, hpat, rfl⟩, hword⟩
    rw [readsOfTerms_append, Language.mem_add, Language.mem_mul] at hword
    refine hword.imp id ?_
    rintro ⟨u, hu, v, hv, rfl⟩
    exact ⟨u, hu, v, ⟨pattern, hpat, hv⟩, rfl⟩
  · rintro (hword | ⟨u, hu, v, ⟨pattern, hpat, hv⟩, rfl⟩)
    · exact ⟨_, ⟨[], hnil, List.append_nil terms⟩, hword⟩
    · refine ⟨_, ⟨pattern, hpat, rfl⟩, ?_⟩
      rw [readsOfTerms_append]
      exact (Language.mem_add ..).mpr (.inr (Language.append_mem_mul hu hv))

theorem keysOfPatterns_image (hnil : [] ∈ patterns) :
    keysOfPatterns ((terms ++ ·) '' patterns) = keysOfTerms terms ∪ keysOfPatterns patterns := by
  ext key
  constructor
  · rintro ⟨_, ⟨pattern, hpat, rfl⟩, hkey⟩
    rw [keysOfTerms_append] at hkey
    exact hkey.imp id fun hkey => ⟨pattern, hpat, hkey⟩
  · rintro (hkey | ⟨pattern, hpat, hkey⟩)
    · exact ⟨_, ⟨[], hnil, List.append_nil terms⟩, hkey⟩
    · refine ⟨_, ⟨pattern, hpat, rfl⟩, ?_⟩
      rw [keysOfTerms_append]
      exact .inr hkey

end Term

/-! ## The graph of a vertex -/

namespace PrefixTreeVertex

open Term

/-- A way along edges to vertices that are all marked, or all not marked. -/
inductive Follows (marked : Bool) :
    PrefixTreeVertex → List (Term × PrefixTreeVertex) → PrefixTreeVertex → Prop
  | nil {vertex : PrefixTreeVertex} : Follows marked vertex [] vertex
  | cons {vertex last : PrefixTreeVertex} {edge : Term × PrefixTreeVertex}
    {stack : List (Term × PrefixTreeVertex)} : edge ∈ vertex.edges →
    edge.2.inVariableLengthPrefix = marked → Follows marked edge.2 stack last →
    Follows marked vertex (edge :: stack) last

/-- The paths behind a vertex that lead along vertices that are not marked. -/
def unmarkedPaths (vertex : PrefixTreeVertex) : Set (List Term) :=
  {path | ∃ stack last, Follows false vertex stack last ∧ stack.map Prod.fst = path}

def unmarkedPathsOfEdges (edges : List (Term × PrefixTreeVertex)) : Set (List Term) :=
  {path | ∃ edge ∈ edges, edge.2.inVariableLengthPrefix = false ∧
    path ∈ (([edge.1] ++ ·) '' edge.2.unmarkedPaths : Set (List Term))}

variable {vertex : PrefixTreeVertex} {term : Term} {edges : List (Term × PrefixTreeVertex)}

theorem nil_mem_unmarkedPaths : [] ∈ vertex.unmarkedPaths := ⟨[], vertex, .nil, rfl⟩

theorem unmarkedPaths_eq : vertex.unmarkedPaths = {[]} ∪ unmarkedPathsOfEdges vertex.edges := by
  ext path
  constructor
  · rintro ⟨stack, last, hfollows, rfl⟩
    cases hfollows with
    | nil => exact .inl rfl
    | cons hmem hmarked hrest => exact .inr ⟨_, hmem, hmarked, _, ⟨_, _, hrest, rfl⟩, rfl⟩
  · rintro (rfl | ⟨edge, hmem, hmarked, _, ⟨stack, last, hfollows, rfl⟩, rfl⟩)
    · exact nil_mem_unmarkedPaths
    · exact ⟨edge :: stack, last, .cons hmem hmarked hfollows, rfl⟩

theorem unmarkedPathsOfEdges_nil : unmarkedPathsOfEdges [] = ∅ := by
  ext path
  simp [unmarkedPathsOfEdges]

theorem unmarkedPathsOfEdges_cons : unmarkedPathsOfEdges ((term, vertex) :: edges) =
    (if vertex.inVariableLengthPrefix then ∅ else ([term] ++ ·) '' vertex.unmarkedPaths) ∪
      unmarkedPathsOfEdges edges := by
  ext path
  cases hmarked : vertex.inVariableLengthPrefix <;>
    simp [unmarkedPathsOfEdges, hmarked]

theorem readsOfPatterns_unmarkedPaths {key : ℕ} : readsOfPatterns key vertex.unmarkedPaths =
    readsOfPatterns key (unmarkedPathsOfEdges vertex.edges) := by
  rw [unmarkedPaths_eq, readsOfPatterns_union, readsOfPatterns_singleton, readsOfTerms, zero_add]

theorem keysOfPatterns_unmarkedPaths : keysOfPatterns vertex.unmarkedPaths =
    keysOfPatterns (unmarkedPathsOfEdges vertex.edges) := by
  rw [unmarkedPaths_eq, keysOfPatterns_union, keysOfPatterns_singleton, keysOfTerms,
    Set.empty_union]

mutual

theorem generateNFAForSubtree_growth : (vertex : PrefixTreeVertex) → (nfa : NFA) →
    (rootId : ℕ) → nfa.InRange → rootId < nfa.graphSize →
    ∃ label, Growth nfa (generateNFAForSubtree nfa rootId vertex) rootId
      (fun key => readsOfPatterns key vertex.unmarkedPaths) (keysOfPatterns vertex.unmarkedPaths)
      label
  | .mk edges _ _, nfa, rootId, hrange, hlt => by
    simp only [readsOfPatterns_unmarkedPaths, keysOfPatterns_unmarkedPaths]
    rw [generateNFAForSubtree]
    exact generateNFAForEdges_growth edges nfa rootId hrange hlt

theorem generateNFAForEdges_growth : (edges : List (Term × PrefixTreeVertex)) → (nfa : NFA) →
    (lastNodeIndex : ℕ) → nfa.InRange → lastNodeIndex < nfa.graphSize →
    ∃ label, Growth nfa (generateNFAForEdges nfa lastNodeIndex edges) lastNodeIndex
      (fun key => readsOfPatterns key (unmarkedPathsOfEdges edges))
      (keysOfPatterns (unmarkedPathsOfEdges edges)) label
  | [], nfa, lastNodeIndex, hrange, hlt => by
    simp only [unmarkedPathsOfEdges_nil, readsOfPatterns_empty, keysOfPatterns_empty]
    rw [generateNFAForEdges]
    exact ⟨_, .refl hrange lastNodeIndex⟩
  | (term, vertex) :: edges, nfa, lastNodeIndex, hrange, hlt => by
    rw [generateNFAForEdges]
    simp only [unmarkedPathsOfEdges_cons]
    split
    · simp only [Set.empty_union]
      exact generateNFAForEdges_growth edges nfa lastNodeIndex hrange hlt
    · obtain ⟨label, hterm⟩ :=
        generateGraph_fragment term nfa lastNodeIndex vertex.finalActions hrange hlt
      obtain ⟨label', hsubtree⟩ := generateNFAForSubtree_growth vertex _ _ hterm.inRange
        (hterm.lt_size hlt)
      have hfirst := hterm.toGrowth.after hlt hterm.region hterm.labelEnd hterm.leads hsubtree
      obtain ⟨label'', hrest⟩ := generateNFAForEdges_growth edges _ lastNodeIndex hfirst.inRange
        (hlt.trans_le hfirst.size)
      have hboth := hfirst.beside hlt hrest
      simp only [readsOfPatterns_union, keysOfPatterns_union,
        readsOfPatterns_image nil_mem_unmarkedPaths, keysOfPatterns_image nil_mem_unmarkedPaths]
      simpa [readsOfTerms, keysOfTerms] using hboth

end

theorem generatePrefix_fragment (stack : List (Term × PrefixTreeVertex)) (nfa : NFA)
    (prefixEnd : ℕ) (hrange : nfa.InRange) (hlt : prefixEnd < nfa.graphSize) :
    ∃ label, Fragment nfa (generatePrefix nfa prefixEnd stack).1 prefixEnd
      (generatePrefix nfa prefixEnd stack).2 (languageOfTerms (stack.map Prod.fst))
      (fun key => readsOfTerms key (stack.map Prod.fst)) (keysOfTerms (stack.map Prod.fst))
      label := by
  induction stack generalizing nfa prefixEnd with
  | nil =>
    simp only [List.map_nil, languageOfTerms_nil, readsOfTerms, keysOfTerms]
    exact ⟨_, .refl hrange prefixEnd⟩
  | cons edge stack ih =>
    obtain ⟨term, vertex⟩ := edge
    obtain ⟨label, hterm⟩ :=
      generateGraph_fragment term nfa prefixEnd vertex.finalActions hrange hlt
    obtain ⟨label', hrest⟩ := ih _ _ hterm.inRange (hterm.lt_size hlt)
    simp only [List.map_cons, languageOfTerms_cons, readsOfTerms, keysOfTerms]
    exact ⟨_, hterm.seq hlt hrest⟩

theorem generateNFA_eq (stack : List (Term × PrefixTreeVertex)) (vertex : PrefixTreeVertex) :
    generateNFA stack vertex =
      generateNFAForEdges (generatePrefix NFA.create NFA.create.root stack).1
        (generatePrefix NFA.create NFA.create.root stack).2 vertex.edges := by
  unfold generateNFA
  dsimp only
  generalize (generatePrefix NFA.create NFA.create.root stack).1 = nfa
  induction vertex.edges generalizing nfa with
  | nil => rw [generateNFAForEdges, List.foldl_nil]
  | cons edge edges ih =>
    obtain ⟨term, vertex⟩ := edge
    rw [generateNFAForEdges, List.foldl_cons, ih]
    split <;> rfl

/-- The patterns of the graph for a vertex behind a path. -/
def patternsBehind (path : List Term) (vertex : PrefixTreeVertex) : Set (List Term) :=
  (path ++ ·) '' vertex.unmarkedPaths

theorem generateNFA_growth (stack : List (Term × PrefixTreeVertex)) (vertex : PrefixTreeVertex) :
    ∃ label, Growth NFA.create (generateNFA stack vertex) NFA.create.root
      (fun key => readsOfPatterns key (patternsBehind (stack.map Prod.fst) vertex))
      (keysOfPatterns (patternsBehind (stack.map Prod.fst) vertex)) label := by
  have hlt : NFA.create.root < NFA.create.graphSize := zero_lt_one
  obtain ⟨label, hpre⟩ :=
    generatePrefix_fragment stack NFA.create NFA.create.root NFA.inRange_create hlt
  obtain ⟨label', hedges⟩ := generateNFAForEdges_growth vertex.edges _ _ hpre.inRange
    (hpre.lt_size hlt)
  have hboth := hpre.toGrowth.after hlt hpre.region hpre.labelEnd hpre.leads hedges
  rw [generateNFA_eq]
  simp only [patternsBehind, readsOfPatterns_image nil_mem_unmarkedPaths,
    keysOfPatterns_image nil_mem_unmarkedPaths, readsOfPatterns_unmarkedPaths,
    keysOfPatterns_unmarkedPaths]
  exact ⟨_, hboth⟩

mutual

/-- The graphs are those of the vertices at the end of marked ways that need one. -/
theorem mem_createNFAsFrom : (vertex : PrefixTreeVertex) →
    (activeStack : List (Term × PrefixTreeVertex)) → (nfa : NFA) →
    (nfa ∈ createNFAsFrom activeStack vertex ↔ ∃ stack last, Follows true vertex stack last ∧
      last.needToGenerate = true ∧ nfa = generateNFA (activeStack ++ stack) last)
  | .mk edges finalActions marked, activeStack, nfa => by
    rw [createNFAsFrom, List.mem_append, mem_createNFAsOfEdges]
    constructor
    · rintro (⟨edge, hedge, hmarked, stack, last, hfollows, hneed, rfl⟩ | hmem)
      · exact ⟨edge :: stack, last, .cons hedge hmarked hfollows, hneed, rfl⟩
      · split at hmem
        · next hneed =>
          refine ⟨[], _, .nil, hneed, ?_⟩
          rw [List.append_nil]
          exact List.mem_singleton.mp hmem
        · exact absurd hmem List.not_mem_nil
    · rintro ⟨stack, last, hfollows, hneed, rfl⟩
      cases hfollows with
      | nil =>
        right
        rw [if_pos hneed, List.append_nil]
        exact List.mem_singleton_self _
      | cons hedge hmarked hrest => exact .inl ⟨_, hedge, hmarked, _, _, hrest, hneed, rfl⟩

theorem mem_createNFAsOfEdges : (edges : List (Term × PrefixTreeVertex)) →
    (activeStack : List (Term × PrefixTreeVertex)) → (nfa : NFA) →
    (nfa ∈ createNFAsOfEdges activeStack edges ↔ ∃ edge ∈ edges,
      edge.2.inVariableLengthPrefix = true ∧ ∃ stack last, Follows true edge.2 stack last ∧
        last.needToGenerate = true ∧ nfa = generateNFA (activeStack ++ edge :: stack) last)
  | [], activeStack, nfa => by
    rw [createNFAsOfEdges]
    simp
  | (term, vertex) :: edges, activeStack, nfa => by
    rw [createNFAsOfEdges, List.mem_append, mem_createNFAsOfEdges, List.exists_mem_cons_iff]
    refine or_congr_left ?_
    split
    · next hmarked =>
      rw [mem_createNFAsFrom]
      simp [hmarked]
    · next hmarked => simp [hmarked]

end

theorem mem_createNFAs {root : PrefixTreeVertex} {nfa : NFA} :
    nfa ∈ createNFAs root ↔ ∃ stack last, Follows true root stack last ∧
      last.needToGenerate = true ∧ nfa = generateNFA stack last := by
  unfold createNFAs
  rw [mem_createNFAsFrom]
  rfl

end PrefixTreeVertex

/-!
## The actions of the graphs

The final actions of the nodes of a graph are those of the vertices of the prefix tree, and
so of the patterns. The number of rules is a bound on the actions of any set of nodes.
-/

/-- The nodes of the graph have no other actions. -/
def NFA.HasActionsIn (nfa : NFA) (actionIds : Set ℕ) : Prop :=
  ∀ node ∈ nfa.nodes, ∀ actionId ∈ node.finalRuleIds, actionId ∈ actionIds

namespace NFA.HasActionsIn

variable {nfa : NFA} {actionIds : Set ℕ} {source target key : ℕ} {actions : List ℕ}

theorem create (actionIds : Set ℕ) : NFA.create.HasActionsIn actionIds := by
  intro node hnode actionId hmem
  rw [List.mem_singleton.mp hnode] at hmem
  exact absurd hmem List.not_mem_nil

theorem modify {f : NFANode → NFANode} (h : nfa.HasActionsIn actionIds)
    (hf : ∀ node : NFANode, (∀ actionId ∈ node.finalRuleIds, actionId ∈ actionIds) →
      ∀ actionId ∈ (f node).finalRuleIds, actionId ∈ actionIds) :
    NFA.HasActionsIn { nfa with nodes := nfa.nodes.modify source f } actionIds := by
  intro node hnode
  obtain ⟨i, hi, rfl⟩ := List.mem_iff_getElem.mp hnode
  have hi' : i < nfa.nodes.length := by simpa using hi
  rw [List.getElem_modify]
  have hold := h _ (List.getElem_mem hi')
  split
  · exact hf _ hold
  · exact hold

section

variable (h : nfa.HasActionsIn actionIds)
include h

theorem createNode : nfa.createNode.1.HasActionsIn actionIds := by
  intro node hnode actionId hmem
  rcases List.mem_append.mp hnode with hnode | hnode
  · exact h node hnode actionId hmem
  · rw [List.mem_singleton.mp hnode] at hmem
    exact absurd hmem List.not_mem_nil

theorem addTransition : (nfa.addTransition source target key).HasActionsIn actionIds := by
  refine h.modify fun node hnode => ?_
  split <;> exact hnode

theorem addEpsilonTransition : (nfa.addEpsilonTransition source target).HasActionsIn actionIds :=
  h.modify fun _ hnode => hnode

theorem addTransitionsOnAnyCharacter :
    (nfa.addTransitionsOnAnyCharacter source target).HasActionsIn actionIds :=
  h.modify fun _ hnode => hnode

theorem setActions (hacts : ∀ actionId ∈ actions, actionId ∈ actionIds) :
    (nfa.setActions source actions).HasActionsIn actionIds :=
  h.modify fun _ _ => hacts

theorem not_hasTooManyActions (hfinite : actionIds.Finite)
    (hcard : actionIds.ncard ≤ 65535) (nodeIds : Set ℕ) : ¬nfa.HasTooManyActions nodeIds := by
  refine Nat.not_lt.mpr (le_trans (Set.ncard_le_ncard ?_ hfinite) hcard)
  rintro actionId ⟨nodeId, -, node, hnode, hmem⟩
  exact h node (List.mem_of_getElem? hnode) actionId hmem

end

end NFA.HasActionsIn

namespace Term

variable {nfa : NFA} {start : ℕ} {actionIds : Set ℕ} {finalActions : List ℕ}

theorem characterSetSubgraph_actions (set : CharacterSet) (h : nfa.HasActionsIn actionIds) :
    (characterSetSubgraph set nfa start).1.HasActionsIn actionIds := by
  unfold characterSetSubgraph
  dsimp only
  split
  · exact h.createNode.addTransitionsOnAnyCharacter
  · generalize transitionBits set = bits
    have hbase := h.createNode
    revert hbase
    generalize nfa.createNode.1 = nfa'
    intro hbase
    induction bits generalizing nfa' with
    | nil => exact hbase
    | cons bit bits ih => exact ih _ hbase.addTransition

theorem quantifiedSubgraph_actions {subgraph : NFA → ℕ → NFA × ℕ} (q : AtomQuantifier)
    (hsubgraph : ∀ nfa start, NFA.HasActionsIn nfa actionIds →
      (subgraph nfa start).1.HasActionsIn actionIds) (h : nfa.HasActionsIn actionIds) :
    (quantifiedSubgraph subgraph nfa start q).1.HasActionsIn actionIds := by
  have hloop : (quantifiedSubgraph subgraph nfa start .oneOrMore).1.HasActionsIn actionIds :=
    (hsubgraph _ _ h.createNode.addEpsilonTransition).addEpsilonTransition.createNode
      |>.addEpsilonTransition
  cases q with
  | one => exact hsubgraph nfa start h
  | zeroOrOne => exact (hsubgraph nfa start h).addEpsilonTransition
  | zeroOrMore => exact hloop.addEpsilonTransition
  | oneOrMore => exact hloop

mutual

theorem generateGraph_actions : (term : Term) → (nfa : NFA) → (start : ℕ) →
    (finalActions : List ℕ) → nfa.HasActionsIn actionIds →
    (∀ actionId ∈ finalActions, actionId ∈ actionIds) →
    (generateGraph nfa start finalActions term).1.HasActionsIn actionIds
  | .characterSet q set, nfa, start, finalActions, h, hacts => by
    rw [generateGraph]
    exact (quantifiedSubgraph_actions q (fun _ _ => characterSetSubgraph_actions set) h).setActions
      hacts
  | .group q terms, nfa, start, finalActions, h, hacts => by
    rw [generateGraph]
    exact (quantifiedSubgraph_actions q (fun nfa start => groupSubgraph_actions terms nfa start)
      h).setActions hacts

theorem groupSubgraph_actions : (terms : List Term) → (nfa : NFA) → (lastTarget : ℕ) →
    nfa.HasActionsIn actionIds → (groupSubgraph nfa lastTarget terms).1.HasActionsIn actionIds
  | [], nfa, lastTarget, h => by
    rw [groupSubgraph]
    exact h
  | term :: terms, nfa, lastTarget, h => by
    rw [groupSubgraph]
    exact groupSubgraph_actions terms _ _ (generateGraph_actions term nfa lastTarget [] h
      fun _ hmem => absurd hmem List.not_mem_nil)

end

end Term

namespace PrefixTreeVertex

open Term

variable {vertex : PrefixTreeVertex} {actionIds : Set ℕ}

/-- The vertex and those behind it have no other actions. -/
inductive HasActionsIn (actionIds : Set ℕ) : PrefixTreeVertex → Prop
  | mk {vertex : PrefixTreeVertex} : (∀ actionId ∈ vertex.finalActions, actionId ∈ actionIds) →
    (∀ edge ∈ vertex.edges, HasActionsIn actionIds edge.2) → HasActionsIn actionIds vertex

theorem HasActionsIn.finalActions (h : HasActionsIn actionIds vertex) :
    ∀ actionId ∈ vertex.finalActions, actionId ∈ actionIds := by
  cases h with
  | mk hacts _ => exact hacts

theorem HasActionsIn.edges (h : HasActionsIn actionIds vertex) :
    ∀ edge ∈ vertex.edges, HasActionsIn actionIds edge.2 := by
  cases h with
  | mk _ hedges => exact hedges

mutual

theorem hasActionsIn_of_vertexAt : (vertex : PrefixTreeVertex) → KeysDistinct vertex →
    (∀ path next, vertexAt path vertex = some next →
      ∀ actionId ∈ next.finalActions, actionId ∈ actionIds) → HasActionsIn actionIds vertex
  | .mk edges finalActions marked, hdist, hacts => by
    obtain ⟨hnodup, hnext⟩ := keysDistinct_mk.mp hdist
    refine .mk (hacts [] _ rfl) (hasActionsIn_of_edges edges fun edge hedge => ?_)
    have hfind := find_of_mem hnodup hedge
    refine ⟨hnext _ _ hfind, fun path next hat => hacts (edge.1 :: path) next ?_⟩
    rw [vertexAt_cons, PrefixTreeVertex.edges, hfind, Option.bind_some, hat]

theorem hasActionsIn_of_edges : (edges : List (Term × PrefixTreeVertex)) →
    (∀ edge ∈ edges, KeysDistinct edge.2 ∧ ∀ path next, vertexAt path edge.2 = some next →
      ∀ actionId ∈ next.finalActions, actionId ∈ actionIds) →
    ∀ edge ∈ edges, HasActionsIn actionIds edge.2
  | [], _, edge, hedge => absurd hedge List.not_mem_nil
  | (term, vertex) :: edges, h, edge, hedge => by
    rcases List.mem_cons.mp hedge with rfl | hedge
    · obtain ⟨hdist, hacts⟩ := h (term, vertex) List.mem_cons_self
      exact hasActionsIn_of_vertexAt vertex hdist hacts
    · exact hasActionsIn_of_edges edges (fun edge hedge => h edge (List.mem_cons_of_mem _ hedge))
        edge hedge

end

mutual

theorem generateNFAForSubtree_actions : (vertex : PrefixTreeVertex) → (nfa : NFA) →
    (rootId : ℕ) → nfa.HasActionsIn actionIds → HasActionsIn actionIds vertex →
    (generateNFAForSubtree nfa rootId vertex).HasActionsIn actionIds
  | .mk edges _ _, nfa, rootId, h, hvertex => by
    rw [generateNFAForSubtree]
    exact generateNFAForEdges_actions edges nfa rootId h hvertex.edges

theorem generateNFAForEdges_actions : (edges : List (Term × PrefixTreeVertex)) → (nfa : NFA) →
    (lastNodeIndex : ℕ) → nfa.HasActionsIn actionIds →
    (∀ edge ∈ edges, HasActionsIn actionIds edge.2) →
    (generateNFAForEdges nfa lastNodeIndex edges).HasActionsIn actionIds
  | [], nfa, lastNodeIndex, h, hedges => by
    rw [generateNFAForEdges]
    exact h
  | (term, vertex) :: edges, nfa, lastNodeIndex, h, hedges => by
    have hvertex : HasActionsIn actionIds vertex := hedges (term, vertex) List.mem_cons_self
    have hrest : ∀ edge ∈ edges, HasActionsIn actionIds edge.2 := fun edge hedge =>
      hedges edge (List.mem_cons_of_mem _ hedge)
    rw [generateNFAForEdges]
    split
    · exact generateNFAForEdges_actions edges nfa lastNodeIndex h hrest
    · have hterm := generateGraph_actions term nfa lastNodeIndex vertex.finalActions h
        hvertex.finalActions
      exact generateNFAForEdges_actions edges _ lastNodeIndex
        (generateNFAForSubtree_actions vertex _ _ hterm hvertex) hrest

end

theorem generatePrefix_actions (stack : List (Term × PrefixTreeVertex)) (nfa : NFA)
    (prefixEnd : ℕ) (h : nfa.HasActionsIn actionIds)
    (hstack : ∀ edge ∈ stack, HasActionsIn actionIds edge.2) :
    (generatePrefix nfa prefixEnd stack).1.HasActionsIn actionIds := by
  induction stack generalizing nfa prefixEnd with
  | nil => exact h
  | cons edge stack ih =>
    obtain ⟨term, vertex⟩ := edge
    refine ih _ _ (generateGraph_actions term nfa prefixEnd vertex.finalActions h ?_)
      fun edge hedge => hstack edge (List.mem_cons_of_mem _ hedge)
    exact (hstack (term, vertex) List.mem_cons_self).finalActions

theorem Follows.hasActionsIn {marked : Bool} (h : Follows marked vertex stack last)
    (hvertex : HasActionsIn actionIds vertex) :
    (∀ edge ∈ stack, HasActionsIn actionIds edge.2) ∧ HasActionsIn actionIds last := by
  induction h with
  | nil => exact ⟨fun edge hedge => absurd hedge List.not_mem_nil, hvertex⟩
  | cons hedge _ _ ih =>
    obtain ⟨hstack, hlast⟩ := ih (hvertex.edges _ hedge)
    refine ⟨fun edge hmem => ?_, hlast⟩
    rcases List.mem_cons.mp hmem with rfl | hmem
    · exact hvertex.edges _ hedge
    · exact hstack edge hmem

theorem hasActionsIn_of_mem_createNFAs {patterns : Set (List Term)} {nfa : NFA}
    (h : Represents root patterns actionIds) (hnfa : nfa ∈ createNFAs root) :
    nfa.HasActionsIn actionIds := by
  obtain ⟨stack, last, hfollows, -, rfl⟩ := mem_createNFAs.mp hnfa
  have hroot : HasActionsIn actionIds root := by
    refine hasActionsIn_of_vertexAt root h.keysDistinct fun path next hat => ?_
    refine h.actions path (next.finalActions, next.inVariableLengthPrefix) ?_
    unfold view
    rw [hat, Option.map_some]
  obtain ⟨hstack, hlast⟩ := hfollows.hasActionsIn hroot
  rw [generateNFA_eq]
  exact generateNFAForEdges_actions _ _ _
    (generatePrefix_actions stack _ _ (.create actionIds) hstack) hlast.edges

end PrefixTreeVertex

end WebKit.ContentExtensions
