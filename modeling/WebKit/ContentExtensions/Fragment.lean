import WebKit.ContentExtensions.NFAEdges

/-!
# Fragments of a graph

What a step of the construction adds to a graph: new nodes behind a start node, and a node
at which they end. Nothing leads from the new nodes back to the old ones, so a fragment has
a language of its own, the words that lead from its start to its end, and for every key the
words after which a node of it can be left by that key.

That no other words lead there is stated by a labelling of the new nodes with languages
which every new edge respects.
-/

namespace WebKit.ContentExtensions

open Automata Computability

/-- New nodes behind a start node, each labelled with words that may lead to it. -/
structure Growth (nfa nfa' : NFA) (start : ℕ) (reads : ℕ → Language ℕ) (keys : Set ℕ)
    (label : ℕ → Language ℕ) : Prop where
  root : nfa'.root = nfa.root
  size : nfa.graphSize ≤ nfa'.graphSize
  slots : nfa.EverySlotHasTarget → nfa'.EverySlotHasTarget
  inRange : ∀ x edge, ∀ t ∈ nfa'.edges x edge, t < nfa'.graphSize
  grows : ∀ x edge, nfa.edges x edge ⊆ nfa'.edges x edge
  old : ∀ x < nfa.graphSize, x ≠ start → ∀ edge, nfa'.edges x edge ⊆ nfa.edges x edge
  fromStart : ∀ edge, ∀ t ∈ nfa'.edges start edge,
    t ∈ nfa.edges start edge ∨ nfa.graphSize ≤ t ∨ edge = .epsilon ∧ t = start
  new : ∀ x ≥ nfa.graphSize, ∀ edge, ∀ t ∈ nfa'.edges x edge, nfa.graphSize ≤ t
  labelStart : label start = 1
  labelEdge : ∀ x, x = start ∨ nfa.graphSize ≤ x → ∀ edge, ∀ t ∈ nfa'.edges x edge,
    nfa.graphSize ≤ t → label x * edge.reads ≤ label t
  labelKey : ∀ x, x = start ∨ nfa.graphSize ≤ x → ∀ key ≠ epsilonTransitionCharacter,
    ∀ t ∈ nfa'.edges x (.key key), nfa.graphSize ≤ t → label x ≤ reads key
  leadsToKey : ∀ key, ∀ w ∈ reads key,
    ∃ x, nfa'.Leads start w x ∧ ∃ t, t ∈ nfa'.edges x (.key key)
  mem_keys : ∀ key, key ∈ keys ↔ key ≠ epsilonTransitionCharacter ∧
    ∃ x, (x = start ∨ nfa.graphSize ≤ x) ∧ ∃ t ∈ nfa'.edges x (.key key), nfa.graphSize ≤ t

/-- New nodes between a start and an end. -/
structure Fragment (nfa nfa' : NFA) (start newEnd : ℕ) (l : Language ℕ)
    (reads : ℕ → Language ℕ) (keys : Set ℕ) (label : ℕ → Language ℕ) : Prop
    extends Growth nfa nfa' start reads keys label where
  labelEnd : label newEnd ≤ l
  leads : ∀ w ∈ l, nfa'.Leads start w newEnd
  atEnd : newEnd = start ∧ nfa'.graphSize = nfa.graphSize ∨
    nfa.graphSize ≤ newEnd ∧ newEnd < nfa'.graphSize ∧
      ∀ edge, ∀ t ∈ nfa'.edges newEnd edge, edge = .epsilon ∧ t = newEnd

namespace NFA

/-- The targets of all edges are nodes of the graph. -/
def InRange (nfa : NFA) : Prop := ∀ x edge, ∀ t ∈ nfa.edges x edge, t < nfa.graphSize

end NFA

namespace Growth

variable {nfa nfa' nfa'' : NFA} {start newEnd : ℕ} {l : Language ℕ}
  {reads reads' : ℕ → Language ℕ} {keys keys' : Set ℕ} {label label' : ℕ → Language ℕ}

theorem congr (h : Growth nfa nfa' start reads keys label) (hroot : nfa''.root = nfa'.root)
    (hsize : nfa''.graphSize = nfa'.graphSize) (hedges : nfa''.edges = nfa'.edges)
    (hslots : nfa'.EverySlotHasTarget → nfa''.EverySlotHasTarget) :
    Growth nfa nfa'' start reads keys label where
  root := hroot.trans h.root
  size := hsize ▸ h.size
  slots hall := hslots (h.slots hall)
  inRange := by
    rw [hsize, hedges]
    exact h.inRange
  grows := hedges ▸ h.grows
  old := hedges ▸ h.old
  fromStart := hedges ▸ h.fromStart
  new := hedges ▸ h.new
  labelStart := h.labelStart
  labelEdge := by
    rw [hedges]
    exact h.labelEdge
  labelKey := by
    rw [hedges]
    exact h.labelKey
  leadsToKey := by
    unfold NFA.Leads
    rw [hedges]
    exact h.leadsToKey
  mem_keys := by
    rw [hedges]
    exact h.mem_keys

theorem refl (hrange : nfa.InRange) (start : ℕ) :
    Growth nfa nfa start (fun _ => 0) ∅ fun _ => 1 where
  root := rfl
  size := le_rfl
  slots := id
  inRange := hrange
  grows _ _ := subset_rfl
  old _ _ _ _ := subset_rfl
  fromStart _ _ ht := .inl ht
  new x hx edge t ht := absurd (NFA.lt_of_mem_edges ht) (Nat.not_lt.mpr hx)
  labelStart := rfl
  labelEdge x _ edge t ht hle := absurd (hrange x edge t ht) (Nat.not_lt.mpr hle)
  labelKey x _ key _ t ht hle := absurd (hrange x _ t ht) (Nat.not_lt.mpr hle)
  leadsToKey _ _ hw := absurd hw (Language.notMem_zero _)
  mem_keys key := by
    refine ⟨fun h => absurd h (Set.notMem_empty key), ?_⟩
    rintro ⟨-, x, -, t, ht, hle⟩
    exact absurd (hrange x _ t ht) (Nat.not_lt.mpr hle)

/-- New nodes behind the start, or behind one of the new nodes. -/
theorem after (h : Growth nfa nfa' start reads keys label) (hstart : start < nfa.graphSize)
    (hreg : newEnd = start ∨ nfa.graphSize ≤ newEnd)
    (hlabel : label newEnd ≤ l) (hleads : ∀ w ∈ l, nfa'.Leads start w newEnd)
    (h' : Growth nfa' nfa'' newEnd reads' keys' label') :
    Growth nfa nfa'' start (fun key => reads key + l * reads' key) (keys ∪ keys')
      (fun x => if x < nfa'.graphSize then label x else l * label' x) := by
  have hle := h.size
  have hwalk : ∀ {w t}, nfa'.Leads start w t → nfa''.Leads start w t := fun hleads =>
    hleads.mono h'.grows
  -- an edge of an earlier node was there before, or it starts the later growth
  have hfirst : ∀ x < nfa'.graphSize, ∀ edge, ∀ t ∈ nfa''.edges x edge,
      t ∈ nfa'.edges x edge ∨ x = newEnd ∧ (nfa'.graphSize ≤ t ∨ edge = .epsilon ∧ t = x) := by
    intro x hx edge t ht
    by_cases heq : x = newEnd
    · subst heq
      exact (h'.fromStart edge t ht).imp id fun h => ⟨rfl, h⟩
    · exact .inl (h'.old x hx heq edge ht)
  constructor
  · exact h'.root.trans h.root
  · exact hle.trans h'.size
  · exact fun hall => h'.slots (h.slots hall)
  · exact h'.inRange
  · exact fun x edge => (h.grows x edge).trans (h'.grows x edge)
  · intro x hx hne edge t ht
    rcases hfirst x (hx.trans_le hle) edge t ht with ht | ⟨rfl, -⟩
    · exact h.old x hx hne edge ht
    · exact absurd hreg (not_or.mpr ⟨hne, Nat.not_le.mpr hx⟩)
  · intro edge t ht
    rcases hfirst start (hstart.trans_le hle) edge t ht with ht | ⟨-, hnew | hself⟩
    · exact h.fromStart edge t ht
    · exact .inr (.inl (hle.trans hnew))
    · exact .inr (.inr hself)
  · intro x hx edge t ht
    by_cases hx' : x < nfa'.graphSize
    · rcases hfirst x hx' edge t ht with ht | ⟨-, hnew | ⟨-, rfl⟩⟩
      · exact h.new x hx edge t ht
      · exact hle.trans hnew
      · exact hx
    · exact hle.trans (h'.new x (Nat.le_of_not_lt hx') edge t ht)
  · rw [if_pos (hstart.trans_le hle), h.labelStart]
  · intro x hx edge t ht hnew
    by_cases hx' : x < nfa'.graphSize
    · rw [if_pos hx']
      rcases hfirst x hx' edge t ht with ht' | ⟨rfl, hnew' | ⟨rfl, rfl⟩⟩
      · rw [if_pos (h.inRange _ _ t ht')]
        exact h.labelEdge x hx edge t ht' hnew
      · rw [if_neg (Nat.not_lt.mpr hnew')]
        have hedge := h'.labelEdge x (.inl rfl) edge t ht hnew'
        rw [h'.labelStart, one_mul] at hedge
        exact mul_le_mul' hlabel hedge
      · rw [if_pos hx', EdgeLabel.reads_epsilon, mul_one]
    · have hge := Nat.le_of_not_lt hx'
      have hnew' := h'.new x hge edge t ht
      rw [if_neg hx', if_neg (Nat.not_lt.mpr hnew'), mul_assoc]
      exact mul_le_mul_right (h'.labelEdge x (.inr hge) edge t ht hnew') l
  · intro x hx key hkey t ht hnew
    by_cases hx' : x < nfa'.graphSize
    · rw [if_pos hx']
      rcases hfirst x hx' _ t ht with ht' | ⟨rfl, hnew' | ⟨heps, -⟩⟩
      · exact (h.labelKey x hx key hkey t ht' hnew).trans le_self_add
      · have hreads := h'.labelKey x (.inl rfl) key hkey t ht hnew'
        rw [h'.labelStart] at hreads
        calc label x ≤ l := hlabel
          _ = l * 1 := (mul_one l).symm
          _ ≤ l * reads' key := mul_le_mul_right hreads l
          _ ≤ reads key + l * reads' key := le_add_self
      · exact absurd (EdgeLabel.key.inj heps) hkey
    · have hge := Nat.le_of_not_lt hx'
      rw [if_neg hx']
      refine (mul_le_mul_right (h'.labelKey x (.inr hge) key hkey t ht
        (h'.new x hge _ t ht)) l).trans le_add_self
  · intro key w hw
    rcases (Language.mem_add ..).mp hw with hw | hw
    · obtain ⟨x, hleads, t, ht⟩ := h.leadsToKey key w hw
      exact ⟨x, hwalk hleads, t, h'.grows _ _ ht⟩
    · obtain ⟨u, hu, v, hv, rfl⟩ := Language.mem_mul.mp hw
      obtain ⟨x, hleads', t, ht⟩ := h'.leadsToKey key v hv
      exact ⟨x, (hwalk (hleads u hu)).trans hleads', t, ht⟩
  · intro key
    rw [Set.mem_union, h.mem_keys, h'.mem_keys]
    constructor
    · rintro (⟨hkey, x, hx, t, ht, hnew⟩ | ⟨hkey, x, hx, t, ht, hnew⟩)
      · exact ⟨hkey, x, hx, t, h'.grows _ _ ht, hnew⟩
      · refine ⟨hkey, x, ?_, t, ht, hle.trans hnew⟩
        rcases hx with rfl | hx
        · exact hreg
        · exact .inr (hle.trans hx)
    · rintro ⟨hkey, x, hx, t, ht, hnew⟩
      by_cases hx' : x < nfa'.graphSize
      · rcases hfirst x hx' _ t ht with ht' | ⟨rfl, hnew' | ⟨heps, -⟩⟩
        · exact .inl ⟨hkey, x, hx, t, ht', hnew⟩
        · exact .inr ⟨hkey, x, .inl rfl, t, ht, hnew'⟩
        · exact absurd (EdgeLabel.key.inj heps) hkey
      · have hge := Nat.le_of_not_lt hx'
        exact .inr ⟨hkey, x, .inr hge, t, ht, h'.new x hge _ t ht⟩

end Growth

namespace Fragment

variable {nfa nfa' nfa'' : NFA} {start newEnd newEnd' : ℕ} {l l' : Language ℕ}
  {reads reads' : ℕ → Language ℕ} {keys keys' : Set ℕ} {label label' : ℕ → Language ℕ}

section

variable (h : Fragment nfa nfa' start newEnd l reads keys label)
include h

theorem lt_size (hstart : start < nfa.graphSize) : newEnd < nfa'.graphSize := by
  rcases h.atEnd with ⟨rfl, hsize⟩ | ⟨-, hlt, -⟩
  · rwa [hsize]
  · exact hlt

theorem region :
    newEnd = start ∨ nfa.graphSize ≤ newEnd :=
  h.atEnd.imp And.left And.left

theorem setActions (node : ℕ)
    (actions : List ℕ) :
    Fragment nfa (nfa'.setActions node actions) start newEnd l reads keys label where
  toGrowth := h.toGrowth.congr rfl NFA.graphSize_setActions NFA.edges_setActions fun hslots =>
    hslots.setActions actions
  labelEnd := h.labelEnd
  leads := by
    unfold NFA.Leads
    rw [NFA.edges_setActions]
    exact h.leads
  atEnd := by
    rw [NFA.graphSize_setActions, NFA.edges_setActions]
    exact h.atEnd

end

theorem refl (hrange : nfa.InRange) (start : ℕ) :
    Fragment nfa nfa start start 1 (fun _ => 0) ∅ fun _ => 1 where
  toGrowth := .refl hrange start
  labelEnd := le_rfl
  leads w hw := by
    rw [(Language.mem_one w).mp hw]
    exact .nil
  atEnd := .inl ⟨rfl, rfl⟩

theorem seq (hstart : start < nfa.graphSize) (h : Fragment nfa nfa' start newEnd l reads keys label)
    (h' : Fragment nfa' nfa'' newEnd newEnd' l' reads' keys' label') :
    Fragment nfa nfa'' start newEnd' (l * l') (fun key => reads key + l * reads' key)
      (keys ∪ keys') (fun x => if x < nfa'.graphSize then label x else l * label' x) where
  toGrowth := h.toGrowth.after hstart h.region h.labelEnd h.leads h'.toGrowth
  labelEnd := by
    rcases h'.atEnd with ⟨rfl, -⟩ | ⟨hge, -, -⟩
    · have hone : 1 ≤ l' := h'.labelStart ▸ h'.labelEnd
      rw [if_pos (h.lt_size hstart)]
      calc label newEnd' ≤ l := h.labelEnd
        _ = l * 1 := (mul_one l).symm
        _ ≤ l * l' := mul_le_mul_right hone l
    · rw [if_neg (Nat.not_lt.mpr hge)]
      exact mul_le_mul_right h'.labelEnd l
  leads w hw := by
    obtain ⟨u, hu, v, hv, rfl⟩ := Language.mem_mul.mp hw
    exact ((h.leads u hu).mono h'.grows).trans (h'.leads v hv)
  atEnd := by
    rcases h'.atEnd with ⟨rfl, hsize'⟩ | ⟨hge, hlt, hsink⟩
    · rcases h.atEnd with ⟨rfl, hsize⟩ | ⟨hge, hlt, hsink⟩
      · exact .inl ⟨rfl, hsize'.trans hsize⟩
      · refine .inr ⟨hge, hsize' ▸ hlt, fun edge t ht => ?_⟩
        rcases h'.fromStart edge t ht with ht | hnew | hself
        · exact hsink edge t ht
        · have hlt' := h'.inRange _ _ t ht
          omega
        · exact hself
    · exact .inr ⟨h.size.trans hge, hlt, hsink⟩

theorem optional (hstart : start < nfa.graphSize)
    (h : Fragment nfa nfa' start newEnd l reads keys label) :
    Fragment nfa (nfa'.addEpsilonTransition start newEnd) start newEnd (1 + l) reads keys
      (fun x => if x = start then 1 else if x = newEnd then 1 + label x else label x) := by
  have hlt := hstart.trans_le h.size
  have hend := h.lt_size hstart
  have hedges : ∀ {x edge t}, t ∈ (nfa'.addEpsilonTransition start newEnd).edges x edge ↔
      t ∈ nfa'.edges x edge ∨ x = start ∧ edge = .epsilon ∧ t = newEnd :=
    NFA.mem_edges_addEpsilonTransition hlt
  have hwalk : ∀ {w t}, nfa'.Leads start w t →
      (nfa'.addEpsilonTransition start newEnd).Leads start w t := fun hleads =>
    hleads.mono fun _ _ _ ht => hedges.mpr (.inl ht)
  have hle : ∀ x, label x ≤ if x = start then 1 else if x = newEnd then 1 + label x
      else label x := by
    intro x
    split
    · next heq => rw [heq, h.labelStart]
    · split
      · exact le_add_self
      · exact le_rfl
  -- an edge of the end leads to the end
  have hsink : ∀ x edge t, t ∈ nfa'.edges x edge → x ≠ start → x = newEnd →
      edge = .epsilon ∧ t = x := by
    rintro x edge t ht hne rfl
    rcases h.atEnd with ⟨heq, -⟩ | ⟨-, -, hsink⟩
    · exact absurd heq hne
    · exact hsink edge t ht
  constructor
  · constructor
    · exact h.root
    · rw [NFA.graphSize_addEpsilonTransition]
      exact h.size
    · exact fun hall => (h.slots hall).addEpsilonTransition
    · intro x edge t ht
      rw [NFA.graphSize_addEpsilonTransition]
      rcases hedges.mp ht with ht | ⟨-, -, rfl⟩
      · exact h.inRange x edge t ht
      · exact hend
    · exact fun x edge t ht => hedges.mpr (.inl (h.grows x edge ht))
    · intro x hx hne edge t ht
      rcases hedges.mp ht with ht | ⟨rfl, -⟩
      · exact h.old x hx hne edge ht
      · exact absurd rfl hne
    · intro edge t ht
      rcases hedges.mp ht with ht | ⟨-, heps, rfl⟩
      · exact h.fromStart edge t ht
      · rcases h.region with rfl | hge
        · exact .inr (.inr ⟨heps, rfl⟩)
        · exact .inr (.inl hge)
    · intro x hx edge t ht
      rcases hedges.mp ht with ht | ⟨rfl, -⟩
      · exact h.new x hx edge t ht
      · exact absurd hstart (Nat.not_lt.mpr hx)
    · exact if_pos rfl
    · intro x hx edge t ht hnew
      rcases hedges.mp ht with ht | ⟨rfl, rfl, rfl⟩
      · by_cases heq : x = newEnd ∧ x ≠ start
        · obtain ⟨rfl, rfl⟩ := hsink x edge t ht heq.2 heq.1
          rw [EdgeLabel.reads_epsilon, mul_one]
        · have hsame : (if x = start then 1 else if x = newEnd then 1 + label x else label x) =
              label x := by
            split
            · next hs => rw [hs, h.labelStart]
            · next hs => rw [if_neg fun hnewEnd => heq ⟨hnewEnd, hs⟩]
          rw [hsame]
          exact (h.labelEdge x hx edge t ht hnew).trans (hle t)
      · rw [if_pos rfl, if_neg (hstart.trans_le hnew).ne', if_pos rfl, EdgeLabel.reads_epsilon,
          one_mul]
        exact le_self_add
    · intro x hx key hkey t ht hnew
      rcases hedges.mp ht with ht | ⟨-, heps, -⟩
      · have hlabel := h.labelKey x hx key hkey t ht hnew
        split
        · next hs => rwa [hs, h.labelStart] at hlabel
        · next hs =>
          rw [if_neg fun hnewEnd => hkey (EdgeLabel.key.inj (hsink x _ t ht hs hnewEnd).1)]
          exact hlabel
      · exact absurd (EdgeLabel.key.inj heps) hkey
    · intro key w hw
      obtain ⟨x, hleads, t, ht⟩ := h.leadsToKey key w hw
      exact ⟨x, hwalk hleads, t, hedges.mpr (.inl ht)⟩
    · intro key
      rw [h.mem_keys]
      refine and_congr_right fun hkey => exists_congr fun x => and_congr_right fun _ =>
        exists_congr fun t => and_congr_left fun _ => ?_
      rw [hedges]
      refine (or_iff_left ?_).symm
      rintro ⟨-, heps, -⟩
      exact hkey (EdgeLabel.key.inj heps)
  · split
    · exact le_self_add
    · rw [if_pos rfl]
      exact add_le_add_right h.labelEnd 1
  · intro w hw
    rcases (Language.mem_add ..).mp hw with hw | hw
    · rw [(Language.mem_one w).mp hw]
      refine Walk.nil.append_edge (hedges.mpr (.inr ⟨rfl, rfl, rfl⟩)) ?_
      exact EdgeLabel.mem_reads_epsilon.mpr rfl
    · exact hwalk (h.leads w hw)
  · rw [NFA.graphSize_addEpsilonTransition]
    refine h.atEnd.imp id ?_
    rintro ⟨hge, hlt, hsink⟩
    refine ⟨hge, hlt, fun edge t ht => ?_⟩
    rcases hedges.mp ht with ht | ⟨rfl, -⟩
    · exact hsink edge t ht
    · exact absurd hstart (Nat.not_lt.mpr hge)

end Fragment

/-! ## Repetition -/

namespace NFA

variable {nfa : NFA} {start newEnd x t : ℕ} {edge : EdgeLabel}

/-- The graph with the new start of a repetition. -/
def openLoop (nfa : NFA) (start : ℕ) : NFA :=
  nfa.createNode.1.addEpsilonTransition start nfa.graphSize

/-- The graph with the way back to the start of a repetition, and its new end. -/
def closeLoop (nfa : NFA) (repeatStart repeatEnd : ℕ) : NFA :=
  (nfa.addEpsilonTransition repeatEnd repeatStart).createNode.1.addEpsilonTransition repeatEnd
    nfa.graphSize

@[simp] theorem graphSize_openLoop : (nfa.openLoop start).graphSize = nfa.graphSize + 1 := by
  rw [openLoop, graphSize_addEpsilonTransition, graphSize_createNode]

@[simp] theorem graphSize_closeLoop :
    (nfa.closeLoop start newEnd).graphSize = nfa.graphSize + 1 := by
  rw [closeLoop, graphSize_addEpsilonTransition, graphSize_createNode,
    graphSize_addEpsilonTransition]

theorem mem_edges_openLoop (hstart : start < nfa.graphSize) :
    t ∈ (nfa.openLoop start).edges x edge ↔
      t ∈ nfa.edges x edge ∨ x = start ∧ edge = .epsilon ∧ t = nfa.graphSize := by
  rw [openLoop, mem_edges_addEpsilonTransition (by rw [graphSize_createNode]; omega),
    edges_createNode]

theorem mem_edges_closeLoop (hend : newEnd < nfa.graphSize) :
    t ∈ (nfa.closeLoop start newEnd).edges x edge ↔ t ∈ nfa.edges x edge ∨
      x = newEnd ∧ edge = .epsilon ∧ (t = start ∨ t = nfa.graphSize) := by
  rw [closeLoop, mem_edges_addEpsilonTransition (by
      rw [graphSize_createNode, graphSize_addEpsilonTransition]; omega),
    edges_createNode, mem_edges_addEpsilonTransition hend]
  tauto

theorem InRange.openLoop (h : nfa.InRange) (hstart : start < nfa.graphSize) :
    (nfa.openLoop start).InRange := by
  intro x edge t ht
  rw [graphSize_openLoop]
  rcases (mem_edges_openLoop hstart).mp ht with ht | ⟨-, -, rfl⟩
  · exact (h x edge t ht).trans (Nat.lt_succ_self _)
  · exact Nat.lt_succ_self _

end NFA

namespace Fragment

variable {nfa nfa' : NFA} {start newEnd : ℕ} {l : Language ℕ} {reads : ℕ → Language ℕ}
  {keys : Set ℕ} {label : ℕ → Language ℕ}

/-- The edges of the nodes of a repetition, apart from the way back. -/
theorem loop_edge (hrange : nfa.InRange) (hstart : start < nfa.graphSize)
    (h : Fragment (nfa.openLoop start) nfa' nfa.graphSize newEnd l reads keys label) {x t : ℕ}
    {edge : EdgeLabel} (hx : x = start ∨ nfa.graphSize ≤ x) (ht : t ∈ nfa'.edges x edge)
    (hnew : nfa.graphSize ≤ t) :
    x = start ∧ edge = .epsilon ∧ t = nfa.graphSize ∨ x = nfa.graphSize ∧ edge = .epsilon ∧ t = x ∨
      (x = nfa.graphSize ∨ nfa.graphSize + 1 ≤ x) ∧ nfa.graphSize + 1 ≤ t := by
  have hsize : (nfa.openLoop start).graphSize = nfa.graphSize + 1 := NFA.graphSize_openLoop
  have hbase : ∀ {x}, t ∈ (nfa.openLoop start).edges x edge →
      x = start ∧ edge = .epsilon ∧ t = nfa.graphSize := fun ht =>
    ((NFA.mem_edges_openLoop hstart).mp ht).resolve_left fun hold =>
      absurd (hrange _ _ t hold) (Nat.not_lt.mpr hnew)
  rcases hx with rfl | hx
  · exact .inl (hbase (h.old x (by omega) hstart.ne edge ht))
  · rcases eq_or_lt_of_le hx with rfl | hlt
    · rcases h.fromStart edge t ht with ht | ht | ⟨heps, heq⟩
      · exact absurd (hbase ht).1 hstart.ne'
      · exact .inr (.inr ⟨.inl rfl, by omega⟩)
      · exact .inr (.inl ⟨rfl, heps, heq⟩)
    · have hge := h.new x (by omega) edge t ht
      exact .inr (.inr ⟨.inr hlt, by omega⟩)

/-- A fragment between a new start and a new end, with a way back. -/
theorem loop (hrange : nfa.InRange) (hstart : start < nfa.graphSize)
    (h : Fragment (nfa.openLoop start) nfa' nfa.graphSize newEnd l reads keys label) :
    Fragment nfa (nfa'.closeLoop nfa.graphSize newEnd) start nfa'.graphSize (l * l∗)
      (fun key => l∗ * reads key) keys (fun x => if x < nfa.graphSize then 1
        else if x = nfa'.graphSize then l∗ * l else l∗ * label x) := by
  have hopen : (nfa.openLoop start).graphSize = nfa.graphSize + 1 := NFA.graphSize_openLoop
  have hend := h.lt_size (by rw [hopen]; exact Nat.lt_succ_self _)
  have hnewEnd : nfa.graphSize ≤ newEnd := by
    rcases h.atEnd with ⟨rfl, -⟩ | ⟨hge, -⟩
    · exact le_rfl
    · omega
  have hedges : ∀ {x edge t}, t ∈ (nfa'.closeLoop nfa.graphSize newEnd).edges x edge ↔
      t ∈ nfa'.edges x edge ∨
        x = newEnd ∧ edge = .epsilon ∧ (t = nfa.graphSize ∨ t = nfa'.graphSize) :=
    NFA.mem_edges_closeLoop hend
  have hold : ∀ x < nfa.graphSize, ∀ edge, ∀ t ∈ (nfa'.closeLoop nfa.graphSize newEnd).edges x edge,
      t ∈ nfa.edges x edge ∨ x = start ∧ edge = .epsilon ∧ t = nfa.graphSize := by
    intro x hx edge t ht
    rcases hedges.mp ht with ht | ⟨rfl, -⟩
    · exact (NFA.mem_edges_openLoop hstart).mp (h.old x (by omega) hx.ne edge ht)
    · exact absurd hx (Nat.not_lt.mpr hnewEnd)
  have hwalk : ∀ {x w t}, nfa'.Leads x w t →
      (nfa'.closeLoop nfa.graphSize newEnd).Leads x w t := fun hleads =>
    hleads.mono fun _ _ _ ht => hedges.mpr (.inl ht)
  have hnil : ([] : List ℕ) ∈ EdgeLabel.epsilon.reads := EdgeLabel.mem_reads_epsilon.mpr rfl
  -- any number of rounds
  have hrounds : ∀ w ∈ l∗, (nfa'.closeLoop nfa.graphSize newEnd).Leads start w nfa.graphSize := by
    rintro w ⟨words, rfl, hwords⟩
    have henter : (nfa'.closeLoop nfa.graphSize newEnd).Leads start [] nfa.graphSize := by
      refine Walk.nil.append_edge (hedges.mpr (.inl (h.grows _ _ ?_))) hnil
      exact (NFA.mem_edges_openLoop hstart).mpr (.inr ⟨rfl, rfl, rfl⟩)
    suffices hloop : (nfa'.closeLoop nfa.graphSize newEnd).Leads nfa.graphSize words.flatten
        nfa.graphSize from henter.trans hloop
    induction words with
    | nil => exact .nil
    | cons word words ih =>
      have hround := (hwalk (h.leads word (hwords word List.mem_cons_self))).append_edge
        (hedges.mpr (.inr ⟨rfl, rfl, .inl rfl⟩)) hnil
      exact hround.trans (ih fun word hword => hwords word (List.mem_cons_of_mem _ hword))
  have hback : l∗ * label newEnd ≤ l∗ * l := mul_le_mul_right h.labelEnd _
  constructor
  · constructor
    · exact h.root
    · rw [NFA.graphSize_closeLoop]
      omega
    · intro hall
      have hclosed := h.slots hall.createNode.addEpsilonTransition
      exact hclosed.addEpsilonTransition.createNode.addEpsilonTransition
    · intro x edge t ht
      rw [NFA.graphSize_closeLoop]
      rcases hedges.mp ht with ht | ⟨-, -, rfl | rfl⟩
      · exact (h.inRange x edge t ht).trans (Nat.lt_succ_self _)
      · omega
      · omega
    · intro x edge t ht
      exact hedges.mpr (.inl (h.grows x edge ((NFA.mem_edges_openLoop hstart).mpr (.inl ht))))
    · intro x hx hne edge t ht
      exact (hold x hx edge t ht).resolve_right fun h => hne h.1
    · intro edge t ht
      rcases hold start hstart edge t ht with ht | ⟨-, -, rfl⟩
      · exact .inl ht
      · exact .inr (.inl le_rfl)
    · intro x hx edge t ht
      rcases hedges.mp ht with ht | ⟨-, -, rfl | rfl⟩
      · rcases eq_or_lt_of_le hx with rfl | hlt
        · rcases h.fromStart edge t ht with ht | ht | ⟨-, rfl⟩
          · rcases (NFA.mem_edges_openLoop hstart).mp ht with ht | ⟨-, -, rfl⟩
            · exact absurd (NFA.lt_of_mem_edges ht) (lt_irrefl _)
            · exact le_rfl
          · omega
          · exact le_rfl
        · have hge := h.new x (by omega) edge t ht
          omega
      · exact le_rfl
      · omega
    · exact if_pos hstart
    · intro x hx edge t ht hnew
      rw [if_neg (Nat.not_lt.mpr hnew)]
      rcases hedges.mp ht with ht | ⟨rfl, rfl, htarget⟩
      · have hlt := h.inRange x edge t ht
        have hx' := NFA.lt_of_mem_edges ht
        rw [if_neg hlt.ne]
        rcases loop_edge hrange hstart h hx ht hnew with
          ⟨rfl, rfl, rfl⟩ | ⟨rfl, rfl, rfl⟩ | ⟨hreg, hge⟩
        · rw [if_pos hstart, EdgeLabel.reads_epsilon, h.labelStart, mul_one, mul_one]
          exact one_le_kstar
        · rw [if_neg (lt_irrefl _), if_neg hx'.ne, EdgeLabel.reads_epsilon, mul_one]
        · rw [if_neg (by omega), if_neg hx'.ne, mul_assoc]
          refine mul_le_mul_right (h.labelEdge x ?_ edge t ht (by omega)) _
          exact hreg.imp id fun hle => by omega
      · rw [if_neg (by omega), if_neg hend.ne, EdgeLabel.reads_epsilon, mul_one]
        rcases htarget with rfl | rfl
        · rw [if_neg (by omega), h.labelStart, mul_one]
          exact hback.trans kstar_mul_le_kstar
        · rw [if_pos rfl]
          exact hback
    · intro x hx key hkey t ht hnew
      rcases hedges.mp ht with ht | ⟨-, heps, -⟩
      · have hx' := NFA.lt_of_mem_edges ht
        rcases loop_edge hrange hstart h hx ht hnew with
          ⟨-, heps, -⟩ | ⟨-, heps, -⟩ | ⟨hreg, hge⟩
        · exact absurd (EdgeLabel.key.inj heps) hkey
        · exact absurd (EdgeLabel.key.inj heps) hkey
        · rw [if_neg (by omega), if_neg hx'.ne]
          refine mul_le_mul_right (h.labelKey x ?_ key hkey t ht (by omega)) _
          exact hreg.imp id fun hle => by omega
      · exact absurd (EdgeLabel.key.inj heps) hkey
    · intro key w hw
      obtain ⟨u, hu, v, hv, rfl⟩ := Language.mem_mul.mp hw
      obtain ⟨x, hleads, t, ht⟩ := h.leadsToKey key v hv
      exact ⟨x, (hrounds u hu).trans (hwalk hleads), t, hedges.mpr (.inl ht)⟩
    · intro key
      rw [h.mem_keys]
      refine and_congr_right fun hkey => ⟨?_, ?_⟩
      · rintro ⟨x, hx, t, ht, hnew⟩
        exact ⟨x, .inr (by omega), t, hedges.mpr (.inl ht), by omega⟩
      · rintro ⟨x, hx, t, ht, hnew⟩
        rcases hedges.mp ht with ht | ⟨-, heps, -⟩
        · rcases loop_edge hrange hstart h hx ht hnew with
            ⟨-, heps, -⟩ | ⟨-, heps, -⟩ | ⟨hreg, hge⟩
          · exact absurd (EdgeLabel.key.inj heps) hkey
          · exact absurd (EdgeLabel.key.inj heps) hkey
          · exact ⟨x, hreg.imp id fun hle => by omega, t, ht, by omega⟩
        · exact absurd (EdgeLabel.key.inj heps) hkey
  · rw [if_neg (by omega), if_pos rfl, Language.mul_self_kstar_comm]
  · intro w hw
    rw [← Language.mul_self_kstar_comm] at hw
    obtain ⟨u, hu, v, hv, rfl⟩ := Language.mem_mul.mp hw
    exact ((hrounds u hu).trans (hwalk (h.leads v hv))).append_edge
      (hedges.mpr (.inr ⟨rfl, rfl, .inr rfl⟩)) hnil
  · refine .inr ⟨by omega, by rw [NFA.graphSize_closeLoop]; omega, fun edge t ht => ?_⟩
    rcases hedges.mp ht with ht | ⟨heq, -⟩
    · exact absurd (NFA.lt_of_mem_edges ht) (lt_irrefl _)
    · omega

end Fragment

end WebKit.ContentExtensions
