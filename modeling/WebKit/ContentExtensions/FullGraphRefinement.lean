import WebKit.ContentExtensions.FullGraphPartition

/-!
# Every set of transitions is used as a splitter

`FullGraphPartition.Inv` holds between two splitters. Splitting by the sources of a set of
transitions keeps it, and lengthens the list of sets that were used (`Processed`), while
sets that were used stay so: `split_transitions` and `split_fallback` run the loops to their
ends, where all sets of both kinds were used.
-/

namespace WebKit.ContentExtensions

open Refinement Partition List

variable {n : ℕ} {R : ℕ → ℕ → Prop} {t f : Edges n R} {g g' g'' : FullGraphPartition}

/-- The edges are those of a table. -/
structure Edges.Represents {δ : Type*} (E : Edges n R) (table : FlattenedTransitions δ)
    (source : δ → ℕ) : Prop where
  size : table.size = E.size
  incoming : table.incoming = E.incoming
  source : ∀ e < E.size, source (table.transition e) = E.source e

namespace FullGraphPartition

/-- What holds between two splitters. -/
structure Inv (t f : Edges n R) (g : FullGraphPartition) : Prop where
  transitions : t.Represents g.flattenedTransitions Transition.source
  fallback : f.Represents g.flattenedFallbackTransitions id
  nodes : g.nodePartition.Clear n
  keeps : Keeps R (elements n) g.nodePartition.setIndex
  dividedTransitions : t.Divided g.nodePartition.setIndex g.transitionPartition
  dividedFallback : f.Divided g.nodePartition.setIndex g.fallbackTransitionPartition

/-- The three partitions come from those of `g` by splitting sets. -/
structure Evolves (t f : Edges n R) (g g' : FullGraphPartition) : Prop where
  nodes : Refines (elements n) g.nodePartition.size g.nodePartition.setIndex
    g'.nodePartition.setIndex
  size_le : g.nodePartition.size ≤ g'.nodePartition.size
  transitions : t.Later g.transitionPartition g'.transitionPartition
  fallback : f.Later g.fallbackTransitionPartition g'.fallbackTransitionPartition

namespace Evolves

theorem refl (g : FullGraphPartition) : Evolves t f g g := ⟨.refl _ _ _, le_rfl, .refl _, .refl _⟩

theorem trans (h : Evolves t f g g') (h' : Evolves t f g' g'') : Evolves t f g g'' :=
  ⟨h.nodes.trans h'.nodes h.size_le, h.size_le.trans h'.size_le,
    h.transitions.trans h'.transitions, h.fallback.trans h'.fallback⟩

end Evolves

theorem foldl_markNode (g : FullGraphPartition) (nodes : List ℕ) : nodes.foldl markNode g =
      { g with nodePartition := nodes.foldl markElementInCurrentGeneration g.nodePartition } := by
  induction nodes generalizing g with
  | nil => rfl
  | cons x rest ih =>
    rw [foldl_cons, ih]
    rfl

section

variable (h : Inv t f g)
include h

theorem refineTransitions_eq (nodes : Partition) (smallestSetIndex : ℕ)
    (transitions : Partition × Partition) :
    g.refineTransitions nodes smallestSetIndex transitions =
      (((nodes.elementsInSet smallestSetIndex).foldl t.markIncoming transitions.1).refine,
        ((nodes.elementsInSet smallestSetIndex).foldl f.markIncoming transitions.2).refine) := by
  have hpair : ∀ (l : List ℕ) (s : Partition × Partition),
      l.foldl (fun s x => (g.flattenedTransitions.markIncoming s.1 x,
        g.flattenedFallbackTransitions.markIncoming s.2 x)) s =
      (l.foldl t.markIncoming s.1, l.foldl f.markIncoming s.2) := by
    intro l
    induction l with
    | nil => exact fun _ => rfl
    | cons x rest ih =>
      intro s
      rw [foldl_cons, ih]
      simp only [FlattenedTransitions.markIncoming, h.transitions.incoming, h.fallback.incoming]
      rfl
  simp only [refineTransitions, iterateSet, hpair]

theorem Inv.refine_marked {nodes : List ℕ} (hlt : ∀ x ∈ nodes, x < n)
    (hnodup : nodes.Nodup) (hresp : Respects R (elements n) {x | x ∈ nodes}) :
    Inv t f (nodes.foldl markNode g).refinePartitions ∧
      Evolves t f g (nodes.foldl markNode g).refinePartitions ∧
      Separates (elements n) g.nodePartition.size {x | x ∈ nodes} g.nodePartition.setIndex
        (nodes.foldl markNode g).refinePartitions.nodePartition.setIndex := by
  obtain ⟨hmarking, hindex, hsize, hmarked⟩ := h.nodes.marking.markAll hlt hnodup
    fun x hx => h.nodes.not_marked (hlt x hx)
  rw [foldl_markNode]
  set p := nodes.foldl markElementInCurrentGeneration g.nodePartition
  have hmarked' : ∀ x ∈ elements n, (x ∈ {x | p.Marked x} ↔ x ∈ {x | x ∈ nodes}) := by
    intro x hx
    rw [Set.mem_ofPred_eq, Set.mem_ofPred_eq, hmarked x hx]
    exact or_iff_right (h.nodes.not_marked hx)
  have hresp' : Respects R (elements n) {x | p.Marked x} := by
    intro x hx y hy hR
    rw [hmarked' x hx, hmarked' y hy]
    exact hresp x hx y hy hR
  -- What the calls for the new sets keep.
  have hcalls : KeptByCalls n {x | p.Marked x} g.refineTransitions fun index _ s =>
      Keeps R (elements n) index ∧ (t.Divided index s.1 ∧ t.Later g.transitionPartition s.1) ∧
        f.Divided index s.2 ∧ f.Later g.fallbackTransitionPartition s.2 := by
    rintro q k q' s hvalid href hsize' hset ⟨hkeeps, ⟨ht, htLater⟩, hf, hfLater⟩
    have hsetRespects : Respects R (elements n) {x | q.setIndex x = k ∧ q.Marked x} := by
      intro x hx y hy hR
      have hsame := hkeeps x hx y hy hR
      have hM := hresp' x hx y hy hR
      rw [Set.mem_ofPred_eq, Set.mem_ofPred_eq, hsame]
      refine and_congr_right fun hk => ?_
      rw [hset x hx (hsame.trans hk), hset y hy hk]
      exact hM
    have hkeeps' := href.separates.keeps hkeeps hsetRespects
    rw [refineTransitions_eq h]
    obtain ⟨ht', htLater'⟩ := ht.split href hsize' hkeeps'
    obtain ⟨hf', hfLater'⟩ := hf.split href hsize' hkeeps'
    exact ⟨hkeeps', ⟨ht', htLater.trans htLater'⟩, hf', hfLater.trans hfLater'⟩
  obtain ⟨hclear, hsep, hsizeLe, hkeeps, ⟨ht, htLater⟩, hf, hfLater⟩ :=
    refineGeneration_spec hmarking hcalls (g.transitionPartition, g.fallbackTransitionPartition) (by
      rw [hindex]
      exact ⟨h.keeps, ⟨h.dividedTransitions, .refl _⟩, h.dividedFallback, .refl _⟩)
  rw [hindex, hsize] at hsep
  rw [hsize] at hsizeLe
  have hsep' := hsep.congr hmarked'
  exact ⟨⟨h.transitions, h.fallback, hclear, hkeeps, ht, hf⟩,
    ⟨hsep'.refines, hsizeLe, htLater, hfLater⟩, hsep'⟩

theorem Inv.split {E : Edges n R} {edges : Partition}
    (hdiv : E.Divided g.nodePartition.setIndex edges) (hsymm : ∀ x y, R x y → R y x) {k : ℕ}
    (hk : k < edges.size) :
    let g' := (((edges.elementsInSet k).map E.source).foldl markNode g).refinePartitions
    Inv t f g' ∧ Evolves t f g g' ∧ Stable (elements n) g'.nodePartition.setIndex
      (E.source '' cell (elements E.size) edges.setIndex k) := by
  have hvalid := hdiv.clear.valid
  have hmem : ∀ e, e ∈ edges.elementsInSet k ↔ e < E.size ∧ edges.setIndex e = k :=
    fun e => hvalid.mem_elementsInSet hk
  have hset : {x | x ∈ (edges.elementsInSet k).map E.source} =
      E.source '' cell (elements E.size) edges.setIndex k := by
    ext x
    rw [Set.mem_ofPred_eq, mem_map]
    exact exists_congr fun e => and_congr_left fun _ => hmem e
  have hlt : ∀ x ∈ (edges.elementsInSet k).map E.source, x < n := by
    intro x hx
    obtain ⟨e, he, rfl⟩ := mem_map.mp hx
    exact E.source_lt e ((hmem e).mp he).1
  have hnodup : ((edges.elementsInSet k).map E.source).Nodup := by
    refine (hvalid.nodup_elementsInSet hk).map_on fun e he e' he' heq => ?_
    exact hdiv.injOn k ((hmem e).mp he) ((hmem e').mp he') heq
  have hresp : Respects R (elements n) {x | x ∈ (edges.elementsInSet k).map E.source} := by
    rw [hset]
    exact Keeps.image hsymm E.lifts hdiv.keeps k
  obtain ⟨hinv, hevol, hsep⟩ := h.refine_marked hlt hnodup hresp
  rw [hset] at hsep
  exact ⟨hinv, hevol, hsep.stable⟩

theorem splitByTransitionSet_eq {k : ℕ} (hk : k < g.transitionPartition.size) :
    g.splitByTransitionSet k =
      (((g.transitionPartition.elementsInSet k).map t.source).foldl markNode
        g).refinePartitions := by
  have hmap : (g.transitionPartition.elementsInSet k).map t.source =
      (g.transitionPartition.elementsInSet k).map fun e =>
        (g.flattenedTransitions.transition e).source := by
    refine map_congr_left fun e he => (h.transitions.source e ?_).symm
    exact ((h.dividedTransitions.clear.valid.mem_elementsInSet hk).mp he).1
  have htable : ∀ (l : List ℕ) (g' : FullGraphPartition),
      g'.flattenedTransitions = g.flattenedTransitions →
      l.foldl (fun g e => g.markNode (g.flattenedTransitions.transition e).source) g' =
        (l.map fun e => (g.flattenedTransitions.transition e).source).foldl markNode g' := by
    intro l
    induction l with
    | nil => exact fun _ _ => rfl
    | cons e rest ih =>
      intro g' heq
      rw [foldl_cons, map_cons, foldl_cons, heq]
      exact ih _ heq
  rw [hmap, splitByTransitionSet, iterateSet, htable _ g rfl]

theorem splitByFallbackTransitionSet_eq {k : ℕ}
    (hk : k < g.fallbackTransitionPartition.size) :
    g.splitByFallbackTransitionSet k =
      (((g.fallbackTransitionPartition.elementsInSet k).map f.source).foldl markNode
        g).refinePartitions := by
  have hmap : (g.fallbackTransitionPartition.elementsInSet k).map f.source =
      (g.fallbackTransitionPartition.elementsInSet k).map
        g.flattenedFallbackTransitions.transition := by
    refine map_congr_left fun e he => (h.fallback.source e ?_).symm
    exact ((h.dividedFallback.clear.valid.mem_elementsInSet hk).mp he).1
  have htable : ∀ (l : List ℕ) (g' : FullGraphPartition),
      g'.flattenedFallbackTransitions = g.flattenedFallbackTransitions →
      l.foldl (fun g e => g.markNode (g.flattenedFallbackTransitions.transition e)) g' =
        (l.map g.flattenedFallbackTransitions.transition).foldl markNode g' := by
    intro l
    induction l with
    | nil => exact fun _ _ => rfl
    | cons e rest ih =>
      intro g' heq
      rw [foldl_cons, map_cons, foldl_cons, heq]
      exact ih _ heq
  rw [hmap, splitByFallbackTransitionSet, iterateSet, htable _ g rfl]

end

/-- The first `i` sets of transitions and the first `j` sets of fallback transitions were
used. -/
structure Used (t f : Edges n R) (i j : ℕ) (g : FullGraphPartition) : Prop where
  transitions_le : i ≤ g.transitionPartition.size
  fallback_le : j ≤ g.fallbackTransitionPartition.size
  transitions : Processed (elements n) (elements t.size) t.source g.nodePartition.setIndex
    g.transitionPartition.setIndex i
  fallback : Processed (elements n) (elements f.size) f.source g.nodePartition.setIndex
    g.fallbackTransitionPartition.setIndex j

theorem Used.evolve {i j : ℕ} (h : Used t f i j g) (hevol : Evolves t f g g') :
    Used t f i j g' where
  transitions_le := h.transitions_le.trans hevol.transitions.size_le
  fallback_le := h.fallback_le.trans hevol.fallback.size_le
  transitions := (h.transitions.refine_nodes hevol.nodes).refine_edges
    hevol.transitions.refines h.transitions_le
  fallback := (h.fallback.refine_nodes hevol.nodes).refine_edges
    hevol.fallback.refines h.fallback_le

theorem split_transitionSet {i j : ℕ} (h : Inv t f g) (hused : Used t f i j g)
    (hsymm : ∀ x y, R x y → R y x) (hi : i < g.transitionPartition.size) :
    Inv t f (g.splitByTransitionSet i) ∧ Evolves t f g (g.splitByTransitionSet i) ∧
      Used t f (i + 1) j (g.splitByTransitionSet i) := by
  rw [splitByTransitionSet_eq h hi]
  obtain ⟨hinv, hevol, hstable⟩ := h.split h.dividedTransitions hsymm hi
  have hused' := hused.evolve hevol
  refine ⟨hinv, hevol, Nat.succ_le_of_lt (hi.trans_le hevol.transitions.size_le),
    hused'.fallback_le, ?_, hused'.fallback⟩
  have hnext := (hused.transitions.refine_nodes hevol.nodes).next
    (h.dividedTransitions.injOn i) hstable
  exact hnext.refine_edges hevol.transitions.refines hi

theorem split_fallbackSet {i j : ℕ} (h : Inv t f g) (hused : Used t f i j g)
    (hsymm : ∀ x y, R x y → R y x) (hj : j < g.fallbackTransitionPartition.size) :
    Inv t f (g.splitByFallbackTransitionSet j) ∧ Evolves t f g (g.splitByFallbackTransitionSet j) ∧
      Used t f i (j + 1) (g.splitByFallbackTransitionSet j) := by
  rw [splitByFallbackTransitionSet_eq h hj]
  obtain ⟨hinv, hevol, hstable⟩ := h.split h.dividedFallback hsymm hj
  have hused' := hused.evolve hevol
  refine ⟨hinv, hevol, hused'.transitions_le,
    Nat.succ_le_of_lt (hj.trans_le hevol.fallback.size_le), hused'.transitions, ?_⟩
  have hnext := (hused.fallback.refine_nodes hevol.nodes).next
    (h.dividedFallback.injOn j) hstable
  exact hnext.refine_edges hevol.fallback.refines hj

section

variable (hsymm : ∀ x y, R x y → R y x)
include hsymm

theorem split_transitions_loop {j : ℕ} (turns : ℕ) :
    ∀ g : FullGraphPartition, Inv t f g → Used t f g.nextTransitionSetToProcess j g →
      t.size < turns + g.nextTransitionSetToProcess →
      ∃ g', splitByUniqueTransitionsLoop turns g = some g' ∧ Inv t f g' ∧ Evolves t f g g' ∧
        Used t f g'.nextTransitionSetToProcess j g' ∧
        g'.nextTransitionSetToProcess = g'.transitionPartition.size := by
  induction turns with
  | zero =>
    intro g h hused hturns
    have hle := hused.transitions_le.trans h.dividedTransitions.clear.valid.size_le
    omega
  | succ turns ih =>
    intro g h hused hturns
    rw [splitByUniqueTransitionsLoop]
    split
    · rename_i hlt
      obtain ⟨hinv, hevol, hused'⟩ := split_transitionSet h hused hsymm hlt
      obtain ⟨g', hg', hinv', hevol', hend⟩ := ih
        { g.splitByTransitionSet g.nextTransitionSetToProcess with
          nextTransitionSetToProcess := g.nextTransitionSetToProcess + 1 }
        ⟨hinv.transitions, hinv.fallback, hinv.nodes, hinv.keeps, hinv.dividedTransitions,
          hinv.dividedFallback⟩
        ⟨hused'.transitions_le, hused'.fallback_le, hused'.transitions, hused'.fallback⟩
        (by dsimp only; omega)
      refine ⟨g', hg', hinv', hevol.trans ?_, hend⟩
      exact ⟨hevol'.nodes, hevol'.size_le, hevol'.transitions, hevol'.fallback⟩
    · rename_i hge
      exact ⟨g, rfl, h, .refl g, hused, le_antisymm hused.transitions_le (Nat.le_of_not_lt hge)⟩

theorem split_transitions {j : ℕ} (h : Inv t f g)
    (hused : Used t f g.nextTransitionSetToProcess j g) :
    ∃ g', g.splitByUniqueTransitions = some g' ∧ Inv t f g' ∧ Evolves t f g g' ∧
      Used t f g'.nextTransitionSetToProcess j g' ∧
      g'.nextTransitionSetToProcess = g'.transitionPartition.size := by
  refine split_transitions_loop hsymm _ g h hused ?_
  rw [h.transitions.size]
  omega

theorem split_fallback_loop (turns : ℕ) :
    ∀ (j : ℕ) (g : FullGraphPartition), Inv t f g → Used t f g.nextTransitionSetToProcess j g →
      g.nextTransitionSetToProcess = g.transitionPartition.size → f.size < turns + j →
      ∃ g', splitByFallbackTransitionsLoop turns j g = some g' ∧ Inv t f g' ∧ Evolves t f g g' ∧
        Used t f g'.transitionPartition.size g'.fallbackTransitionPartition.size g' := by
  induction turns with
  | zero =>
    intro j g h hused _ hturns
    have hle := hused.fallback_le.trans h.dividedFallback.clear.valid.size_le
    omega
  | succ turns ih =>
    intro j g h hused hnext hturns
    rw [splitByFallbackTransitionsLoop]
    split
    · rename_i hlt
      obtain ⟨hinv, hevol, hused'⟩ := split_fallbackSet h hused hsymm hlt
      have hsame : (g.splitByFallbackTransitionSet j).nextTransitionSetToProcess =
          g.nextTransitionSetToProcess := by
        rw [splitByFallbackTransitionSet_eq h hlt, foldl_markNode]
        rfl
      obtain ⟨g', hg', hinv', hevol', hused'', hnext'⟩ :=
        split_transitions hsymm hinv (hsame ▸ hused')
      obtain ⟨g'', hg'', hinv'', hevol'', hall⟩ := ih (j + 1) g' hinv' hused'' hnext' (by omega)
      rw [hg']
      exact ⟨g'', hg'', hinv'', (hevol.trans hevol').trans hevol'', hall⟩
    · rename_i hge
      have hall := le_antisymm hused.fallback_le (Nat.le_of_not_lt hge)
      rw [hnext, hall] at hused
      exact ⟨g, rfl, h, .refl g, hused⟩

end

/-- `splitByFallbackTransitions` returns, and every set of transitions of both kinds was
used. -/
theorem split_fallback (hsymm : ∀ x y, R x y → R y x) (h : Inv t f g)
    (hused : Used t f g.nextTransitionSetToProcess 0 g)
    (hnext : g.nextTransitionSetToProcess = g.transitionPartition.size) :
    ∃ g', g.splitByFallbackTransitions = some g' ∧ Inv t f g' ∧ Evolves t f g g' ∧
      Used t f g'.transitionPartition.size g'.fallbackTransitionPartition.size g' := by
  refine split_fallback_loop hsymm _ 0 g h hused hnext ?_
  rw [h.fallback.size]
  omega

end FullGraphPartition

end WebKit.ContentExtensions
