import Mathlib.Data.Set.Finite.Lemmas
import WebKit.ContentExtensions.CombinedGraph

/-!
# Patterns that share a graph

Two patterns are compiled to one graph when they share their variable length prefixes. The
patterns of a graph of `createNFAs` are such a group (`exists_group_of_generated`), and each
group is part of a graph (`exists_generated_of_mem`): a group that needs no graph of its own
is one pattern, which begins another.
-/

namespace WebKit.ContentExtensions

open Prod

namespace PrefixTreeVertex

open Term List

variable {root vertex last : PrefixTreeVertex} {stack : List (Term × PrefixTreeVertex)}
  {marked : Bool} {path path' core pattern pattern' : List Term} {patterns : Set (List Term)}
  {actionIds : Set ℕ}

theorem Follows.vertexAt (hdist : KeysDistinct vertex) (h : Follows marked vertex stack last) :
    vertexAt (stack.map fst) vertex = some last ∧
    ∀ path ≠ [], path <+: stack.map fst → ∀ old, view path vertex = some old → old.2 = marked := by
  induction h with
  | nil =>
    refine ⟨rfl, fun path hne hpre => ?_⟩
    exact absurd (prefix_nil.mp hpre) hne
  | @cons vertex last edge stack hmem hmarked _ ih =>
    obtain ⟨edges, finalActions, mark⟩ := vertex
    obtain ⟨hnodup, hnext⟩ := keysDistinct_mk.mp hdist
    have hfind : find edge.1 edges = some edge.2 := find_of_mem hnodup hmem
    obtain ⟨hat, hmarks⟩ := ih (hnext _ _ hfind)
    constructor
    · rw [map_cons, vertexAt_cons, PrefixTreeVertex.edges, hfind, Option.bind_some, hat]
    · intro path hne hpre old hold
      cases path with
      | nil => exact absurd rfl hne
      | cons term path =>
        rw [map_cons, cons_prefix_cons] at hpre
        obtain ⟨rfl, hpre⟩ := hpre
        rw [view_cons, PrefixTreeVertex.edges, hfind, Option.bind_some] at hold
        by_cases hpath : path = []
        · subst hpath
          rw [← Option.some.inj hold]
          exact hmarked
        · exact hmarks path hpath hpre old hold

theorem exists_follows (h : vertexAt path vertex = some last)
    (hmarks : ∀ path' ≠ [], path' <+: path → ∀ old, view path' vertex = some old → old.2 = marked) :
    ∃ stack, Follows marked vertex stack last ∧ stack.map fst = path := by
  induction path generalizing vertex with
  | nil =>
    obtain rfl := Option.some.inj h
    exact ⟨[], .nil, rfl⟩
  | cons term path ih =>
    obtain ⟨next, hfind, hlast⟩ := Option.bind_eq_some_iff.mp h
    have hview : ∀ path, view (term :: path) vertex = view path next := by
      intro path
      rw [view_cons, hfind, Option.bind_some]
    obtain ⟨stack, hfollows, rfl⟩ := ih hlast fun path' hne hpre old hold =>
      hmarks (term :: path') (cons_ne_nil _ _) (cons_prefix_cons.mpr ⟨rfl, hpre⟩) old
        ((hview path').trans hold)
    refine ⟨(term, next) :: stack, .cons (mem_of_find hfind) ?_ hfollows, rfl⟩
    exact hmarks [term] (cons_ne_nil _ _) (by simp) _ (hview [])

theorem view_of_vertexAt (hat : vertexAt core root = some last) :
    view path last = view (core ++ path) root := by
  unfold view
  rw [vertexAt_append, hat, Option.bind_some]

theorem mem_unmarkedPaths (hdist : KeysDistinct vertex) : path ∈ vertex.unmarkedPaths ↔
    (view path vertex).isSome ∧ ∀ path' ≠ [], path' <+: path → ∀ old, view path' vertex = some old →
      old.2 = false := by
  constructor
  · rintro ⟨stack, last, hfollows, rfl⟩
    obtain ⟨hat, hmarks⟩ := hfollows.vertexAt hdist
    refine ⟨?_, hmarks⟩
    unfold view
    rw [hat]
    rfl
  · rintro ⟨hsome, hmarks⟩
    unfold view at hsome
    rw [Option.isSome_map] at hsome
    obtain ⟨last, hlast⟩ := Option.isSome_iff_exists.mp hsome
    obtain ⟨stack, hfollows, hstack⟩ := exists_follows hlast hmarks
    exact ⟨stack, last, hfollows, hstack⟩

/-- The patterns have the same variable length prefixes. -/
def SharesPrefixes (patterns : Set (List Term)) (pattern pattern' : List Term) : Prop :=
  ∀ path ≠ [], InVariableLengthPrefix patterns path → (path <+: pattern ↔ path <+: pattern')

theorem InVariableLengthPrefix.mono (h : InVariableLengthPrefix patterns path)
    (hpre : path' <+: path) : InVariableLengthPrefix patterns path' := by
  obtain ⟨pattern, hmem, hle, hvar⟩ := h
  refine ⟨pattern, hmem, hpre.trans hle, ?_⟩
  have hlen := hpre.length_le
  have hdrop : pattern.drop (path.length - 1) =
      (pattern.drop (path'.length - 1)).drop (path.length - 1 - (path'.length - 1)) := by
    rw [drop_drop]
    congr 1
    omega
  rw [hdrop] at hvar
  rw [← take_append_drop (path.length - 1 - (path'.length - 1))
    (pattern.drop (path'.length - 1)), allHaveFixedLength_append, hvar, Bool.and_false]

theorem sharesPrefixes_of_fixedLength
    (h : ∀ pattern ∈ patterns, allHaveFixedLength pattern = true) :
    SharesPrefixes patterns pattern pattern' := by
  rintro path - ⟨pattern'', hmem, -, hvar⟩
  have hall := h pattern'' hmem
  rw [← take_append_drop (path.length - 1) pattern'', allHaveFixedLength_append, hvar,
    Bool.and_false] at hall
  cases hall

/-- The longest variable length prefix of a pattern. -/
structure IsCore (patterns : Set (List Term)) (core pattern : List Term) : Prop where
  isPrefix : core <+: pattern
  marked : core ≠ [] → InVariableLengthPrefix patterns core
  longest : ∀ path ≠ [], InVariableLengthPrefix patterns path → path <+: pattern → path <+: core

theorem exists_isCore (patterns : Set (List Term)) (pattern : List Term) :
    ∃ core, IsCore patterns core pattern := by
  induction pattern using reverseRecOn with
  | nil => exact ⟨[], prefix_rfl, fun hne => absurd rfl hne, fun _ _ _ hpre => hpre⟩
  | append_singleton pattern term ih =>
    by_cases hmarked : InVariableLengthPrefix patterns (pattern ++ [term])
    · exact ⟨_, prefix_rfl, fun _ => hmarked, fun _ _ _ hpre => hpre⟩
    · obtain ⟨core, hcore⟩ := ih
      refine ⟨core, hcore.isPrefix.trans (prefix_append _ _), hcore.marked, ?_⟩
      intro path hne hpath hpre
      rcases prefix_concat_iff.mp hpre with rfl | hpre
      · exact absurd hpath hmarked
      · exact hcore.longest path hne hpath hpre

theorem IsCore.of_sharesPrefixes (h : IsCore patterns core pattern)
    (hshares : SharesPrefixes patterns pattern pattern') : IsCore patterns core pattern' where
  isPrefix := by
    by_cases hnil : core = []
    · rw [hnil]
      exact nil_prefix
    · exact (hshares core hnil (h.marked hnil)).mp h.isPrefix
  marked := h.marked
  longest path hne hpath hpre := h.longest path hne hpath ((hshares path hne hpath).mpr hpre)

theorem IsCore.sharesPrefixes (h : IsCore patterns core pattern)
    (h' : IsCore patterns core pattern') : SharesPrefixes patterns pattern pattern' :=
  fun path hne hpath =>
    ⟨fun hpre => (h.longest path hne hpath hpre).trans h'.isPrefix,
      fun hpre => (h'.longest path hne hpath hpre).trans h.isPrefix⟩

namespace Represents

variable (h : Represents root patterns actionIds)

include h

section

variable (hat : vertexAt core root = some last)
include hat

theorem keysDistinct_at : KeysDistinct last := by
  intro path next hnext
  refine h.keysDistinct (core ++ path) next ?_
  rw [vertexAt_append, hat, Option.bind_some, hnext]

theorem mem_unmarkedPaths_iff : path ∈ last.unmarkedPaths ↔
      (core ++ path = [] ∨ ∃ pattern ∈ patterns, core ++ path <+: pattern) ∧
      ∀ path' ≠ [], path' <+: path → ¬InVariableLengthPrefix patterns (core ++ path') := by
  rw [mem_unmarkedPaths (h.keysDistinct_at hat)]
  simp only [view_of_vertexAt hat, h.isSome]
  refine and_congr_right fun hsome => forall_congr' fun path' => forall_congr' fun hne =>
    forall_congr' fun hpre => ?_
  have hview : (view (core ++ path') root).isSome := by
    rw [h.isSome]
    rcases hsome with hnil | ⟨pattern, hmem, hle⟩
    · obtain ⟨rfl, rfl⟩ := append_eq_nil_iff.mp hnil
      exact absurd (prefix_nil.mp hpre) hne
    · exact .inr ⟨pattern, hmem, ((prefix_append_right_inj core).mpr hpre).trans hle⟩
  obtain ⟨old, hold⟩ := Option.isSome_iff_exists.mp hview
  rw [← h.marked _ _ hold]
  constructor
  · intro hall hmarked
    rw [hall old hold] at hmarked
    cases hmarked
  · intro hnot old' hold'
    rw [hold] at hold'
    obtain rfl := Option.some.inj hold'
    simpa using hnot

/-- The pattern of a core lies behind it along vertices that are not marked. -/
theorem exists_unmarkedPath (hmem : pattern ∈ patterns) (hcore : IsCore patterns core pattern) :
    ∃ path ∈ last.unmarkedPaths, core ++ path = pattern := by
  obtain ⟨path, rfl⟩ := hcore.isPrefix
  refine ⟨path, (h.mem_unmarkedPaths_iff hat).mpr
    ⟨.inr ⟨_, hmem, prefix_rfl⟩, fun path' hne hpre hmarked => ?_⟩, rfl⟩
  have hle := hcore.longest (core ++ path') (by simp [hne]) hmarked
    ((prefix_append_right_inj core).mpr hpre)
  have hlen := hle.length_le
  rw [length_append] at hlen
  exact hne (eq_nil_of_length_eq_zero (by omega))

theorem isCore_of_unmarkedPath (hmarked : core ≠ [] → InVariableLengthPrefix patterns core)
    (hpath : path ∈ last.unmarkedPaths) (hne : path ≠ []) :
    ∃ pattern ∈ patterns, core ++ path <+: pattern ∧ IsCore patterns core pattern := by
  obtain ⟨hsome, hunmarked⟩ := (h.mem_unmarkedPaths_iff hat).mp hpath
  obtain ⟨pattern, hmem, hle⟩ := hsome.resolve_left (by simp [hne])
  have hcore : core <+: pattern := (prefix_append core path).trans hle
  refine ⟨pattern, hmem, hle, hcore, hmarked, fun path' hne' hmarked' hpre' => ?_⟩
  rcases prefix_or_prefix_of_prefix hpre' hcore with hshort | ⟨rest, rfl⟩
  · exact hshort
  cases rest with
  | nil => rw [append_nil]
  | cons term rest =>
    -- a longer marked prefix begins with the path, the first vertex of which is not marked
    refine absurd ?_ (hunmarked [term] (cons_ne_nil _ _) ?_)
    · refine hmarked'.mono ((prefix_append_right_inj core).mpr ?_)
      exact cons_prefix_cons.mpr ⟨rfl, nil_prefix⟩
    · obtain ⟨after, rfl⟩ := hcore
      have hrest := (prefix_append_right_inj core).mp hpre'
      have hpath' := (prefix_append_right_inj core).mp hle
      have hterm : [term] <+: after :=
        List.IsPrefix.trans (cons_prefix_cons.mpr ⟨rfl, nil_prefix⟩) hrest
      refine prefix_of_prefix_length_le hterm hpath' ?_
      exact length_pos_iff.mpr hne

theorem isCore_of_needToGenerate (hmarked : core ≠ [] → InVariableLengthPrefix patterns core)
    (hneed : last.needToGenerate = true) : ∃ pattern ∈ patterns, IsCore patterns core pattern := by
  have hview : view core root = some (last.finalActions, last.inVariableLengthPrefix) := by
    unfold view
    rw [hat, Option.map_some]
  unfold needToGenerate at hneed
  rw [Bool.or_eq_true, Bool.and_eq_true, any_eq_true] at hneed
  rcases hneed with ⟨-, hfinal⟩ | ⟨edge, hedge, hunmarked⟩
  · refine ⟨core, (h.isFinal core _ hview).mp ?_, prefix_rfl, hmarked, fun _ _ _ hle => hle⟩
    simpa using hfinal
  · have hpath : [edge.1] ∈ last.unmarkedPaths := by
      refine ⟨[edge], edge.2, .cons hedge ?_ .nil, rfl⟩
      simpa using hunmarked
    obtain ⟨pattern, hmem, -, hcore⟩ := h.isCore_of_unmarkedPath hat hmarked hpath (cons_ne_nil _ _)
    exact ⟨pattern, hmem, hcore⟩

/-- Behind a core that needs no graph of its own, there is only the core. -/
theorem eq_core_of_not_needToGenerate
    (hneed : last.needToGenerate = false) (hmem : pattern ∈ patterns)
    (hcore : IsCore patterns core pattern) : pattern = core := by
  obtain ⟨path, ⟨stack, last', hfollows, rfl⟩, rfl⟩ := h.exists_unmarkedPath hat hmem hcore
  cases hfollows with
  | nil => rw [map_nil, append_nil]
  | cons hedge hunmarked _ =>
    unfold needToGenerate at hneed
    rw [Bool.or_eq_false_iff, any_eq_false] at hneed
    exact absurd hunmarked (by simpa using hneed.2 _ hedge)

end

theorem exists_vertexAt (hmem : pattern ∈ patterns) (hpre : path <+: pattern) :
    ∃ last, vertexAt path root = some last := by
  have hsome := (h.isSome path).mpr (.inr ⟨pattern, hmem, hpre⟩)
  unfold view at hsome
  rw [Option.isSome_map] at hsome
  exact Option.isSome_iff_exists.mp hsome

theorem exists_follows_core (hat : vertexAt core root = some last)
    (hmarked : core ≠ [] → InVariableLengthPrefix patterns core) :
    ∃ stack, Follows true root stack last ∧ stack.map fst = core := by
  refine exists_follows hat fun path hne hpre old hold => (h.marked path old hold).mpr ?_
  refine (hmarked ?_).mono hpre
  rintro rfl
  exact hne (prefix_nil.mp hpre)

theorem exists_needToGenerate (hfinite : patterns.Finite) (hmem : pattern ∈ patterns)
    (hcore : IsCore patterns core pattern) :
    ∃ core' last, core <+: core' ∧ vertexAt core' root = some last ∧
      (core' ≠ [] → InVariableLengthPrefix patterns core') ∧ last.needToGenerate = true := by
  obtain ⟨longest, ⟨hlongest, hbehind⟩, hmax⟩ := Set.exists_max_image
    {pattern ∈ patterns | core <+: pattern} length (hfinite.subset (Set.sep_subset _ _))
    ⟨pattern, hmem, hcore.isPrefix⟩
  obtain ⟨core', hcore'⟩ := exists_isCore patterns longest
  obtain ⟨last, hat⟩ := h.exists_vertexAt hlongest hcore'.isPrefix
  have hle : core <+: core' := by
    by_cases hnil : core = []
    · rw [hnil]
      exact nil_prefix
    · exact hcore'.longest core hnil (hcore.marked hnil) hbehind
  refine ⟨core', last, hle, hat, hcore'.marked, ?_⟩
  by_contra hneed
  rw [Bool.not_eq_true] at hneed
  obtain rfl := h.eq_core_of_not_needToGenerate hat hneed hlongest hcore'
  have hview : view longest root = some (last.finalActions, last.inVariableLengthPrefix) := by
    unfold view
    rw [hat, Option.map_some]
  have hfinal := (h.isFinal longest _ hview).mpr hlongest
  unfold needToGenerate at hneed
  -- an edge behind the longest pattern begins a longer one
  have hedges : last.edges ≠ [] := by
    intro hnil
    rw [hnil] at hneed
    simp [hfinal] at hneed
  obtain ⟨edge, hedge⟩ := exists_mem_of_ne_nil _ hedges
  have hat' : vertexAt (longest ++ [edge.1]) root = some edge.2 := by
    have hnodup := h.keysDistinct _ _ hat
    rw [vertexAt_append, hat, Option.bind_some, vertexAt_cons, find_of_mem hnodup hedge]
    rfl
  have hsome : (view (longest ++ [edge.1]) root).isSome := by
    unfold view
    rw [hat']
    rfl
  obtain ⟨longer, hlonger, hpre⟩ := ((h.isSome _).mp hsome).resolve_left (by simp)
  have hlen := hpre.length_le
  have hbound := hmax longer ⟨hlonger, hbehind.trans ((prefix_append _ _).trans hpre)⟩
  rw [length_append, length_singleton] at hlen
  omega

end Represents

/-- The patterns of a graph are prefixes of the patterns of a group, which they have. -/
theorem exists_group_of_generated (h : Represents root patterns actionIds)
    (hfollows : Follows true root stack last) (hneed : last.needToGenerate = true) :
    ∃ pattern ∈ patterns, (∀ pattern' ∈ patterns, SharesPrefixes patterns pattern pattern' →
        pattern' ∈ patternsBehind (stack.map fst) last) ∧
      ∀ path ∈ patternsBehind (stack.map fst) last, ∃ pattern' ∈ patterns,
        SharesPrefixes patterns pattern pattern' ∧ path <+: pattern' := by
  obtain ⟨hat, hmarks⟩ := hfollows.vertexAt h.keysDistinct
  generalize stack.map fst = core at hat hmarks
  have hview : view core root = some (last.finalActions, last.inVariableLengthPrefix) := by
    unfold view
    rw [hat, Option.map_some]
  have hmarked : core ≠ [] → InVariableLengthPrefix patterns core := fun hne =>
    (h.marked core _ hview).mp (hmarks core hne prefix_rfl _ hview)
  obtain ⟨pattern, hmem, hcore⟩ := h.isCore_of_needToGenerate hat hmarked hneed
  refine ⟨pattern, hmem, fun pattern' hmem' hshares => ?_, ?_⟩
  · exact h.exists_unmarkedPath hat hmem' (hcore.of_sharesPrefixes hshares)
  · rintro _ ⟨path, hpath, rfl⟩
    by_cases hnil : path = []
    · subst hnil
      refine ⟨pattern, hmem, hcore.sharesPrefixes hcore, ?_⟩
      dsimp only
      rw [append_nil]
      exact hcore.isPrefix
    · obtain ⟨pattern', hmem', hle, hcore'⟩ := h.isCore_of_unmarkedPath hat hmarked hpath hnil
      exact ⟨pattern', hmem', hcore.sharesPrefixes hcore', hle⟩

theorem exists_generated_of_mem (h : Represents root patterns actionIds)
    (hfinite : patterns.Finite) (hmem : pattern ∈ patterns) :
    ∃ stack last, Follows true root stack last ∧ last.needToGenerate = true ∧
      ∀ pattern' ∈ patterns, SharesPrefixes patterns pattern pattern' →
        ∃ path ∈ patternsBehind (stack.map fst) last, pattern' <+: path := by
  obtain ⟨core, hcore⟩ := exists_isCore patterns pattern
  obtain ⟨vertex, hvertex⟩ := h.exists_vertexAt hmem hcore.isPrefix
  cases hneed : vertex.needToGenerate with
  | true =>
    obtain ⟨stack, hfollows, rfl⟩ := h.exists_follows_core hvertex hcore.marked
    refine ⟨stack, vertex, hfollows, hneed, fun pattern' hmem' hshares => ?_⟩
    exact ⟨pattern', h.exists_unmarkedPath hvertex hmem' (hcore.of_sharesPrefixes hshares),
      prefix_rfl⟩
  | false =>
    obtain ⟨core', last, hle, hat, hmarked, hneed'⟩ := h.exists_needToGenerate hfinite hmem hcore
    obtain ⟨stack, hfollows, rfl⟩ := h.exists_follows_core hat hmarked
    refine ⟨stack, last, hfollows, hneed', fun pattern' hmem' hshares => ?_⟩
    rw [h.eq_core_of_not_needToGenerate hvertex hneed hmem' (hcore.of_sharesPrefixes hshares)]
    exact ⟨_, ⟨[], nil_mem_unmarkedPaths, append_nil _⟩, hle⟩

end PrefixTreeVertex

end WebKit.ContentExtensions
