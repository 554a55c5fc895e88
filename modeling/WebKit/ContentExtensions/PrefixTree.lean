import WebKit.ContentExtensions.CombinedURLFilters

/-!
# The prefix tree as a set of patterns

A vertex is known by the path that leads to it. What `addPattern` does is one equation for
each path (`view_addPattern`), and a tree that is built by it represents the set of its
patterns: a path is in the tree when it begins a pattern, and its vertex is marked when a
pattern that it begins has a term of variable length at its last term or behind it.
-/

namespace WebKit.ContentExtensions

open List PrefixTreeVertex Option Prod

namespace Term

variable {terms terms' : List Term}

theorem allHaveFixedLength_append : allHaveFixedLength (terms ++ terms') =
    (allHaveFixedLength terms && allHaveFixedLength terms') := by
  induction terms with
  | nil => simp [allHaveFixedLength]
  | cons term terms ih => rw [cons_append, allHaveFixedLength, allHaveFixedLength, ih,
      Bool.and_assoc]

end Term

namespace PrefixTreeVertex

open Term

variable {term term' : Term} {vertex next root : PrefixTreeVertex}
  {edges : List (Term × PrefixTreeVertex)} {actionId : ℕ} {path pattern : List Term}

/-! ## Paths -/

/-- The vertex at the end of a path. -/
def vertexAt : List Term → PrefixTreeVertex → Option PrefixTreeVertex
  | [], vertex => some vertex
  | term :: path, vertex => (find term vertex.edges).bind (vertexAt path)

/-- The actions and the mark at the end of a path. -/
def view (path : List Term) (vertex : PrefixTreeVertex) : Option (List ℕ × Bool) :=
  (vertexAt path vertex).map fun vertex => (vertex.finalActions, vertex.inVariableLengthPrefix)

/-- What is at the end of a path, or will be. -/
def viewOrNew (path : List Term) (vertex : PrefixTreeVertex) : List ℕ × Bool :=
  (view path vertex).getD ([], false)

theorem vertexAt_cons : vertexAt (term :: path) vertex =
    (find term vertex.edges).bind (vertexAt path) := rfl

theorem vertexAt_append {path' : List Term} : vertexAt (path ++ path') vertex =
    (vertexAt path vertex).bind (vertexAt path') := by
  induction path generalizing vertex with
  | nil => rfl
  | cons term path ih =>
    rw [cons_append, vertexAt_cons, vertexAt_cons]
    cases find term vertex.edges with
    | none => rfl
    | some next => exact ih

theorem view_cons : view (term :: path) vertex = (find term vertex.edges).bind (view path) := by
  unfold view
  rw [vertexAt_cons]
  cases find term vertex.edges <;> rfl

theorem find_set_ne (h : term' ≠ term) : find term' (set term next edges) = find term' edges := by
  induction edges with
  | nil => simp [set, find, h.symm]
  | cons edge edges ih =>
    obtain ⟨key, old⟩ := edge
    by_cases hkey : key = term
    · subst hkey
      simp [set, find, h.symm]
    · by_cases hkey' : key = term'
      · subst hkey'
        simp [set, find, hkey]
      · simp [set, find, hkey, hkey', ih]

theorem view_set {finalActions : List ℕ} {marked : Bool} :
    view (term' :: path) (.mk (set term next edges) finalActions marked) =
      if term' = term then view path next
      else view (term' :: path) (.mk edges finalActions marked) := by
  rw [view_cons, view_cons]
  split
  · next heq => rw [heq, PrefixTreeVertex.edges, find_set, Option.bind_some]
  · next hne => rw [PrefixTreeVertex.edges, PrefixTreeVertex.edges, find_set_ne hne]

theorem view_create (hpath : path ≠ []) : view path create = none := by
  cases path with
  | nil => exact absurd rfl hpath
  | cons term path => rfl

theorem view_extend : view path (extend actionId pattern vertex).1 = if path <+: pattern then
      some (if path = pattern then addAction actionId (viewOrNew path vertex).1
        else (viewOrNew path vertex).1, (viewOrNew path vertex).2)
    else view path vertex := by
  induction pattern generalizing path vertex with
  | nil =>
    obtain ⟨edges, finalActions, marked⟩ := vertex
    cases path with
    | nil => simp [extend, view, viewOrNew, vertexAt, PrefixTreeVertex.finalActions,
        PrefixTreeVertex.inVariableLengthPrefix]
    | cons term path =>
      rfl
  | cons first pattern ih =>
    obtain ⟨edges, finalActions, marked⟩ := vertex
    have hnext : (extend actionId (first :: pattern) (.mk edges finalActions marked)).1 =
        .mk (set first (extend actionId pattern ((find first edges).getD create)).1 edges)
          finalActions marked := by
      rw [extend]
      cases find first edges <;> rfl
    rw [hnext]
    cases path with
    | nil => simp [view, viewOrNew, vertexAt, PrefixTreeVertex.finalActions,
        PrefixTreeVertex.inVariableLengthPrefix]
    | cons term path =>
      rw [view_set]
      by_cases hterm : term = first
      · subst hterm
        have hold : viewOrNew path ((find term edges).getD create) =
            viewOrNew (term :: path) (.mk edges finalActions marked) := by
          unfold viewOrNew
          rw [view_cons, PrefixTreeVertex.edges]
          cases find term edges with
          | some next => rfl
          | none =>
            cases path with
            | nil => rfl
            | cons => rfl
        rw [if_pos rfl, ih, hold]
        simp only [cons_prefix_cons, true_and, cons.injEq]
        split
        · rfl
        · next hpre =>
          rw [view_cons, PrefixTreeVertex.edges]
          cases find term edges with
          | some next => rfl
          | none =>
            refine view_create ?_
            rintro rfl
            exact hpre nil_prefix
      · rw [if_neg hterm, if_neg fun h => hterm (cons_prefix_cons.mp h).1]

theorem view_mark {marked : Bool} : view path (vertex.mark marked) =
    if path = [] then (view path vertex).map fun old => (old.1, old.2 || marked)
    else view path vertex := by
  obtain ⟨edges, finalActions, inVariableLengthPrefix⟩ := vertex
  cases path with
  | nil | cons => rfl

/-- The pass marks the vertices of the pattern, and says whether the root is to be marked. -/
theorem view_markVariableLengthPrefixes (h : (view pattern vertex).isSome) :
    (markVariableLengthPrefixes pattern vertex).2 = !allHaveFixedLength pattern ∧
    view path (markVariableLengthPrefixes pattern vertex).1 = if path ≠ [] ∧ path <+: pattern then
        (view path vertex).map fun old =>
          (old.1, old.2 || !allHaveFixedLength (pattern.drop (path.length - 1)))
      else view path vertex := by
  induction pattern generalizing path vertex with
  | nil =>
    refine ⟨by simp [markVariableLengthPrefixes, allHaveFixedLength], ?_⟩
    rw [if_neg fun h => h.1 (prefix_nil.mp h.2)]
    rfl
  | cons first pattern ih =>
    obtain ⟨edges, finalActions, marked⟩ := vertex
    rw [view_cons, PrefixTreeVertex.edges] at h
    cases hfind : find first edges with
    | none =>
      rw [hfind] at h
      cases h
    | some next =>
      rw [hfind, bind_some] at h
      have hseen := (@ih next [] h).1
      have hpass : markVariableLengthPrefixes (first :: pattern) (.mk edges finalActions marked) =
          (.mk (set first ((markVariableLengthPrefixes pattern next).1.mark
            (!allHaveFixedLength (first :: pattern))) edges) finalActions marked,
            !allHaveFixedLength (first :: pattern)) := by
        have hbool : (!allHaveFixedLength pattern || !first.hasFixedLength) =
            !allHaveFixedLength (first :: pattern) := by
          rw [allHaveFixedLength, Bool.not_and, Bool.or_comm]
        rw [← hbool, ← hseen]
        conv_lhs => unfold markVariableLengthPrefixes
        rw [hfind]
      rw [hpass]
      refine ⟨rfl, ?_⟩
      cases path with
      | nil => rfl
      | cons term path =>
        rw [view_set]
        by_cases hterm : term = first
        · subst hterm
          have hview : view (term :: path) (.mk edges finalActions marked) = view path next := by
            rw [view_cons, PrefixTreeVertex.edges, hfind, Option.bind_some]
          rw [if_pos rfl, view_mark, (@ih next path h).2, hview]
          cases path with
          | nil => simp
          | cons => simp [cons_prefix_cons]
        · rw [if_neg hterm, if_neg fun h => hterm (cons_prefix_cons.mp h.2).1]

theorem hasNewTerm_eq : (extend actionId pattern vertex).2 = (view pattern vertex).isNone := by
  induction pattern generalizing vertex with
  | nil =>
    obtain ⟨edges, finalActions, marked⟩ := vertex
    rfl
  | cons first pattern ih =>
    obtain ⟨edges, finalActions, marked⟩ := vertex
    rw [view_cons, PrefixTreeVertex.edges]
    conv_lhs => unfold extend
    cases hfind : find first edges with
    | none => rfl
    | some next => exact ih

/-- The vertices of the pattern get its action, and a mark if they are new to the tree. -/
theorem view_addPattern (hpat : pattern ≠ []) : view path (addPattern actionId pattern root) =
      if path <+: pattern then
        some (if path = pattern then addAction actionId (viewOrNew path root).1
          else (viewOrNew path root).1, (viewOrNew path root).2 || ((view pattern root).isNone &&
            !allHaveFixedLength (pattern.drop (path.length - 1))))
      else view path root := by
  unfold addPattern
  rw [if_neg (by simpa using hpat)]
  dsimp only
  rw [hasNewTerm_eq]
  cases hnew : (view pattern root).isNone with
  | false =>
    rw [Bool.not_false, if_pos rfl, view_extend]
    simp
  | true =>
    have hsome : (view pattern (extend actionId pattern root).1).isSome := by
      rw [view_extend, if_pos prefix_rfl]
      rfl
    have hmarked := fun path => (@view_markVariableLengthPrefixes _ path pattern hsome).2
    rw [Bool.not_true, if_neg Bool.false_ne_true, view_mark, hmarked,
      (@view_markVariableLengthPrefixes _ [] pattern hsome).1, view_extend]
    cases path with
    | nil => simp
    | cons term path =>
      rw [if_neg (cons_ne_nil _ _)]
      by_cases hpre : term :: path <+: pattern
      · rw [if_pos ⟨cons_ne_nil _ _, hpre⟩, if_pos hpre, if_pos hpre, map_some, Bool.true_and]
      · rw [if_neg fun h => hpre h.2, if_neg hpre, if_neg hpre]

/-! ## Distinct keys -/

/-- The edges of every vertex have distinct terms. -/
def KeysDistinct (vertex : PrefixTreeVertex) : Prop :=
  ∀ path next, vertexAt path vertex = some next → (next.edges.map fst).Nodup

section KeysDistinct

variable {finalActions finalActions' : List ℕ} {marked marked' : Bool}

theorem keysDistinct_mk : KeysDistinct (.mk edges finalActions marked) ↔
    (edges.map fst).Nodup ∧ ∀ term next, find term edges = some next → KeysDistinct next := by
  constructor
  · refine fun h => ⟨h [] _ rfl, fun term next hfind path last hlast => h (term :: path) last ?_⟩
    rw [vertexAt_cons, PrefixTreeVertex.edges, hfind, Option.bind_some, hlast]
  · rintro ⟨hnodup, hnext⟩ path last hlast
    cases path with
    | nil =>
      obtain rfl : _ = last := some.inj hlast
      exact hnodup
    | cons term path =>
      obtain ⟨next, hfind, hlast⟩ := bind_eq_some_iff.mp hlast
      exact hnext term next hfind path last hlast

theorem mem_of_find (h : find term edges = some next) : (term, next) ∈ edges := by
  induction edges with
  | nil => cases h
  | cons edge edges ih =>
    obtain ⟨key, old⟩ := edge
    unfold find at h
    split at h
    · next heq =>
      cases h
      rw [heq]
      exact mem_cons_self
    · exact mem_cons_of_mem _ (ih h)

theorem find_of_mem (hnodup : (edges.map fst).Nodup) (h : (term, next) ∈ edges) :
    find term edges = some next := by
  induction edges with
  | nil => exact absurd h not_mem_nil
  | cons edge edges ih =>
    rw [map_cons, nodup_cons] at hnodup
    unfold find
    rcases mem_cons.mp h with heq | hmem
    · cases heq
      rw [if_pos rfl]
    · rw [if_neg, ih hnodup.2 hmem]
      rintro rfl
      exact hnodup.1 (mem_map.mpr ⟨_, hmem, rfl⟩)

theorem mem_keys_set : term' ∈ (set term next edges).map fst ↔
    term' = term ∨ term' ∈ edges.map fst := by
  induction edges with
  | nil => simp [set]
  | cons edge edges ih =>
    unfold set
    split
    · next heq => simp [heq]
    · rw [map_cons, mem_cons, ih, map_cons, mem_cons]
      tauto

theorem nodup_keys_set (h : (edges.map fst).Nodup) : ((set term next edges).map fst).Nodup := by
  induction edges with
  | nil => simp [set]
  | cons edge edges ih =>
    rw [map_cons, nodup_cons] at h
    unfold set
    split
    · rw [map_cons, nodup_cons]
      exact h
    · next hne =>
      rw [map_cons, nodup_cons, mem_keys_set]
      exact ⟨not_or.mpr ⟨hne, h.1⟩, ih h.2⟩

theorem KeysDistinct.set (h : KeysDistinct (.mk edges finalActions marked))
    (hnext : KeysDistinct next) :
    KeysDistinct (.mk (set term next edges) finalActions' marked') := by
  obtain ⟨hnodup, hedges⟩ := keysDistinct_mk.mp h
  refine keysDistinct_mk.mpr ⟨nodup_keys_set hnodup, fun term' next' hfind => ?_⟩
  by_cases hterm : term' = term
  · rw [hterm, find_set] at hfind
    cases hfind
    exact hnext
  · rw [find_set_ne hterm] at hfind
    exact hedges term' next' hfind

theorem keysDistinct_create : KeysDistinct create := keysDistinct_mk.mpr ⟨nodup_nil, nofun⟩

theorem KeysDistinct.mark (h : KeysDistinct vertex) : KeysDistinct (vertex.mark marked) := by
  cases vertex
  exact keysDistinct_mk.mpr (keysDistinct_mk.mp h)

theorem KeysDistinct.extend (h : KeysDistinct vertex) :
    KeysDistinct (extend actionId pattern vertex).1 := by
  induction pattern generalizing vertex with
  | nil =>
    cases vertex
    exact keysDistinct_mk.mpr (keysDistinct_mk.mp h)
  | cons term pattern ih =>
    obtain ⟨edges, finalActions, marked⟩ := vertex
    rw [extend]
    split
    · next next hfind => exact h.set (ih ((keysDistinct_mk.mp h).2 term next hfind))
    · exact h.set (ih keysDistinct_create)

theorem KeysDistinct.markVariableLengthPrefixes (h : KeysDistinct vertex) :
    KeysDistinct (markVariableLengthPrefixes pattern vertex).1 := by
  induction pattern generalizing vertex with
  | nil => exact h
  | cons term pattern ih =>
    obtain ⟨edges, finalActions, marked⟩ := vertex
    rw [markVariableLengthPrefixes]
    split
    · next next hfind => exact h.set (ih ((keysDistinct_mk.mp h).2 term next hfind)).mark
    · exact h

theorem KeysDistinct.addPattern (h : KeysDistinct root) :
    KeysDistinct (addPattern actionId pattern root) := by
  unfold PrefixTreeVertex.addPattern
  dsimp only
  split
  · exact h
  · split
    · exact h.extend
    · exact h.extend.markVariableLengthPrefixes.mark

end KeysDistinct

/-- A pattern that begins with the path has a term of variable length, the last one of the
path or one behind it. -/
def InVariableLengthPrefix (patterns : Set (List Term)) (path : List Term) : Prop :=
  ∃ pattern ∈ patterns, path <+: pattern ∧
    allHaveFixedLength (pattern.drop (path.length - 1)) = false

theorem inVariableLengthPrefix_insert {patterns : Set (List Term)} :
    InVariableLengthPrefix (insert pattern patterns) path ↔ InVariableLengthPrefix patterns path ∨
        path <+: pattern ∧ allHaveFixedLength (pattern.drop (path.length - 1)) = false := by
  simp only [InVariableLengthPrefix, Set.mem_insert_iff, or_and_right, exists_or, exists_eq_left]
  exact or_comm

theorem InVariableLengthPrefix.of_isPrefix {patterns : Set (List Term)} {pattern' : List Term}
    (h : allHaveFixedLength (pattern.drop (path.length - 1)) = false) (hpath : path <+: pattern)
    (hle : pattern <+: pattern') (hmem : pattern' ∈ patterns) :
    InVariableLengthPrefix patterns path := by
  refine ⟨pattern', hmem, hpath.trans hle, ?_⟩
  obtain ⟨rest, rfl⟩ := hle
  have hlen := hpath.length_le
  rw [drop_append_of_le_length (by omega), allHaveFixedLength_append, h, Bool.false_and]

theorem mem_addAction_iff {actions : List ℕ} {a : ℕ} :
    a ∈ addAction actionId actions ↔ a = actionId ∨ a ∈ actions := by
  unfold addAction
  split
  · next hmem =>
    refine (or_iff_right_of_imp ?_).symm
    rintro rfl
    exact hmem
  · rw [mem_append, mem_singleton, or_comm]

/-- The tree has these patterns and actions. -/
structure Represents (root : PrefixTreeVertex) (patterns : Set (List Term)) (actionIds : Set ℕ) :
    Prop where
  keysDistinct : root.KeysDistinct
  isSome : ∀ path, (view path root).isSome ↔ path = [] ∨ ∃ pattern ∈ patterns, path <+: pattern
  isFinal : ∀ path old, view path root = some old → (old.1 ≠ [] ↔ path ∈ patterns)
  actions : ∀ path old, view path root = some old → ∀ actionId ∈ old.1, actionId ∈ actionIds
  marked : ∀ path old, view path root = some old →
    (old.2 = true ↔ InVariableLengthPrefix patterns path)

namespace Represents

variable {patterns : Set (List Term)} {actionIds : Set ℕ}

theorem create : Represents create ∅ ∅ := by
  have hview : ∀ path old, view path PrefixTreeVertex.create = some old → old = ([], false) := by
    intro path old hold
    cases path with
    | nil => exact (Option.some.inj hold).symm
    | cons => cases hold
  refine ⟨keysDistinct_create, fun path => ?_, fun path old hold => ?_, fun path old hold => ?_,
    fun path old hold => ?_⟩
  · cases path with
    | nil => simp [view, vertexAt]
    | cons term path => simp [view_create]
  · simp [hview path old hold]
  · simp [hview path old hold]
  · simp [hview path old hold, InVariableLengthPrefix]

variable (h : Represents root patterns actionIds)

include h

theorem viewOrNew_spec (path : List Term) : ((viewOrNew path root).1 ≠ [] ↔ path ∈ patterns) ∧
    (∀ actionId ∈ (viewOrNew path root).1, actionId ∈ actionIds) ∧
    ((viewOrNew path root).2 = true ↔ InVariableLengthPrefix patterns path) := by
  unfold viewOrNew
  cases hview : view path root with
  | some old => exact ⟨h.isFinal path old hview, h.actions path old hview, h.marked path old hview⟩
  | none =>
    have hnone := (h.isSome path).not.mp (by rw [hview]; exact Bool.false_ne_true)
    have hpre : ∀ pattern ∈ patterns, ¬path <+: pattern := fun pattern hpat hpre =>
      hnone (.inr ⟨pattern, hpat, hpre⟩)
    refine ⟨iff_of_false (fun hne => hne rfl) fun hmem => hpre path hmem prefix_rfl,
      fun actionId hmem => absurd hmem not_mem_nil, iff_of_false Bool.false_ne_true ?_⟩
    rintro ⟨pattern, hpat, hle, -⟩
    exact hpre pattern hpat hle

theorem addPattern (hpat : pattern ≠ []) :
    Represents (addPattern actionId pattern root) (insert pattern patterns)
      (insert actionId actionIds) := by
  -- the path of a pattern that is not new begins one that the tree has
  have hnew : (view pattern root).isNone = false → ∃ pattern' ∈ patterns, pattern <+: pattern' := by
    intro hnew
    rw [← not_isSome, Bool.not_eq_false'] at hnew
    exact ((h.isSome pattern).mp hnew).resolve_left hpat
  refine ⟨h.keysDistinct.addPattern, fun path => ?_, fun path old hold => ?_,
    fun path old hold => ?_, fun path old hold => ?_⟩
  · rw [view_addPattern hpat]
    simp only [Set.mem_insert_iff, exists_eq_or_imp]
    split
    · next hpre => simp [hpre]
    · next hpre => rw [h.isSome, or_iff_right hpre]
  all_goals
    obtain ⟨hfinal, hacts, hmarked⟩ := h.viewOrNew_spec path
    rw [view_addPattern hpat] at hold
    split at hold
  · next hpre =>
    obtain rfl := some.inj hold
    dsimp only
    split
    · next heq =>
      refine iff_of_true (fun hnil => ?_) (.inl heq)
      exact absurd (hnil ▸ mem_addAction) not_mem_nil
    · next hne => rw [hfinal, Set.mem_insert_iff, or_iff_right hne]
  · next hpre =>
    rw [h.isFinal path old hold, Set.mem_insert_iff, or_iff_right]
    rintro rfl
    exact hpre prefix_rfl
  · obtain rfl := some.inj hold
    split
    · intro a ha
      exact (mem_addAction_iff.mp ha).imp id (hacts a)
    · exact fun a ha => .inr (hacts a ha)
  · exact fun a ha => .inr (h.actions path old hold a ha)
  · next hpre =>
    obtain rfl := some.inj hold
    rw [Bool.or_eq_true, hmarked, Bool.and_eq_true, Bool.not_eq_true',
      inVariableLengthPrefix_insert]
    refine or_congr_right' fun hnot => ?_
    constructor
    · exact fun h => ⟨hpre, h.2⟩
    · rintro ⟨-, hvar⟩
      refine ⟨?_, hvar⟩
      by_contra hsome
      obtain ⟨pattern', hmem, hle⟩ := hnew (Bool.not_eq_true _ ▸ hsome)
      exact hnot (.of_isPrefix hvar hpre hle hmem)
  · next hpre =>
    rw [h.marked path old hold, inVariableLengthPrefix_insert, or_iff_left fun h => hpre h.1]

end Represents

end PrefixTreeVertex

end WebKit.ContentExtensions
