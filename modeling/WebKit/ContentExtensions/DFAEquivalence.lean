import Mathlib.Data.List.GetD
import WebKit.ContentExtensions.FullGraphRefinement

/-!
# The tables hold the transitions of the graph

`Edges.ofItems` are the transitions of a list in the order in which
`FlattenedTransitions.create` puts them, and `represents_ofItems` says that its table holds
them.
-/

open List

namespace WebKit.ContentExtensions

open Refinement Partition Buckets FlattenedTransitions

variable {ε δ : Type*} {n : ℕ} {R : ℕ → ℕ → Prop} {items : List ε}
  {source target character : ε → ℕ}

/-- A list of the transitions of a graph of `n` nodes, whose relation `R` is kept by them. -/
structure Transitions (n : ℕ) (R : ℕ → ℕ → Prop) (items : List ε)
    (source target character : ε → ℕ) : Prop where
  nodup : items.Nodup
  source_lt : ∀ x ∈ items, source x < n
  target_lt : ∀ x ∈ items, target x < n
  unique : ∀ x ∈ items, ∀ y ∈ items, source x = source y → character x = character y → x = y
  alike : ∀ x ∈ items, ∀ q < n, R (source x) q →
    ∃ y ∈ items, source y = q ∧ character y = character x ∧ R (target x) (target y)

namespace Edges

/-- The transition with an index in the table. -/
def item (n : ℕ) (target : ε → ℕ) (items : List ε) (unset : ε) (e : ℕ) : ε :=
  (bucketed target items n).getD e unset

theorem getElem?_item (target : ε → ℕ) (items : List ε) (unset : ε) {e : ℕ}
    (he : e < (bucketed target items n).length) :
    (bucketed target items n)[e]? = some (item n target items unset e) := by
  rw [item, getD_eq_getElem _ _ he, getElem?_eq_getElem he]

theorem item_mem (target : ε → ℕ) (items : List ε) (unset : ε) {e : ℕ}
    (he : e < (bucketed target items n).length) :
    item n target items unset e ∈ items :=
  (mem_bucketed.mp (mem_of_getElem? (getElem?_item target items unset he))).1

theorem exists_item (h : Transitions n R items source target character) (unset : ε) {x : ε}
    (hx : x ∈ items) :
    ∃ e < (bucketed target items n).length, item n target items unset e = x := by
  have hmem := mem_bucketed.mpr ⟨hx, h.target_lt x hx⟩
  obtain ⟨e, he, heq⟩ := mem_iff_getElem.mp hmem
  exact ⟨e, he, by rw [item, getD_eq_getElem _ _ he, heq]⟩

theorem item_inj (h : Transitions n R items source target character) (unset : ε) {e e' : ℕ}
    (he : e < (bucketed target items n).length)
    (he' : e' < (bucketed target items n).length)
    (heq : item n target items unset e = item n target items unset e') : e = e' := by
  rw [item, item, getD_eq_getElem _ _ he, getD_eq_getElem _ _ he'] at heq
  exact (List.Nodup.getElem_inj_iff (nodup_bucketed h.nodup n)).mp heq

/-- The range of a node in the table. -/
def itemsInto (target : ε → ℕ) (items : List ε) (x : ℕ) : List ℕ :=
  (List.range (bucket target items x).length).map
    ((bucketed target items x).length + ·)

theorem mem_itemsInto (target : ε → ℕ) (items : List ε) (unset : ε) {x : ℕ} (hx : x < n) (e : ℕ) :
    e ∈ itemsInto target items x ↔ e < (Buckets.bucketed target items n).length ∧
      target (item n target items unset e) = x := by
  have hmono := Buckets.length_bucketed_add_le target items hx
  have hrange : e ∈ itemsInto target items x ↔ (Buckets.bucketed target items x).length ≤ e ∧
      e < (Buckets.bucketed target items x).length + (Buckets.bucket target items x).length := by
    simp only [itemsInto, mem_map, mem_range]
    constructor
    · rintro ⟨j, hj, rfl⟩
      omega
    · rintro ⟨hle, hlt⟩
      exact ⟨e - (Buckets.bucketed target items x).length, by omega, by omega⟩
  rw [hrange]
  constructor
  · intro he
    have helt : e < (Buckets.bucketed target items n).length := by omega
    exact ⟨helt, (Buckets.key_eq_iff hx (getElem?_item target items unset helt)).mpr he⟩
  · rintro ⟨helt, heq⟩
    exact (Buckets.key_eq_iff hx (getElem?_item target items unset helt)).mp heq

def ofItems (h : Transitions n R items source target character) (unset : ε) : Edges n R where
  size := (bucketed target items n).length
  source e := source (item n target items unset e)
  target e := target (item n target items unset e)
  character e := character (item n target items unset e)
  incoming := itemsInto target items
  source_lt e he := h.source_lt _ (item_mem target items unset he)
  target_lt e he := h.target_lt _ (item_mem target items unset he)
  source_inj e he e' he' hsource hcharacter :=
    item_inj h unset he he' (h.unique _ (item_mem target items unset he) _
      (item_mem target items unset he') hsource hcharacter)
  nodup_incoming x _ := nodup_range.map fun _ _ heq => Nat.add_left_cancel heq
  mem_incoming x hx e := mem_itemsInto target items unset hx e
  lifts := by
    constructor
    · rintro e he e' he' ⟨hR, hcharacter⟩
      have hmem := item_mem target items unset he
      have hmem' := item_mem target items unset he'
      obtain ⟨y, hy, hsource, hcharacterY, hRy⟩ := h.alike _ hmem _ (h.source_lt _ hmem') hR
      rwa [h.unique y hy _ hmem' hsource (hcharacterY.trans hcharacter)] at hRy
    · intro e he q hq hR
      obtain ⟨y, hy, hsource, hcharacter, _⟩ :=
        h.alike _ (item_mem target items unset he) q hq hR
      obtain ⟨e', he', heq⟩ := exists_item h unset hy
      refine ⟨e', he', by rw [heq, hsource], ?_, ?_⟩
      · rw [heq, hsource]
        exact hR
      · rw [heq, hcharacter]

theorem transition_create (htarget : ∀ x ∈ items, target x < n) (unset : ε) (value : ε → δ)
    (unsetValue : δ) {e : ℕ} (he : e < (bucketed target items n).length) :
    (create n target value unsetValue items).transition e =
      value (item n target items unset e) := by
  obtain ⟨hoffset, _⟩ := accumulate_spec target items n
  refine place_table htarget (fun k hk => ?_) (fun _ => unsetValue)
    (getElem?_item target items unset he)
  rw [hoffset k, if_pos hk]

theorem represents_ofItems (h : Transitions n R items source target character) (unset : ε)
    (value : ε → δ) (unsetValue : δ) (valueSource : δ → ℕ)
    (hvalue : ∀ x, valueSource (value x) = source x) :
    (ofItems h unset).Represents (create n target value unsetValue items) valueSource := by
  obtain ⟨hoffset, htotal⟩ := accumulate_spec target items n
  have hoffset' : ∀ k < n, (accumulate n (counts target items)).1 k =
      (bucketed target items k).length := by
    intro k hk
    rw [hoffset k, if_pos hk]
  obtain ⟨hsizes, _⟩ := place_spec value h.target_lt hoffset' fun _ => unsetValue
  refine ⟨htotal, ?_, ?_⟩
  · funext x
    change (range _).map (_ + ·) = itemsInto target items x
    simp only [create]
    rw [hsizes, itemsInto, hoffset]
    split
    · rfl
    · -- No transition leads to a node behind the last.
      have hnone : bucket target items x = [] := by
        rw [bucket, filter_eq_nil_iff]
        intro y hy heq
        have hlt := h.target_lt y hy
        simp only [decide_eq_true_eq] at heq
        omega
      simp [hnone]
  · intro e he
    rw [transition_create h.target_lt unset value unsetValue he, hvalue]
    rfl

end Edges

/-!
## Nodes that cannot be told apart

`DFA.Consistent` are the relations of nodes that agree in their actions and whose edges, on
each character and the fallback, lead to related nodes or are missing in both. The greatest
of them is `DFA.Indistinguishable`. It is an equivalence kept by the edges of the tables
(`individualTransitions_spec`, `fallbackTransitions_spec`).
-/

open Refinement Partition

/-- A node whose ranges are ranges of the vectors of the graph, with one transition on a
character at most. -/
structure DFANode.Deterministic (dfa : DFA) (node : DFANode) : Prop where
  actions : node.actionsEnd ≤ dfa.actions.length
  transitions : node.transitionsEnd ≤ dfa.transitions.length
  nodup : ((node.transitions dfa).map Prod.fst).Nodup
  key : ∀ transition ∈ node.transitions dfa, transition.1 < 128
  target : ∀ transition ∈ node.transitions dfa, transition.2 < dfa.nodes.length
  fallback : node.hasFallbackTransition →
    node.fallbackTransitionDestination dfa < dfa.nodes.length

namespace DFA

variable {dfa : DFA} {p q : ℕ}

def Deterministic (dfa : DFA) : Prop := ∀ node ∈ dfa.nodes, node.Deterministic dfa

/-- The target of the individual edge of a node on a character. -/
def individualTarget (dfa : DFA) (p c : ℕ) : Option ℕ :=
  ((dfa.nodes.getD p {}).transitions dfa).lookup c

def fallbackTarget (dfa : DFA) (p : ℕ) : Option ℕ :=
  if (dfa.nodes.getD p {}).hasFallbackTransition then
    some ((dfa.nodes.getD p {}).fallbackTransitionDestination dfa)
  else none

/-- Two nodes with the same actions and edges to related nodes. -/
structure Agree (dfa : DFA) (R : ℕ → ℕ → Prop) (p q : ℕ) : Prop where
  left : p < dfa.nodes.length
  right : q < dfa.nodes.length
  actions : dfa.actionsOf p = dfa.actionsOf q
  fallback : Option.Rel R (dfa.fallbackTarget p) (dfa.fallbackTarget q)
  individual : ∀ c, Option.Rel R (dfa.individualTarget p c) (dfa.individualTarget q c)

def Consistent (dfa : DFA) (R : ℕ → ℕ → Prop) : Prop := ∀ p q, R p q → dfa.Agree R p q

/-- The greatest consistent relation. -/
def Indistinguishable (dfa : DFA) (p q : ℕ) : Prop := ∃ R, dfa.Consistent R ∧ R p q

variable {R : ℕ → ℕ → Prop}

theorem rel_iff {a b : Option ℕ} : Option.Rel R a b ↔ (∀ x, a = some x → ∃ y, b = some y ∧ R x y) ∧
      ∀ y, b = some y → ∃ x, a = some x ∧ R x y := by
  constructor
  · intro h
    cases h with
    | none => exact ⟨fun _ h => absurd h (by simp), fun _ h => absurd h (by simp)⟩
    | some hR =>
      refine ⟨fun x hx => ⟨_, rfl, ?_⟩, fun y hy => ⟨_, rfl, ?_⟩⟩
      · rwa [← Option.some.inj hx]
      · rwa [← Option.some.inj hy]
  · rintro ⟨hleft, hright⟩
    cases a with
    | some x =>
      obtain ⟨y, rfl, hR⟩ := hleft x rfl
      exact .some hR
    | none =>
      cases b with
      | some y =>
        obtain ⟨x, hx, _⟩ := hright y rfl
        exact absurd hx (by simp)
      | none => exact .none

theorem rel_mono {R S : ℕ → ℕ → Prop} (hRS : ∀ x y, R x y → S x y) {a b : Option ℕ}
    (h : Option.Rel R a b) : Option.Rel S a b := by
  cases h with
  | none => exact .none
  | some hR => exact .some (hRS _ _ hR)

theorem rel_flip {a b : Option ℕ} (h : Option.Rel R a b) : Option.Rel (fun x y => R y x) b a := by
  cases h with
  | none => exact .none
  | some hR => exact .some hR

theorem Agree.mono {R S : ℕ → ℕ → Prop} (h : dfa.Agree R p q) (hRS : ∀ x y, R x y → S x y) :
    dfa.Agree S p q :=
  ⟨h.left, h.right, h.actions, rel_mono hRS h.fallback, fun c => rel_mono hRS (h.individual c)⟩

theorem Agree.flip (h : dfa.Agree R p q) : dfa.Agree (fun x y => R y x) q p :=
  ⟨h.right, h.left, h.actions.symm, rel_flip h.fallback, fun c => rel_flip (h.individual c)⟩

theorem consistent_indistinguishable (dfa : DFA) : dfa.Consistent dfa.Indistinguishable := by
  rintro p q ⟨R, hR, hpq⟩
  exact (hR p q hpq).mono fun x y hxy => ⟨R, hR, hxy⟩

theorem Indistinguishable.symm (h : dfa.Indistinguishable p q) : dfa.Indistinguishable q p := by
  obtain ⟨R, hR, hpq⟩ := h
  exact ⟨fun x y => R y x, fun x y hxy => (hR y x hxy).flip, hpq⟩

theorem Deterministic.node (h : dfa.Deterministic) (hp : p < dfa.nodes.length) :
    (dfa.nodes.getD p {}).Deterministic dfa := by
  rw [getD_eq_getElem _ _ hp]
  exact h _ (getElem_mem hp)

theorem lookup_eq_some_iff {l : List (ℕ × ℕ)} (h : (l.map Prod.fst).Nodup) (c target : ℕ) :
    l.lookup c = some target ↔ (c, target) ∈ l := by
  induction l with
  | nil => simp
  | cons x rest ih =>
    obtain ⟨c', target'⟩ := x
    rw [map_cons, nodup_cons] at h
    rw [lookup_cons, mem_cons]
    by_cases hc : c = c'
    · subst hc
      have hnot : (c, target) ∉ rest := fun hmem =>
        h.1 (mem_map.mpr ⟨_, hmem, rfl⟩)
      simp [hnot, eq_comm]
    · have hbeq : (c == c') = false := by simpa using hc
      simp only [hbeq, ih h.2]
      simp [hc]

theorem mem_individualTransitions (h : dfa.Deterministic) (p c target : ℕ) :
    (⟨p, target, c⟩ : Transition) ∈ dfa.individualTransitions ↔
      p < dfa.nodes.length ∧ dfa.individualTarget p c = some target := by
  simp only [individualTransitions, mem_flatMap, mem_range, mem_map, Transition.mk.injEq]
  constructor
  · rintro ⟨i, hi, transition, hmem, rfl, rfl, rfl⟩
    exact ⟨hi, (lookup_eq_some_iff (h.node hi).nodup _ _).mpr hmem⟩
  · rintro ⟨hp, htarget⟩
    exact ⟨p, hp, (c, target), (lookup_eq_some_iff (h.node hp).nodup _ _).mp htarget, rfl, rfl, rfl⟩

theorem mem_individualTransitions' (h : dfa.Deterministic) (x : Transition) :
    x ∈ dfa.individualTransitions ↔
      x.source < dfa.nodes.length ∧ dfa.individualTarget x.source x.character = some x.target :=
  mem_individualTransitions h x.source x.character x.target

theorem nodup_individualTransitions (h : dfa.Deterministic) : dfa.individualTransitions.Nodup := by
  rw [individualTransitions, nodup_flatMap]
  constructor
  · intro i hi
    refine List.Nodup.of_map Transition.character ?_
    rw [map_map]
    exact (h.node (mem_range.mp hi)).nodup
  · refine nodup_range.imp fun {i j} hne x hi hj => hne ?_
    obtain ⟨_, _, rfl⟩ := mem_map.mp hi
    obtain ⟨_, _, heq⟩ := mem_map.mp hj
    exact (congrArg Transition.source heq).symm

theorem mem_fallbackTransitions (dfa : DFA) (x : ℕ × ℕ) :
    x ∈ dfa.fallbackTransitions ↔ x.1 < dfa.nodes.length ∧ dfa.fallbackTarget x.1 = some x.2 := by
  simp only [fallbackTransitions, mem_filterMap, mem_range, fallbackTarget]
  constructor
  · rintro ⟨i, hi, heq⟩
    split at heq
    · rename_i hfall
      obtain rfl := Option.some.inj heq
      exact ⟨hi, if_pos hfall⟩
    · simp at heq
  · rintro ⟨hi, heq⟩
    refine ⟨x.1, hi, ?_⟩
    split at heq
    · rename_i hfall
      rw [if_pos hfall, Option.some.inj heq]
    · simp at heq

theorem nodup_fallbackTransitions (dfa : DFA) : dfa.fallbackTransitions.Nodup := by
  refine nodup_range.filterMap fun i j x hi hj => ?_
  have hsrc : ∀ k, x ∈ (if (dfa.nodes.getD k {}).hasFallbackTransition then
      some (k, (dfa.nodes.getD k {}).fallbackTransitionDestination dfa) else none) → k = x.1 := by
    intro k hk
    split at hk
    · rw [Option.mem_some_iff] at hk
      rw [← hk]
    · simp at hk
  rw [hsrc i hi, hsrc j hj]

theorem individualTransitions_spec (h : dfa.Deterministic) :
    Transitions dfa.nodes.length dfa.Indistinguishable dfa.individualTransitions
      Transition.source Transition.target Transition.character where
  nodup := nodup_individualTransitions h
  source_lt x hx := ((mem_individualTransitions' h x).mp hx).1
  target_lt x hx := by
    obtain ⟨hlt, htarget⟩ := (mem_individualTransitions' h x).mp hx
    exact (h.node hlt).target _ ((lookup_eq_some_iff (h.node hlt).nodup _ _).mp htarget)
  unique x hx y hy hsrc hchar := by
    have hx' := ((mem_individualTransitions' h x).mp hx).2
    have hy' := ((mem_individualTransitions' h y).mp hy).2
    obtain ⟨_, _, _⟩ := x
    obtain ⟨_, _, _⟩ := y
    simp_all
  alike x hx q hq hR := by
    have hx' := ((mem_individualTransitions' h x).mp hx).2
    have hrel := (consistent_indistinguishable dfa _ _ hR).individual x.character
    obtain ⟨target, htarget, hR'⟩ := (rel_iff.mp hrel).1 _ hx'
    exact ⟨⟨q, target, x.character⟩, (mem_individualTransitions h _ _ _).mpr ⟨hq, htarget⟩, rfl,
      rfl, hR'⟩

theorem fallbackTransitions_spec (h : dfa.Deterministic) :
    Transitions dfa.nodes.length dfa.Indistinguishable dfa.fallbackTransitions
      Prod.fst Prod.snd fun _ => 0 where
  nodup := nodup_fallbackTransitions dfa
  source_lt x hx := ((mem_fallbackTransitions dfa x).mp hx).1
  target_lt x hx := by
    obtain ⟨hlt, htarget⟩ := (mem_fallbackTransitions dfa x).mp hx
    rw [fallbackTarget] at htarget
    split at htarget
    · rename_i hfall
      rw [← Option.some.inj htarget]
      exact (h.node hlt).fallback hfall
    · simp at htarget
  unique x hx y hy hsrc _ := by
    have hx' := ((mem_fallbackTransitions dfa x).mp hx).2
    have hy' := ((mem_fallbackTransitions dfa y).mp hy).2
    rw [hsrc, hy', Option.some.injEq] at hx'
    exact Prod.ext hsrc hx'.symm
  alike x hx q hq hR := by
    have hx' := ((mem_fallbackTransitions dfa x).mp hx).2
    have hrel := (consistent_indistinguishable dfa _ _ hR).fallback
    obtain ⟨target, htarget, hR'⟩ := (rel_iff.mp hrel).1 _ hx'
    exact ⟨(q, target), (mem_fallbackTransitions dfa _).mpr ⟨hq, htarget⟩, rfl, rfl, hR'⟩

end DFA

end WebKit.ContentExtensions
