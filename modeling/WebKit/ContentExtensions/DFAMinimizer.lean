import WebKit.ContentExtensions.DFAEquivalence

/-!
# The sets of `partitionNodes` are the classes of indistinguishable nodes

The partitions that `FullGraphPartition.create` starts from meet the invariant
(`inv_create`), the nodes are separated by their actions (`separate_finalStates`), and when
every set of transitions was used as a splitter, two nodes of one set agree
(`agree_of_used`). The invariant also says that indistinguishable nodes were never
separated.
-/

namespace WebKit.ContentExtensions

open Refinement Partition List FullGraphPartition Prod Edges

variable {dfa : DFA}

/-! ## The initial partitions -/

namespace Edges

variable {n : ℕ} {R : ℕ → ℕ → Prop} {E : Edges n R}

/-- The characters below `i` have been separated. -/
structure Separated (E : Edges n R) (i : ℕ) (edges : Partition) : Prop where
  clear : edges.Clear E.size
  keeps : Keeps E.Alike (elements E.size) edges.setIndex
  separated : ∀ e < E.size, ∀ e' < E.size, edges.setIndex e = edges.setIndex e' →
    E.character e = E.character e' ∨ i ≤ E.character e ∧ i ≤ E.character e'

theorem separated_initialized (E : Edges n R) : E.Separated 0 (initialized E.size) where
  clear := clear_initialized E.size
  keeps e _ e' _ _ := by rw [setIndex_initialized, setIndex_initialized]
  separated _ _ _ _ _ := .inr ⟨Nat.zero_le _, Nat.zero_le _⟩

theorem Separated.next {table : FlattenedTransitions Transition} {edges : Partition} {i : ℕ}
    (h : E.Separated i edges) (hsize : table.size = E.size)
    (htable : ∀ e < E.size, (table.transition e).character = E.character e) :
    E.Separated (i + 1) (separateCharacter table edges i) := by
  have hfold : (range table.size).foldl (fun edges e =>
      if (table.transition e).character = i then edges.markElementInCurrentGeneration e
      else edges) edges = ((range E.size).filter
        fun e => (table.transition e).character = i).foldl markElementInCurrentGeneration
          edges := by
    rw [foldl_filter, hsize]
    simp only [decide_eq_true_eq]
  have hmem : ∀ e, e ∈ ((range E.size).filter
      fun e => (table.transition e).character = i) ↔ e < E.size ∧ E.character e = i := by
    intro e
    rw [mem_filter, mem_range, decide_eq_true_eq]
    exact and_congr_right fun he => by rw [htable e he]
  obtain ⟨hmarking, hindex, hcount, hmarked⟩ := h.clear.marking.markAll
    (fun e he => ((hmem e).mp he).1) (nodup_range.filter _)
    fun e he => h.clear.not_marked ((hmem e).mp he).1
  obtain ⟨hclear, hsep, _⟩ := hmarking.refine
  rw [hindex, hcount] at hsep
  have hsep' := hsep.congr (S := {e | E.character e = i}) (by
    intro e he
    rw [Set.mem_ofPred_eq, Set.mem_ofPred_eq, hmarked e he, hmem]
    exact (or_iff_right (h.clear.not_marked he)).trans (and_iff_right he))
  rw [separateCharacter, hfold]
  refine ⟨hclear, ?_, ?_⟩
  · refine hsep'.keeps h.keeps fun e _ e' _ halike => ?_
    rw [Set.mem_ofPred_eq, Set.mem_ofPred_eq, halike.2]
  · intro e he e' he' heq
    obtain ⟨hsame, hchar⟩ := (hsep'.same e he e' he').mp heq
    rw [Set.mem_ofPred_eq, Set.mem_ofPred_eq] at hchar
    have hold := h.separated e he e' he' hsame
    omega

theorem separated_all {table : FlattenedTransitions Transition} (hsize : table.size = E.size)
    (htable : ∀ e < E.size, (table.transition e).character = E.character e) (i : ℕ) :
    E.Separated i ((range i).foldl (separateCharacter table) (initialized table.size)) := by
  induction i with
  | zero =>
    rw [hsize]
    exact E.separated_initialized
  | succ i ih =>
    rw [range_succ, foldl_append]
    exact ih.next hsize htable

end Edges

namespace DFA

/-- The individual edges of a graph. -/
def edges (h : dfa.Deterministic) : Edges dfa.nodes.length dfa.Indistinguishable :=
  .ofItems (individualTransitions_spec h) ⟨0, 0, 0⟩

/-- The fallback edges of a graph. -/
def fallbackEdges (h : dfa.Deterministic) : Edges dfa.nodes.length dfa.Indistinguishable :=
  .ofItems (fallbackTransitions_spec h) (0, 0)

section

variable (h : dfa.Deterministic)
include h

theorem edges_spec {e : ℕ} (he : e < (edges h).size) :
    (edges h).source e < dfa.nodes.length ∧
      dfa.individualTarget ((edges h).source e) ((edges h).character e) =
        some ((edges h).target e) :=
  (mem_individualTransitions' h _).mp (item_mem _ _ _ he)

theorem exists_edge {p c target : ℕ} (hp : p < dfa.nodes.length)
    (htarget : dfa.individualTarget p c = some target) :
    ∃ e < (edges h).size, (edges h).source e = p ∧ (edges h).character e = c ∧
      (edges h).target e = target := by
  have hmem := (mem_individualTransitions h p c target).mpr ⟨hp, htarget⟩
  obtain ⟨e, he, heq⟩ := exists_item (individualTransitions_spec h) ⟨0, 0, 0⟩ hmem
  exact ⟨e, he, congrArg Transition.source heq, congrArg Transition.character heq,
    congrArg Transition.target heq⟩

theorem fallbackEdges_spec {e : ℕ} (he : e < (fallbackEdges h).size) :
    (fallbackEdges h).source e < dfa.nodes.length ∧
      dfa.fallbackTarget ((fallbackEdges h).source e) = some ((fallbackEdges h).target e) :=
  (mem_fallbackTransitions dfa _).mp (item_mem _ _ _ he)

theorem exists_fallbackEdge {p target : ℕ} (hp : p < dfa.nodes.length)
    (htarget : dfa.fallbackTarget p = some target) :
    ∃ e < (fallbackEdges h).size, (fallbackEdges h).source e = p ∧
      (fallbackEdges h).target e = target := by
  have hmem := (mem_fallbackTransitions dfa (p, target)).mpr ⟨hp, htarget⟩
  obtain ⟨e, he, heq⟩ := exists_item (fallbackTransitions_spec h) (0, 0) hmem
  exact ⟨e, he, congrArg fst heq, congrArg snd heq⟩

theorem edges_character_lt {e : ℕ} (he : e < (edges h).size) :
    (edges h).character e < 128 := by
  obtain ⟨hlt, htarget⟩ := edges_spec h he
  exact (h.node hlt).key _ ((lookup_eq_some_iff (h.node hlt).nodup _ _).mp htarget)

theorem inv_create : (create dfa).Inv (edges h) (fallbackEdges h) := by
  have hrep : (edges h).Represents (create dfa).flattenedTransitions Transition.source :=
    represents_ofItems (individualTransitions_spec h) _ id _ _ fun _ => rfl
  have hchar : ∀ e < (edges h).size,
      ((create dfa).flattenedTransitions.transition e).character = (edges h).character e := by
    intro e he
    exact congrArg Transition.character (Edges.transition_create
      (individualTransitions_spec h).target_lt _ id _ he)
  have hfall : (fallbackEdges h).Represents (create dfa).flattenedFallbackTransitions id :=
    represents_ofItems (fallbackTransitions_spec h) _ fst _ _ fun _ => rfl
  have hsep := separated_all hrep.size hchar 128
  have hinit := (fallbackEdges h).separated_initialized
  have hsets : ∀ x, (create dfa).nodePartition.setIndex x = 0 := fun x => setIndex_initialized _ x
  refine ⟨hrep, hfall, clear_initialized _, fun x _ y _ _ => by rw [hsets, hsets],
    ⟨hsep.clear, fun e _ e' _ _ => by rw [hsets, hsets], ?_, hsep.keeps⟩, ?_⟩
  · intro e he e' he' heq
    have hlt := edges_character_lt h he
    have hold := hsep.separated e he e' he' heq
    omega
  · change (fallbackEdges h).Divided _ (initialized (create dfa).flattenedFallbackTransitions.size)
    rw [hfall.size]
    exact ⟨hinit.clear, fun e _ e' _ _ => by rw [hsets, hsets], fun _ _ _ _ _ => rfl, hinit.keeps⟩

end

/-! ## The final states -/

/-- The key of a node among the final states, if it has actions. -/
def finalKey (dfa : DFA) (i : ℕ) : Option (List ℕ) :=
  if (dfa.nodes.getD i {}).actionsLength ≠ 0 then some ((dfa.nodes.getD i {}).actions dfa)
  else none

/-- The slots of the nodes before `m`. -/
structure Slots (dfa : DFA) (m : ℕ) (slots : List (List ℕ × List ℕ)) : Prop where
  keys : (slots.map fst).Nodup
  nodup : ∀ slot ∈ slots, slot.2.Nodup
  mem_iff : ∀ slot ∈ slots, ∀ i, i ∈ slot.2 ↔ i < m ∧ dfa.finalKey i = some slot.1
  exists_slot : ∀ i < m, ∀ key, dfa.finalKey i = some key → key ∈ slots.map fst

theorem keys_addFinalState (key : List ℕ) (i : ℕ) (slots : List (List ℕ × List ℕ)) :
    (addFinalState key i slots).map fst =
      if key ∈ slots.map fst then slots.map fst else slots.map fst ++ [key] := by
  induction slots with
  | nil => rfl
  | cons slot rest ih =>
    rw [addFinalState]
    split
    · rename_i heq
      rw [map_cons, map_cons, if_pos (by rw [heq]; exact mem_cons_self)]
    · rename_i hne
      rw [map_cons, ih, map_cons]
      simp only [mem_cons, Ne.symm hne, false_or]
      split <;> rfl

theorem mem_addFinalState {key : List ℕ} {i : ℕ} {slots : List (List ℕ × List ℕ)}
    (hkeys : (slots.map fst).Nodup) {slot : List ℕ × List ℕ}
    (hslot : slot ∈ addFinalState key i slots) :
    slot ∈ slots ∧ slot.1 ≠ key ∨ (∃ v, slot = (key, v ++ [i]) ∧ (key, v) ∈ slots) ∨
      slot = (key, [i]) ∧ key ∉ slots.map fst := by
  induction slots with
  | nil => exact .inr (.inr ⟨mem_singleton.mp hslot, not_mem_nil⟩)
  | cons first rest ih =>
    rw [map_cons, nodup_cons] at hkeys
    rw [addFinalState] at hslot
    split at hslot
    · rename_i heq
      rcases mem_cons.mp hslot with rfl | hrest
      · exact .inr (.inl ⟨first.2, by rw [heq], by rw [← heq]; exact mem_cons_self⟩)
      · refine .inl ⟨mem_cons_of_mem _ hrest, fun hkey => hkeys.1 ?_⟩
        rw [heq, ← hkey]
        exact mem_map_of_mem hrest
    · rename_i hne
      rcases mem_cons.mp hslot with rfl | hrest
      · exact .inl ⟨mem_cons_self, hne⟩
      · rcases ih hkeys.2 hrest with ⟨hold, hkey⟩ | ⟨v, heq, hold⟩ | ⟨heq, hnew⟩
        · exact .inl ⟨mem_cons_of_mem _ hold, hkey⟩
        · exact .inr (.inl ⟨v, heq, mem_cons_of_mem _ hold⟩)
        · refine .inr (.inr ⟨heq, ?_⟩)
          rw [map_cons, mem_cons, not_or]
          exact ⟨Ne.symm hne, hnew⟩

variable {m : ℕ} {slots : List (List ℕ × List ℕ)}

theorem Slots.skip (h : dfa.Slots m slots) (hkey : dfa.finalKey m = none) :
    dfa.Slots (m + 1) slots where
  keys := h.keys
  nodup := h.nodup
  mem_iff slot hslot i := by
    rw [h.mem_iff slot hslot i]
    refine and_congr_left fun hi => ?_
    have hne : i ≠ m := by
      rintro rfl
      simp [hkey] at hi
    omega
  exists_slot i hi key hi' := by
    have hne : i ≠ m := by
      rintro rfl
      simp [hkey] at hi'
    exact h.exists_slot i (by omega) key hi'

theorem Slots.add (h : dfa.Slots m slots) {key : List ℕ} (hkey : dfa.finalKey m = some key) :
    dfa.Slots (m + 1) (addFinalState key m slots) where
  keys := by
    rw [keys_addFinalState]
    split
    · exact h.keys
    · rename_i hnew
      refine List.Nodup.append h.keys (nodup_singleton _) fun k hk hk' => ?_
      exact hnew (mem_singleton.mp hk' ▸ hk)
  nodup slot hslot := by
    rcases mem_addFinalState h.keys hslot with ⟨hold, _⟩ | ⟨v, rfl, hold⟩ | ⟨rfl, _⟩
    · exact h.nodup slot hold
    · refine List.Nodup.append (h.nodup _ hold) (nodup_singleton _) fun i hi hi' => ?_
      have hlt := ((h.mem_iff _ hold i).mp hi).1
      have heq := mem_singleton.mp hi'
      omega
    · exact nodup_singleton _
  mem_iff slot hslot i := by
    rcases mem_addFinalState h.keys hslot with ⟨hold, hne⟩ | ⟨v, rfl, hold⟩ | ⟨rfl, hnew⟩
    · rw [h.mem_iff slot hold i]
      refine and_congr_left fun hi => ?_
      have hne : i ≠ m := by
        rintro rfl
        exact hne (Option.some.inj (hi.symm.trans hkey))
      omega
    · have hmem := h.mem_iff _ hold i
      rw [mem_append, mem_singleton, hmem]
      constructor
      · rintro (⟨hi, hi'⟩ | rfl)
        · exact ⟨by omega, hi'⟩
        · exact ⟨by omega, hkey⟩
      · rintro ⟨hi, hi'⟩
        exact (Nat.lt_succ_iff_lt_or_eq.mp hi).imp (⟨·, hi'⟩) id
    · rw [mem_singleton]
      constructor
      · rintro rfl
        exact ⟨by omega, hkey⟩
      · rintro ⟨hi, hi'⟩
        refine (Nat.lt_succ_iff_lt_or_eq.mp hi).resolve_left fun hlt => ?_
        exact hnew (h.exists_slot i hlt key hi')
  exists_slot i hi key' hi' := by
    rw [keys_addFinalState]
    rcases Nat.lt_succ_iff_lt_or_eq.mp hi with hlt | rfl
    · have hmem := h.exists_slot i hlt key' hi'
      split
      · exact hmem
      · exact mem_append_left _ hmem
    · obtain rfl := Option.some.inj (hkey.symm.trans hi')
      split
      · assumption
      · exact mem_append_right _ mem_cons_self

theorem slots_finalStates (dfa : DFA) : dfa.Slots dfa.nodes.length dfa.finalStates := by
  rw [finalStates]
  generalize dfa.nodes.length = m
  induction m with
  | zero => exact ⟨nodup_nil, by simp, by simp, by simp⟩
  | succ m ih =>
    rw [range_succ, foldl_append, foldl_cons, foldl_nil]
    split
    · rename_i hacts
      exact ih.add (if_pos hacts)
    · rename_i hacts
      exact ih.skip (if_neg hacts)

theorem finalKey_eq_iff (h : dfa.Deterministic) {p q : ℕ} (hp : p < dfa.nodes.length)
    (hq : q < dfa.nodes.length) :
    dfa.finalKey p = dfa.finalKey q ↔ dfa.actionsOf p = dfa.actionsOf q := by
  have hlen : ∀ i < dfa.nodes.length,
      (dfa.actionsOf i).length = (dfa.nodes.getD i {}).actionsLength := by
    intro i hi
    have hend := (h.node hi).actions
    rw [DFANode.actionsEnd] at hend
    rw [actionsOf, DFANode.actions, length_take, length_drop]
    omega
  have hp' := hlen p hp
  have hq' := hlen q hq
  change (if _ then some (dfa.actionsOf p) else none) =
    (if _ then some (dfa.actionsOf q) else none) ↔ _
  constructor
  · intro heq
    split_ifs at heq with hpZero hqZero hqZero
    · exact Option.some.inj heq
    · rw [length_eq_zero_iff.mp (by omega : (dfa.actionsOf p).length = 0),
        length_eq_zero_iff.mp (by omega : (dfa.actionsOf q).length = 0)]
  · intro heq
    rw [← hp', ← hq', heq]

theorem separate_finalStates (h : dfa.Deterministic) (hslots : slots.Perm dfa.finalStates) :
    ∃ g, slots.foldl (fun g slot => (slot.2.foldl markNode g).refinePartitions) (create dfa) = g ∧
      g.Inv (edges h) (fallbackEdges h) ∧ g.nextTransitionSetToProcess = 0 ∧
      ∀ x < dfa.nodes.length, ∀ y < dfa.nodes.length,
        g.nodePartition.setIndex x = g.nodePartition.setIndex y →
          dfa.actionsOf x = dfa.actionsOf y := by
  have hspec := slots_finalStates dfa
  suffices hloop : ∀ (rest done : List (List ℕ × List ℕ)) (g : FullGraphPartition),
      done ++ rest = slots → g.Inv (edges h) (fallbackEdges h) →
      g.nextTransitionSetToProcess = 0 →
      (∀ slot ∈ done, Stable (elements dfa.nodes.length) g.nodePartition.setIndex
        {x | x ∈ slot.2}) →
      ∃ g', rest.foldl (fun g slot =>
          (slot.2.foldl markNode g).refinePartitions) g = g' ∧
        g'.Inv (edges h) (fallbackEdges h) ∧ g'.nextTransitionSetToProcess = 0 ∧
        ∀ slot ∈ slots, Stable (elements dfa.nodes.length) g'.nodePartition.setIndex
          {x | x ∈ slot.2} by
    obtain ⟨g, hg, hinv, hnext, hstable⟩ := hloop slots [] _ rfl (inv_create h) rfl (by simp)
    refine ⟨g, hg, hinv, hnext, fun x hx y hy heq => (finalKey_eq_iff h hx hy).mp ?_⟩
    -- The slot of a node with actions holds the other node too.
    have hkey : ∀ x < dfa.nodes.length, ∀ y < dfa.nodes.length,
        g.nodePartition.setIndex x = g.nodePartition.setIndex y →
        ∀ key, dfa.finalKey x = some key → dfa.finalKey y = some key := by
      intro x hx y hy heq key hkey
      obtain ⟨slot, hslot, rfl⟩ := mem_map.mp (hspec.exists_slot x hx key hkey)
      have hmem := (hspec.mem_iff slot hslot x).mpr ⟨hx, hkey⟩
      have hmem' := hstable slot (hslots.mem_iff.mpr hslot) x hx y hy heq hmem
      exact ((hspec.mem_iff slot hslot y).mp hmem').2
    cases hx' : dfa.finalKey x with
    | some key => exact (hkey x hx y hy heq key hx').symm
    | none =>
      cases hy' : dfa.finalKey y with
      | some key => exact absurd (hkey y hy x hx heq.symm key hy') (by simp [hx'])
      | none => rfl
  intro rest
  induction rest with
  | nil =>
    intro done g hdone hinv hnext hstable
    rw [append_nil] at hdone
    exact ⟨g, rfl, hinv, hnext, hdone ▸ hstable⟩
  | cons slot rest ih =>
    intro done g hdone hinv hnext hstable
    have hslot : slot ∈ dfa.finalStates := hslots.mem_iff.mp (by simp [← hdone])
    have hmem := hspec.mem_iff slot hslot
    have hresp : Respects dfa.Indistinguishable (elements dfa.nodes.length)
        {x | x ∈ slot.2} := by
      intro x hx y hy hR
      have hacts := (consistent_indistinguishable dfa x y hR).actions
      rw [Set.mem_ofPred_eq, Set.mem_ofPred_eq, hmem, hmem, (finalKey_eq_iff h hx hy).mpr hacts]
      exact and_congr_left fun _ => iff_of_true hx hy
    obtain ⟨hinv', hevol, hsep⟩ := hinv.refine_marked
      (fun x hx => ((hmem x).mp hx).1) (hspec.nodup slot hslot) hresp
    have hnext' : (slot.2.foldl markNode g).refinePartitions.nextTransitionSetToProcess = 0 := by
      rw [foldl_markNode]
      exact hnext
    refine ih (done ++ [slot]) _ (by rw [← hdone, append_assoc]; rfl) hinv' hnext' ?_
    intro slot' hslot'
    rcases mem_append.mp hslot' with hold | hlast
    · exact (hstable slot' hold).refines hevol.nodes
    · rw [mem_singleton.mp hlast]
      exact hsep.stable

/-- The nodes of the same set. -/
def SameSet (dfa : DFA) (g : FullGraphPartition) (p q : ℕ) : Prop :=
  p < dfa.nodes.length ∧ q < dfa.nodes.length ∧
    g.nodePartition.setIndex p = g.nodePartition.setIndex q

theorem exists_counterpart {n : ℕ} {R : ℕ → ℕ → Prop} {E : Edges n R} {index : ℕ → ℕ}
    {cells : Partition} (hdiv : E.Divided index cells)
    (hused : Processed (elements n) (elements E.size) E.source index cells.setIndex cells.size)
    {e q : ℕ} (he : e < E.size) (hq : q < n) (heq : index (E.source e) = index q) :
    ∃ e' < E.size, E.source e' = q ∧ E.character e' = E.character e ∧
      index (E.target e) = index (E.target e') := by
  have hlt := hdiv.clear.valid.setIndex_lt
  have hstable := hused.stable hlt (hlt e he)
  obtain ⟨e', ⟨he', hcell⟩, hsrc⟩ := hstable _ (E.source_lt e he) q hq heq ⟨e, ⟨he, rfl⟩, rfl⟩
  exact ⟨e', he', hsrc, hdiv.sameCharacter e' he' e he hcell,
    hdiv.sameTarget e he e' he' hcell.symm⟩

theorem agree_of_used (h : dfa.Deterministic) {g : FullGraphPartition}
    (hinv : g.Inv (edges h) (fallbackEdges h))
    (hused : g.Used (edges h) (fallbackEdges h) g.transitionPartition.size
      g.fallbackTransitionPartition.size)
    (hacts : ∀ x < dfa.nodes.length, ∀ y < dfa.nodes.length,
      g.nodePartition.setIndex x = g.nodePartition.setIndex y → dfa.actionsOf x = dfa.actionsOf y) :
    dfa.Consistent (dfa.SameSet g) := by
  have hindividual : ∀ p q c target, dfa.SameSet g p q → dfa.individualTarget p c = some target →
      ∃ target', dfa.individualTarget q c = some target' ∧ dfa.SameSet g target target' := by
    rintro p q c target ⟨hp, hq, heq⟩ htarget
    obtain ⟨e, he, rfl, rfl, rfl⟩ := exists_edge h hp htarget
    obtain ⟨e', he', rfl, hchar, hsame⟩ :=
      exists_counterpart hinv.dividedTransitions hused.transitions he hq heq
    refine ⟨_, hchar ▸ (edges_spec h he').2, ?_⟩
    exact ⟨(edges h).target_lt e he, (edges h).target_lt e' he', hsame⟩
  have hfall : ∀ p q target, dfa.SameSet g p q → dfa.fallbackTarget p = some target →
      ∃ target', dfa.fallbackTarget q = some target' ∧ dfa.SameSet g target target' := by
    rintro p q target ⟨hp, hq, heq⟩ htarget
    obtain ⟨e, he, rfl, rfl⟩ := exists_fallbackEdge h hp htarget
    obtain ⟨e', he', rfl, _, hsame⟩ :=
      exists_counterpart hinv.dividedFallback hused.fallback he hq heq
    refine ⟨_, (fallbackEdges_spec h he').2, ?_⟩
    exact ⟨(fallbackEdges h).target_lt e he, (fallbackEdges h).target_lt e' he', hsame⟩
  have hsymm : ∀ p q, dfa.SameSet g p q → dfa.SameSet g q p :=
    fun p q ⟨hp, hq, heq⟩ => ⟨hq, hp, heq.symm⟩
  intro p q hpq
  obtain ⟨hp, hq, heq⟩ := hpq
  refine ⟨hp, hq, hacts p hp q hq heq, ?_, fun c => ?_⟩
  · refine rel_iff.mpr ⟨fun x hx => hfall p q x ⟨hp, hq, heq⟩ hx, fun y hy => ?_⟩
    obtain ⟨x, hx, hsame⟩ := hfall q p y ⟨hq, hp, heq.symm⟩ hy
    exact ⟨x, hx, hsymm _ _ hsame⟩
  · refine rel_iff.mpr ⟨fun x hx => hindividual p q c x ⟨hp, hq, heq⟩ hx, fun y hy => ?_⟩
    obtain ⟨x, hx, hsame⟩ := hindividual q p c y ⟨hq, hp, heq.symm⟩ hy
    exact ⟨x, hx, hsymm _ _ hsame⟩

end DFA

/-- Two final states with the same action, and two nodes that lead to them on one character;
only one of these has a fallback edge. -/
def fallbackGraph : DFA where
  actions := [7, 7]
  transitions := [(97, 1), (98, 2), (97, 3), (97, 4), (255, 0)]
  nodes := [
    { transitionsStart := 0, transitionsLength := 2 },
    { transitionsStart := 2, transitionsLength := 1 },
    { transitionsStart := 3, transitionsLength := 1, hasFallbackTransition := true },
    { actionsStart := 0, actionsLength := 1, transitionsStart := 5 },
    { actionsStart := 1, actionsLength := 1, transitionsStart := 5 }]

end WebKit.ContentExtensions
