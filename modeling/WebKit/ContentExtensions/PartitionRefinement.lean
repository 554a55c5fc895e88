import WebKit.ContentExtensions.Partition
import WebKit.Refinement.Classes

/-!
# `refineGeneration` separates the marked elements

`SetRefined` says what one pass of the loop of `refineGeneration` does to the set it looks
at (`refineSet_spec`). The loop (`refineGeneration_spec`) is proved with a condition on the
state of the function that is called for the new sets, to be kept by each call.
-/

namespace WebKit.ContentExtensions

open SetDescriptor

namespace Partition

open Refinement Function List

variable {n : ℕ} {p p' : Partition} {k : ℕ}

/-- The elements of a partition. -/
def elements (n : ℕ) : Set ℕ := {x | x < n}

theorem foldl_update {α : Type*} (l : List ℕ) (element : ℕ → ℕ) (value : α) (map : ℕ → α) (x : ℕ) :
    l.foldl (fun map i => update map (element i) value) map x =
      if ∃ i ∈ l, element i = x then value else map x := by
  induction l generalizing map with
  | nil => simp
  | cons i rest ih =>
    rw [foldl_cons, ih, update_apply]
    by_cases hrest : ∃ j ∈ rest, element j = x
    · rw [if_pos hrest, if_pos ?_]
      obtain ⟨j, hj, heq⟩ := hrest
      exact ⟨j, mem_cons_of_mem _ hj, heq⟩
    · rw [if_neg hrest]
      by_cases hi : x = element i
      · rw [if_pos hi, if_pos ⟨i, mem_cons_self, hi.symm⟩]
      · rw [if_neg hi, if_neg ?_]
        rintro ⟨j, hj, heq⟩
        rcases mem_cons.mp hj with rfl | hj
        · exact hi heq.symm
        · exact hrest ⟨j, hj, heq⟩

/-! ## One set -/

/-- The two parts of a set, the new one first, when its range is cut after the marked
elements. -/
structure Cut (descriptor newSet oldSet : SetDescriptor) : Prop where
  newMarked : newSet.markedCount = 0
  oldMarked : oldSet.markedCount = 0
  ranges :
    newSet.start = descriptor.start ∧ newSet.endIndex = descriptor.indexAfterMarkedElements ∧
        oldSet.start = descriptor.indexAfterMarkedElements ∧
        oldSet.endIndex = descriptor.endIndex ∨
      newSet.start = descriptor.indexAfterMarkedElements ∧
        newSet.endIndex = descriptor.endIndex ∧ oldSet.start = descriptor.start ∧
        oldSet.endIndex = descriptor.indexAfterMarkedElements

/-- The partition with the set `k` cut. -/
def cutSet (p : Partition) (k : ℕ) (newSet oldSet : SetDescriptor) : Partition :=
  { p with
    sets := update (update p.sets k oldSet) p.size newSet
    size := p.size + 1
    elementToSetMap := (List.range' newSet.start newSet.size).foldl
      (fun map i => update map (p.partitionedElements i) p.size) p.elementToSetMap }

theorem refineSet_cut (hle : (p.sets k).markedCount ≤ (p.sets k).size)
    (hne : (p.sets k).markedCount ≠ (p.sets k).size) :
    ∃ newSet oldSet, Cut (p.sets k) newSet oldSet ∧
      p.refineSet k = (p.cutSet k newSet oldSet, some p.size) := by
  refine ⟨_, _, ?_, by rw [refineSet, if_neg hne]; rfl⟩
  refine ⟨?_, rfl, ?_⟩
  · split <;> rfl
  · simp only [endIndex, indexAfterMarkedElements]
    split
    · left
      dsimp only
      omega
    · right
      dsimp only
      omega

/-- What happens when the set `k` is refined. -/
structure SetRefined (n : ℕ) (p : Partition) (k : ℕ) (p' : Partition) : Prop where
  valid : p'.Valid n
  separates : Separates (elements n) p.size {x | p.setIndex x = k ∧ p.Marked x}
    p.setIndex p'.setIndex
  kept : ∀ x ∈ elements n,
    p'.setIndex x = p.setIndex x ∨ p'.setIndex x = p.size ∧ p.setIndex x = k
  marked : ∀ x < n, p'.Marked x ↔ p.Marked x ∧ p.setIndex x ≠ k
  markedCount : ∀ j < p'.size, (p'.sets j).markedCount =
    if j < p.size ∧ j ≠ k then (p.sets j).markedCount else 0

section CutSet

variable {newSet oldSet : SetDescriptor}

theorem setIndex_cutSet (h : p.Valid n) (hk : k < p.size) (hcut : Cut (p.sets k) newSet oldSet)
    {x : ℕ} (hx : x < n) :
    (p.cutSet k newSet oldSet).setIndex x =
      if newSet.start ≤ p.position x ∧ p.position x < newSet.endIndex then p.size
      else p.setIndex x := by
  have hend := h.set_end k hk
  have hranges := hcut.ranges
  rw [setIndex, cutSet]
  dsimp only
  rw [foldl_update]
  congr 1
  simp only [mem_range'_1, eq_iff_iff]
  constructor
  · rintro ⟨i, hi, rfl⟩
    simp only [endIndex, indexAfterMarkedElements] at *
    rw [(h.position i (by omega)).2]
    exact hi
  · intro hpos
    exact ⟨p.position x, hpos, (h.element x hx).2⟩

theorem sets_cutSet_of_ne {j : ℕ} (hj : j < p.size) (hjk : j ≠ k) :
    (p.cutSet k newSet oldSet).sets j = p.sets j := by
  simp only [cutSet]
  rw [update_of_ne (by omega), update_of_ne hjk]

theorem sets_cutSet_old (hk : k < p.size) : (p.cutSet k newSet oldSet).sets k = oldSet := by
  simp only [cutSet]
  rw [update_of_ne (by omega), update_self]

theorem sets_cutSet_new : (p.cutSet k newSet oldSet).sets p.size = newSet := update_self _ _ _

theorem valid_cutSet (h : p.Valid n) (hk : k < p.size) (hpos : (p.sets k).markedCount ≠ 0)
    (hlt : (p.sets k).markedCount < (p.sets k).size) (hcut : Cut (p.sets k) newSet oldSet) :
    (p.cutSet k newSet oldSet).Valid n := by
  have hend := h.set_end k hk
  have hranges := hcut.ranges
  have hindex := fun x hx => setIndex_cutSet h hk hcut (x := x) hx
  have hsizes : 0 < newSet.size ∧ 0 < oldSet.size := by
    simp only [endIndex, indexAfterMarkedElements] at hranges
    omega
  have hinside : ∀ x < n, newSet.start ≤ p.position x ∧ p.position x < newSet.endIndex →
      p.setIndex x = k := by
    intro x hx hnew
    refine (h.mem_set x hx k hk).mpr ?_
    simp only [endIndex, indexAfterMarkedElements] at *
    omega
  -- The new set, the cut set and the other sets.
  have hcases : ∀ j < (p.cutSet k newSet oldSet).size, j = p.size ∨ j = k ∨ j < p.size ∧ j ≠ k := by
    intro j hj
    change j < p.size + 1 at hj
    omega
  refine ⟨h.element, h.position, ?_, ?_, ?_, ?_, ?_⟩
  · intro x hx
    have := h.setIndex_lt x hx
    rw [hindex x hx]
    change _ < p.size + 1
    split <;> omega
  · intro x hx j hj
    have hxlt := h.setIndex_lt x hx
    have hnew := hinside x hx
    rw [hindex x hx]
    change _ ↔ _ ≤ p.position x ∧ p.position x < _
    rcases hcases j hj with rfl | rfl | ⟨hjlt, hjk⟩
    · rw [sets_cutSet_new]
      split <;> omega
    · rw [sets_cutSet_old hk]
      have hmem := h.mem_set x hx j hk
      split <;> simp only [endIndex, indexAfterMarkedElements] at * <;>
        omega
    · rw [sets_cutSet_of_ne hjlt hjk, ← h.mem_set x hx j hjlt]
      split <;> omega
  · intro j hj
    rcases hcases j hj with rfl | rfl | ⟨hjlt, hjk⟩
    · rw [sets_cutSet_new]
      simp only [endIndex, indexAfterMarkedElements] at *
      omega
    · rw [sets_cutSet_old hk]
      simp only [endIndex, indexAfterMarkedElements] at *
      omega
    · rw [sets_cutSet_of_ne hjlt hjk]
      exact h.set_end j hjlt
  · intro j hj
    rcases hcases j hj with rfl | rfl | ⟨hjlt, hjk⟩
    · rw [sets_cutSet_new]
      exact hsizes.1
    · rw [sets_cutSet_old hk]
      exact hsizes.2
    · rw [sets_cutSet_of_ne hjlt hjk]
      exact h.set_size j hjlt
  · intro j hj
    rcases hcases j hj with rfl | rfl | ⟨hjlt, hjk⟩
    · rw [sets_cutSet_new, hcut.newMarked]
      exact Nat.zero_le _
    · rw [sets_cutSet_old hk, hcut.oldMarked]
      exact Nat.zero_le _
    · rw [sets_cutSet_of_ne hjlt hjk]
      exact h.marked_le j hjlt

theorem setRefined_cutSet (h : p.Valid n) (hk : k < p.size) (hpos : (p.sets k).markedCount ≠ 0)
    (hlt : (p.sets k).markedCount < (p.sets k).size) (hcut : Cut (p.sets k) newSet oldSet) :
    SetRefined n p k (p.cutSet k newSet oldSet) := by
  have hvalid := valid_cutSet h hk hpos hlt hcut
  have hranges := hcut.ranges
  have hindex := fun x hx => setIndex_cutSet h hk hcut (x := x) hx
  -- Inside the set, an element is in the new part or not according to its mark.
  have hside : ∀ x < n,
      (newSet.start ≤ p.position x ∧ p.position x < newSet.endIndex → p.setIndex x = k) ∧
      (p.setIndex x = k → (p.Marked x ↔ p.position x < (p.sets k).indexAfterMarkedElements) ∧
        (p.sets k).start ≤ p.position x ∧ p.position x < (p.sets k).endIndex) := by
    intro x hx
    have hmem := h.mem_set x hx k hk
    refine ⟨fun hnew => hmem.mpr ?_, fun hset => ⟨by rw [Marked, hset], hmem.mp hset⟩⟩
    simp only [endIndex, indexAfterMarkedElements] at *
    omega
  have hkept : ∀ x ∈ elements n, (p.cutSet k newSet oldSet).setIndex x = p.setIndex x ∨
      (p.cutSet k newSet oldSet).setIndex x = p.size ∧ p.setIndex x = k := by
    intro x hx
    rw [hindex x hx]
    split
    · exact .inr ⟨rfl, (hside x hx).1 ‹_›⟩
    · exact .inl rfl
  refine ⟨hvalid, ⟨?_, ?_⟩, hkept, ?_, ?_⟩
  · intro x hx y hy
    have hxlt := h.setIndex_lt x hx
    have hylt := h.setIndex_lt y hy
    obtain ⟨hxin, hxside⟩ := hside x hx
    obtain ⟨hyin, hyside⟩ := hside y hy
    rw [hindex x hx, hindex y hy, Set.mem_ofPred_eq, Set.mem_ofPred_eq]
    by_cases hxk : p.setIndex x = k
    · by_cases hyk : p.setIndex y = k
      · obtain ⟨hxmark, hxrange⟩ := hxside hxk
        obtain ⟨hymark, hyrange⟩ := hyside hyk
        rw [hxmark, hymark]
        split_ifs <;> omega
      · rw [if_neg fun hnew => hyk (hyin hnew)]
        split_ifs <;> omega
    · rw [if_neg fun hnew => hxk (hxin hnew)]
      split_ifs <;> omega
  · exact fun x hx => (hkept x hx).imp id fun heq => heq.1.ge
  · intro x hx
    have hrange := hvalid.in_set hx
    have hxlt := h.setIndex_lt x hx
    obtain ⟨hxin, hxside⟩ := hside x hx
    by_cases hxk : p.setIndex x = k
    · have hunmarked : ((p.cutSet k newSet oldSet).sets
          ((p.cutSet k newSet oldSet).setIndex x)).markedCount = 0 := by
        rw [hindex x hx]
        split
        · rw [sets_cutSet_new, hcut.newMarked]
        · rw [hxk, sets_cutSet_old hk, hcut.oldMarked]
      rw [Marked, indexAfterMarkedElements, hunmarked]
      omega
    · have hold : (p.cutSet k newSet oldSet).setIndex x = p.setIndex x := by
        rw [hindex x hx, if_neg fun hnew => hxk (hxin hnew)]
      rw [Marked, hold, sets_cutSet_of_ne hxlt hxk]
      exact ⟨fun hmark => ⟨hmark, hxk⟩, fun hmark => hmark.1⟩
  · intro j hj
    change j < p.size + 1 at hj
    split
    · rename_i hold
      rw [sets_cutSet_of_ne hold.1 hold.2]
    · rcases (show j = p.size ∨ j = k by omega) with rfl | rfl
      · rw [sets_cutSet_new, hcut.newMarked]
      · rw [sets_cutSet_old hk, hcut.oldMarked]

end CutSet

theorem setRefined_unmark (h : p.Valid n) (hall : (p.sets k).markedCount = (p.sets k).size) :
    SetRefined n p k { p with sets := update p.sets k { p.sets k with markedCount := 0 } } := by
  set p' : Partition :=
    { p with sets := update p.sets k { p.sets k with markedCount := 0 } } with hp'
  have hsets : ∀ j, p'.sets j = if j = k then { p.sets k with markedCount := 0 } else p.sets j :=
    fun j => update_apply _ _ _ _
  have hstart : ∀ j, (p'.sets j).start = (p.sets j).start := by
    intro j
    rw [hsets]
    split
    · rename_i heq
      rw [heq]
    · rfl
  have hsize : ∀ j, (p'.sets j).size = (p.sets j).size := by
    intro j
    rw [hsets]
    split
    · rename_i heq
      rw [heq]
    · rfl
  have hend : ∀ j, (p'.sets j).endIndex = (p.sets j).endIndex := by
    intro j
    rw [endIndex, endIndex, hstart, hsize]
  have hmarkedAll : ∀ x < n, p.setIndex x = k → p.Marked x := by
    intro x hx hset
    have hrange := h.in_set hx
    rw [hset] at hrange
    rw [Marked, hset, indexAfterMarkedElements, hall]
    exact hrange.2
  refine ⟨⟨h.element, h.position, h.setIndex_lt, ?_, ?_, ?_, ?_⟩, ⟨?_, ?_⟩, ?_, ?_, ?_⟩
  · intro x hx j hj
    rw [hstart, hend]
    exact h.mem_set x hx j hj
  · intro j hj
    rw [hend]
    exact h.set_end j hj
  · intro j hj
    rw [hsize]
    exact h.set_size j hj
  · intro j hj
    have hle := h.marked_le j hj
    rw [hsize, hsets]
    split
    · exact Nat.zero_le _
    · exact hle
  · intro x hx y hy
    change p.setIndex x = p.setIndex y ↔ _
    refine ⟨fun heq => ⟨heq, ?_⟩, fun hboth => hboth.1⟩
    rw [Set.mem_ofPred_eq, Set.mem_ofPred_eq, heq]
    refine and_congr_right fun hset => ?_
    exact ⟨fun _ => hmarkedAll y hy hset, fun _ => hmarkedAll x hx (heq.trans hset)⟩
  · exact fun x _ => .inl rfl
  · exact fun x _ => .inl rfl
  · intro x hx
    have hrange := h.in_set hx
    rw [Marked, hsets]
    change p.position x <
      (if p.setIndex x = k then _ else p.sets (p.setIndex x)).indexAfterMarkedElements ↔ _
    split
    · rename_i hset
      rw [hset] at hrange
      simp only [indexAfterMarkedElements]
      omega
    · rename_i hset
      exact ⟨fun hmark => ⟨hmark, hset⟩, fun hmark => hmark.1⟩
  · intro j hj
    rw [hsets]
    split
    · rw [if_neg (by omega)]
    · rename_i hne
      rw [if_pos ⟨hj, hne⟩]

theorem refineSet_spec (h : p.Valid n) (hk : k < p.size) (hpos : (p.sets k).markedCount ≠ 0) :
    ∃ p', SetRefined n p k p' ∧
      (p.refineSet k = (p', none) ∧ p'.setIndex = p.setIndex ∧ p'.size = p.size ∨
        p.refineSet k = (p', some p.size) ∧ p'.size = p.size + 1) := by
  have hle := h.marked_le k hk
  by_cases hall : (p.sets k).markedCount = (p.sets k).size
  · exact ⟨_, setRefined_unmark h hall, .inl ⟨by rw [refineSet, if_pos hall], rfl, rfl⟩⟩
  · obtain ⟨newSet, oldSet, hcut, hrefine⟩ := refineSet_cut hle hall
    have hlt := lt_of_le_of_ne hle hall
    exact ⟨_, setRefined_cutSet h hk hpos hlt hcut, .inr ⟨hrefine, rfl⟩⟩

/-- What holds before the sets of `rest` are refined, when `p₀` was the partition before the
generation and `M` its marked elements. -/
structure Partway (n : ℕ) (p₀ : Partition) (M : Set ℕ) (rest : List ℕ) (p : Partition) :
    Prop where
  valid : p.Valid n
  lists : p.Lists rest
  size_le : p₀.size ≤ p.size
  rest_lt : ∀ j ∈ rest, j < p₀.size
  same : ∀ x < n, ∀ y < n, p.setIndex x = p.setIndex y ↔
    p₀.setIndex x = p₀.setIndex y ∧ (p₀.setIndex x ∈ rest ∨ (x ∈ M ↔ y ∈ M))
  kept : ∀ x < n, p.setIndex x = p₀.setIndex x ∨
    p₀.size ≤ p.setIndex x ∧ p₀.setIndex x ∉ rest
  marked : ∀ x < n, p.Marked x ↔ x ∈ M ∧ p.setIndex x ∈ rest

theorem Valid.markedCount_ne_zero (h : p.Valid n) {x : ℕ} (hx : x < n) (hmark : p.Marked x) :
    (p.sets (p.setIndex x)).markedCount ≠ 0 := by
  have hrange := h.in_set hx
  rw [Marked, indexAfterMarkedElements] at hmark
  omega

theorem Marking.partway (h : p.Marking n) :
    Partway n p {x | p.Marked x} p.setsMarkedInCurrentGeneration p := by
  have hlisted : ∀ x < n, p.Marked x → p.setIndex x ∈ p.setsMarkedInCurrentGeneration := by
    intro x hx hmark
    refine (h.lists.mem_iff _).mpr ⟨h.valid.setIndex_lt x hx, ?_⟩
    exact h.valid.markedCount_ne_zero hx hmark
  refine ⟨h.valid, h.lists, le_rfl, fun j hj => ((h.lists.mem_iff j).mp hj).1, ?_,
    fun x _ => .inl rfl, fun x hx => ⟨fun hmark => ⟨hmark, hlisted x hx hmark⟩, And.left⟩⟩
  intro x hx y hy
  refine ⟨fun heq => ⟨heq, ?_⟩, And.left⟩
  by_cases hmem : p.setIndex x ∈ p.setsMarkedInCurrentGeneration
  · exact .inl hmem
  · refine .inr ⟨fun hmark => absurd (hlisted x hx hmark) hmem, fun hmark => ?_⟩
    exact absurd (heq ▸ hlisted y hy hmark) hmem

theorem Partway.step {p₀ : Partition} {M : Set ℕ} {rest : List ℕ}
    (h : Partway n p₀ M (k :: rest) p) (href : SetRefined n p k p')
    (hsize : p.size ≤ p'.size) : Partway n p₀ M rest p' := by
  obtain ⟨hk, hnodup⟩ := nodup_cons.mp h.lists.nodup
  have hkLt : k < p₀.size := h.rest_lt k mem_cons_self
  have hrestLt : ∀ j ∈ rest, j < p₀.size := fun j hj => h.rest_lt j (mem_cons_of_mem _ hj)
  have hsizeLe := h.size_le
  -- The set `k` is still what it was before the generation.
  have hset : ∀ x < n, p.setIndex x = k ↔ p₀.setIndex x = k := by
    intro x hx
    rcases h.kept x hx with heq | ⟨hnew, hnot⟩
    · rw [heq]
    · refine ⟨fun heq => by omega, fun heq => ?_⟩
      exact absurd (heq ▸ mem_cons_self) hnot
  have hmarked : ∀ x < n, p.setIndex x = k → (p.Marked x ↔ x ∈ M) := by
    intro x hx heq
    rw [h.marked x hx, heq]
    exact and_iff_left mem_cons_self
  refine ⟨href.valid, ⟨hnodup, ?_⟩, hsizeLe.trans hsize, hrestLt, ?_, ?_, ?_⟩
  · intro j
    have hmem := h.lists.mem_iff j
    rw [mem_cons] at hmem
    constructor
    · intro hj
      have hne : j ≠ k := fun heq => hk (heq ▸ hj)
      obtain ⟨hlt, hcount⟩ := hmem.mp (.inr hj)
      refine ⟨by omega, ?_⟩
      rwa [href.markedCount j (by omega), if_pos ⟨hlt, hne⟩]
    · rintro ⟨hlt, hcount⟩
      rw [href.markedCount j hlt] at hcount
      split at hcount
      · rename_i hold
        exact (hmem.mpr ⟨hold.1, hcount⟩).resolve_left hold.2
      · exact absurd rfl hcount
  · intro x hx y hy
    rw [href.separates.same x hx y hy, h.same x hx y hy, Set.mem_ofPred_eq, Set.mem_ofPred_eq,
      mem_cons, and_assoc]
    refine and_congr_right fun hsame => ?_
    by_cases hxk : p₀.setIndex x = k
    · have hx' := (hset x hx).mpr hxk
      have hy' := (hset y hy).mpr (hsame.symm.trans hxk)
      simp only [hxk, true_or, hx', hy', hmarked x hx hx', hmarked y hy hy', true_and, hk, false_or]
    · have hx' : p.setIndex x ≠ k := fun heq => hxk ((hset x hx).mp heq)
      have hy' : p.setIndex y ≠ k := fun heq => hxk (hsame.trans ((hset y hy).mp heq))
      simp only [hxk, hx', hy', false_or, false_and, and_true]
  · intro x hx
    rcases href.kept x hx with heq | ⟨hnew, hold⟩
    · rw [heq]
      refine (h.kept x hx).imp id fun ⟨hle, hnot⟩ => ⟨hle, fun hmem => ?_⟩
      exact hnot (mem_cons_of_mem _ hmem)
    · right
      rw [hnew, (hset x hx).mp hold]
      exact ⟨hsizeLe, hk⟩
  · intro x hx
    rw [href.marked x hx, h.marked x hx, mem_cons, and_assoc]
    refine and_congr_right fun _ => ?_
    rcases href.kept x hx with heq | ⟨hnew, hold⟩
    · rw [heq]
      refine ⟨fun hor => hor.1.resolve_left hor.2, fun hmem => ⟨.inr hmem, ?_⟩⟩
      exact fun heq' => hk (heq' ▸ hmem)
    · have hnot : p'.setIndex x ∉ rest := by
        intro hmem
        have := hrestLt _ hmem
        omega
      simp [hold, hnot]

section Generation

variable {σ : Type*} {function : Partition → ℕ → σ → σ} {p₀ : Partition} {M : Set ℕ}

/-- What the function that is called for a new set has to keep. -/
def KeptByCalls (n : ℕ) (M : Set ℕ) (function : Partition → ℕ → σ → σ)
    (I : (ℕ → ℕ) → ℕ → σ → Prop) : Prop :=
  ∀ p k p' s, p.Valid n → SetRefined n p k p' → p'.size = p.size + 1 →
    (∀ x < n, p.setIndex x = k → (p.Marked x ↔ x ∈ M)) →
    I p.setIndex p.size s → I p'.setIndex p'.size (function p' p.size s)

theorem refineSets_spec {I : (ℕ → ℕ) → ℕ → σ → Prop} (hI : KeptByCalls n M function I)
    (rest : List ℕ) :
    ∀ (p : Partition) (s : σ), Partway n p₀ M rest p → I p.setIndex p.size s →
      Partway n p₀ M [] (refineSets function p s rest).1 ∧
        I (refineSets function p s rest).1.setIndex (refineSets function p s rest).1.size
          (refineSets function p s rest).2 := by
  induction rest with
  | nil => exact fun p s h hs => ⟨h, hs⟩
  | cons k rest ih =>
    intro p s h hs
    obtain ⟨hk, hcount⟩ := (h.lists.mem_iff k).mp mem_cons_self
    have hmarked : ∀ x < n, p.setIndex x = k → (p.Marked x ↔ x ∈ M) := by
      intro x hx heq
      rw [h.marked x hx, heq]
      exact and_iff_left mem_cons_self
    obtain ⟨p', href, ⟨heq, hindex, hsize⟩ | ⟨heq, hsize⟩⟩ := refineSet_spec h.valid hk hcount
    · rw [refineSets, heq]
      refine ih p' s (h.step href hsize.ge) ?_
      rwa [hindex, hsize]
    · rw [refineSets, heq]
      refine ih p' _ (h.step href (by omega)) ?_
      exact hI p k p' s h.valid href hsize hmarked hs

/-- A generation separates the marked elements from the others, and leaves none marked. -/
theorem refineGeneration_spec {I : (ℕ → ℕ) → ℕ → σ → Prop} (h : p.Marking n)
    (hI : KeptByCalls n {x | p.Marked x} function I) (s : σ) (hs : I p.setIndex p.size s) :
    (p.refineGeneration function s).1.Clear n ∧
      Separates (elements n) p.size {x | p.Marked x} p.setIndex
        (p.refineGeneration function s).1.setIndex ∧
      p.size ≤ (p.refineGeneration function s).1.size ∧
      I (p.refineGeneration function s).1.setIndex (p.refineGeneration function s).1.size
        (p.refineGeneration function s).2 := by
  obtain ⟨hdone, hs'⟩ := refineSets_spec hI p.setsMarkedInCurrentGeneration p s h.partway hs
  have hvalid := hdone.valid
  refine ⟨⟨⟨hvalid.element, hvalid.position, hvalid.setIndex_lt, hvalid.mem_set, hvalid.set_end,
    hvalid.set_size, hvalid.marked_le⟩, rfl, ?_⟩, ⟨?_, ?_⟩, hdone.size_le, hs'⟩
  · intro k hk
    by_contra hne
    exact not_mem_nil ((hdone.lists.mem_iff k).mpr ⟨hk, hne⟩)
  · intro x hx y hy
    refine (hdone.same x hx y hy).trans (and_congr_right fun _ => ?_)
    simp only [not_mem_nil, false_or]
  · exact fun x hx => (hdone.kept x hx).imp id And.left

theorem Marking.refine (h : p.Marking n) : p.refine.Clear n ∧
      Separates (elements n) p.size {x | p.Marked x} p.setIndex p.refine.setIndex ∧
      p.size ≤ p.refine.size := by
  obtain ⟨hclear, hsep, hsize, _⟩ := refineGeneration_spec
    (I := fun _ _ _ => True) h (fun _ _ _ _ _ _ _ _ _ => trivial) () trivial
  exact ⟨hclear, hsep, hsize⟩

end Generation

end Partition

end WebKit.ContentExtensions
