import Mathlib

/-!
# `Partition`

The partition that `DFAMinimizer` keeps of the elements `0 .. n - 1`. All elements are in
one vector, `partitionedElements`; a set is a range of it, the marked elements of the set
first. `refineGeneration` splits every set that has marked and unmarked elements. The
smaller part is the new set, so that an element moves seldom.

A vector is a function on its indices here; only the values below its size matter.
`Partition.Valid` says that the two vectors of elements and positions are inverse to each
other and that the ranges of the sets are disjoint and cover them.
-/

namespace WebKit.ContentExtensions

open Function List Equiv

structure SetDescriptor where
  start : ℕ
  size : ℕ
  markedCount : ℕ
  deriving DecidableEq, Repr

namespace SetDescriptor

def indexAfterMarkedElements (descriptor : SetDescriptor) : ℕ :=
  descriptor.start + descriptor.markedCount

/-- `end()`. -/
def endIndex (descriptor : SetDescriptor) : ℕ := descriptor.start + descriptor.size

end SetDescriptor

structure Partition where
  sets : ℕ → SetDescriptor
  /-- The number of sets. -/
  size : ℕ
  partitionedElements : ℕ → ℕ
  elementPositionInPartitionedNodes : ℕ → ℕ
  elementToSetMap : ℕ → ℕ
  setsMarkedInCurrentGeneration : List ℕ

namespace Partition

/-- A partition that was not initialized. -/
def empty : Partition where
  sets _ := ⟨0, 0, 0⟩
  size := 0
  partitionedElements _ := 0
  elementPositionInPartitionedNodes _ := 0
  elementToSetMap _ := 0
  setsMarkedInCurrentGeneration := []

def initialized (size : ℕ) : Partition :=
  if size = 0 then empty
  else
    { sets := fun _ => ⟨0, size, 0⟩
      size := 1
      partitionedElements := fun i => i
      elementPositionInPartitionedNodes := fun i => i
      elementToSetMap := fun _ => 0
      setsMarkedInCurrentGeneration := [] }

def markElementInCurrentGeneration (p : Partition) (elementIndex : ℕ) : Partition :=
  -- Swap the node with the first unmarked node.
  let setIndex := p.elementToSetMap elementIndex
  let setDescriptor := p.sets setIndex
  let elementPosition := p.elementPositionInPartitionedNodes elementIndex
  let firstUnmarkedPosition := setDescriptor.indexAfterMarkedElements
  let firstUnmarkedElement := p.partitionedElements firstUnmarkedPosition
  { p with
    partitionedElements :=
      update (update p.partitionedElements firstUnmarkedPosition elementIndex)
        elementPosition firstUnmarkedElement
    elementPositionInPartitionedNodes :=
      update (update p.elementPositionInPartitionedNodes elementIndex
        firstUnmarkedPosition) firstUnmarkedElement elementPosition
    setsMarkedInCurrentGeneration :=
      if setDescriptor.markedCount = 0 then p.setsMarkedInCurrentGeneration ++ [setIndex]
      else p.setsMarkedInCurrentGeneration
    sets := update p.sets setIndex
      { setDescriptor with markedCount := setDescriptor.markedCount + 1 } }

/-- The body of the loop of `refineGeneration`: the index of the new set, if the set was
split. The descriptors count in `unsigned`s. -/
def refineSet (p : Partition) (setIndex : ℕ) : Partition × Option ℕ :=
  let setDescriptor := p.sets setIndex
  if setDescriptor.markedCount = setDescriptor.size then
    -- Everything is marked, there is nothing to refine.
    ({ p with sets := update p.sets setIndex { setDescriptor with markedCount := 0 } }, none)
  else
    let newSetIsMarkedSet := setDescriptor.markedCount * 2 % 2 ^ 32 ≤ setDescriptor.size
    let newSet : SetDescriptor :=
      if newSetIsMarkedSet then ⟨setDescriptor.start, setDescriptor.markedCount, 0⟩
      else ⟨setDescriptor.start + setDescriptor.markedCount,
        setDescriptor.size - setDescriptor.markedCount, 0⟩
    let start :=
      if newSetIsMarkedSet then setDescriptor.start + setDescriptor.markedCount
      else setDescriptor.start
    let newSetIndex := p.size
    ({ p with
        sets := update (update p.sets setIndex ⟨start, setDescriptor.size - newSet.size, 0⟩)
          newSetIndex newSet
        size := p.size + 1
        elementToSetMap := (List.range' newSet.start newSet.size).foldl
          (fun map i => update map (p.partitionedElements i) newSetIndex)
          p.elementToSetMap },
      some newSetIndex)

/-- The loop of `refineGeneration` over the rest of the marked sets. The function that it
calls on the new sets must not modify the partition; what it modifies is a state. -/
def refineSets {σ : Type*} (function : Partition → ℕ → σ → σ) :
    Partition → σ → List ℕ → Partition × σ
  | p, s, [] => (p, s)
  | p, s, setIndex :: rest =>
    match p.refineSet setIndex with
    | (p, none) => refineSets function p s rest
    | (p, some newSetIndex) => refineSets function p (function p newSetIndex s) rest

def refineGeneration {σ : Type*} (p : Partition) (function : Partition → ℕ → σ → σ) (s : σ) :
    Partition × σ :=
  let (p, s) := refineSets function p s p.setsMarkedInCurrentGeneration
  ({ p with setsMarkedInCurrentGeneration := [] }, s)

/-- `refineGeneration` with the function that does nothing. -/
def refine (p : Partition) : Partition := (p.refineGeneration (fun _ _ s => s) ()).1

/-- The elements of a set, in the order in which `iterateSet` calls its function on them. -/
def elementsInSet (p : Partition) (setIndex : ℕ) : List ℕ :=
  (List.range' (p.sets setIndex).start (p.sets setIndex).size).map p.partitionedElements

def iterateSet {σ : Type*} (p : Partition) (setIndex : ℕ) (function : σ → ℕ → σ) (s : σ) : σ :=
  (p.elementsInSet setIndex).foldl function s

/-- Index of the set containing the node. -/
def setIndex (p : Partition) (elementIndex : ℕ) : ℕ := p.elementToSetMap elementIndex

def firstElementInSet (p : Partition) (setIndex : ℕ) : ℕ :=
  p.partitionedElements (p.sets setIndex).start

/-! ## Valid partitions -/

def position (p : Partition) (x : ℕ) : ℕ := p.elementPositionInPartitionedNodes x

def Marked (p : Partition) (x : ℕ) : Prop :=
  p.position x < (p.sets (p.setIndex x)).indexAfterMarkedElements

/-- The vectors of a partition of `n` elements. -/
structure Valid (n : ℕ) (p : Partition) : Prop where
  element : ∀ x < n, p.position x < n ∧ p.partitionedElements (p.position x) = x
  position : ∀ i < n, p.partitionedElements i < n ∧ p.position (p.partitionedElements i) = i
  setIndex_lt : ∀ x < n, p.setIndex x < p.size
  mem_set : ∀ x < n, ∀ k < p.size, p.setIndex x = k ↔
    (p.sets k).start ≤ p.position x ∧ p.position x < (p.sets k).endIndex
  set_end : ∀ k < p.size, (p.sets k).endIndex ≤ n
  set_size : ∀ k < p.size, 0 < (p.sets k).size
  marked_le : ∀ k < p.size, (p.sets k).markedCount ≤ (p.sets k).size

/-- The list holds the sets with a marked element. -/
structure Lists (p : Partition) (marked : List ℕ) : Prop where
  nodup : marked.Nodup
  mem_iff : ∀ k, k ∈ marked ↔ k < p.size ∧ (p.sets k).markedCount ≠ 0

/-- Between two generations no set has a marked element. -/
structure Clear (n : ℕ) (p : Partition) : Prop where
  valid : p.Valid n
  lists : p.setsMarkedInCurrentGeneration = []
  marked : ∀ k < p.size, (p.sets k).markedCount = 0

/-- While elements are marked. -/
structure Marking (n : ℕ) (p : Partition) : Prop where
  valid : p.Valid n
  lists : p.Lists p.setsMarkedInCurrentGeneration

variable {n : ℕ} {p : Partition}

namespace Valid

section

variable (h : p.Valid n)
include h

theorem position_inj {x y : ℕ} (hx : x < n) (hy : y < n)
    (heq : p.position x = p.position y) : x = y := by
  rw [← (h.element x hx).2, heq, (h.element y hy).2]

theorem in_set {x : ℕ} (hx : x < n) : (p.sets (p.setIndex x)).start ≤ p.position x ∧
      p.position x < (p.sets (p.setIndex x)).endIndex :=
  (h.mem_set x hx _ (h.setIndex_lt x hx)).mp rfl

theorem element_in_set {k i : ℕ} (hk : k < p.size)
    (hi : (p.sets k).start ≤ i ∧ i < (p.sets k).endIndex) :
    p.partitionedElements i < n ∧ p.setIndex (p.partitionedElements i) = k := by
  obtain ⟨hlt, hpos⟩ := h.position i (hi.2.trans_le (h.set_end k hk))
  refine ⟨hlt, (h.mem_set _ hlt k hk).mpr ?_⟩
  rwa [hpos]

theorem mem_elementsInSet {k x : ℕ} (hk : k < p.size) :
    x ∈ p.elementsInSet k ↔ x < n ∧ p.setIndex x = k := by
  simp only [elementsInSet, mem_map, mem_range'_1]
  constructor
  · rintro ⟨i, hi, rfl⟩
    exact h.element_in_set hk hi
  · rintro ⟨hx, hset⟩
    refine ⟨p.position x, ?_, (h.element x hx).2⟩
    exact (h.mem_set x hx k hk).mp hset

theorem nodup_elementsInSet {k : ℕ} (hk : k < p.size) :
    (p.elementsInSet k).Nodup := by
  refine List.Nodup.map_on ?_ nodup_range'
  intro i hi j hj heq
  have hend := h.set_end k hk
  rw [SetDescriptor.endIndex] at hend
  rw [mem_range'_1] at hi hj
  rw [← (h.position i (by omega)).2, heq, (h.position j (by omega)).2]

theorem exists_in_set {k : ℕ} (hk : k < p.size) : ∃ x < n, p.setIndex x = k := by
  have hsize := h.set_size k hk
  exact ⟨_, h.element_in_set hk ⟨le_rfl, by rw [SetDescriptor.endIndex]; omega⟩⟩

theorem size_le : p.size ≤ n := by
  have hsub : Finset.range p.size ⊆ (Finset.range n).image p.setIndex := by
    intro k hk
    obtain ⟨x, hx, hset⟩ := h.exists_in_set (Finset.mem_range.mp hk)
    exact Finset.mem_image.mpr ⟨x, Finset.mem_range.mpr hx, hset⟩
  have hcard := (Finset.card_le_card hsub).trans Finset.card_image_le
  rwa [Finset.card_range, Finset.card_range] at hcard

end

end Valid

theorem Clear.marking (h : p.Clear n) : p.Marking n where
  valid := h.valid
  lists := by
    rw [h.lists]
    refine ⟨nodup_nil, fun k => ?_⟩
    simp only [not_mem_nil, false_iff, not_and, not_not]
    exact h.marked k

theorem Clear.not_marked (h : p.Clear n) {x : ℕ} (hx : x < n) : ¬ p.Marked x := by
  have hset := h.valid.in_set hx
  have hzero := h.marked _ (h.valid.setIndex_lt x hx)
  rw [Marked, SetDescriptor.indexAfterMarkedElements, hzero]
  omega

theorem clear_initialized (n : ℕ) : (initialized n).Clear n := by
  rw [initialized]
  split
  · rename_i hn
    subst hn
    refine ⟨⟨?_, ?_, ?_, ?_, ?_, ?_, ?_⟩, rfl, ?_⟩ <;> simp [empty]
  · refine ⟨⟨?_, ?_, ?_, ?_, ?_, ?_, ?_⟩, rfl, ?_⟩ <;>
      simp [position, setIndex, SetDescriptor.endIndex]
    omega

theorem setIndex_initialized (n x : ℕ) : (initialized n).setIndex x = 0 := by
  rw [initialized]
  split <;> rfl

/-! ## Marking an element -/

section Mark

variable {e : ℕ}

theorem setIndex_mark (p : Partition) (e : ℕ) :
    (p.markElementInCurrentGeneration e).setIndex = p.setIndex := rfl

/-- The two positions that are swapped. -/
def markSwap (p : Partition) (e : ℕ) : Equiv.Perm ℕ :=
  swap (p.sets (p.setIndex e)).indexAfterMarkedElements (p.position e)

theorem Valid.partitionedElements_mark (h : p.Valid n) (he : e < n) (i : ℕ) :
    (p.markElementInCurrentGeneration e).partitionedElements i =
      p.partitionedElements (p.markSwap e i) := by
  have helem := (h.element e he).2
  set first := (p.sets (p.setIndex e)).indexAfterMarkedElements with hfirst
  have hmark : (p.markElementInCurrentGeneration e).partitionedElements i =
      if i = p.position e then p.partitionedElements first
      else if i = first then e else p.partitionedElements i := by
    simp only [markElementInCurrentGeneration, update_apply]
    rfl
  rw [hmark, markSwap, swap_apply_def, ← hfirst]
  split_ifs with hpos hfirst' hfirst'
  · rw [← hpos, hfirst']
  · rfl
  · rw [helem]
  · rfl

theorem Valid.position_mark (h : p.Valid n) (he : e < n)
    (hfirst : (p.sets (p.setIndex e)).indexAfterMarkedElements < n) {x : ℕ} (hx : x < n) :
    (p.markElementInCurrentGeneration e).position x = p.markSwap e (p.position x) := by
  set first := (p.sets (p.setIndex e)).indexAfterMarkedElements with hfirst'
  obtain ⟨hlt, hpos⟩ := h.position first hfirst
  have hmark : (p.markElementInCurrentGeneration e).position x =
      if x = p.partitionedElements first then p.position e
      else if x = e then first else p.position x := by
    simp only [Partition.position, markElementInCurrentGeneration, update_apply]
    rfl
  rw [hmark, markSwap, swap_apply_def, ← hfirst']
  have hiff : x = p.partitionedElements first ↔ p.position x = first := by
    constructor
    · rintro rfl
      exact hpos
    · intro heq
      rw [← heq, (h.element x hx).2]
  have hiff' : x = e ↔ p.position x = p.position e := ⟨fun heq => by rw [heq], h.position_inj hx he⟩
  simp only [hiff, hiff']

section

variable (p : Partition) (e k : ℕ)

theorem sets_mark : (p.markElementInCurrentGeneration e).sets k =
      if k = p.setIndex e then
        { p.sets (p.setIndex e) with markedCount := (p.sets (p.setIndex e)).markedCount + 1 }
      else p.sets k := by
  simp only [markElementInCurrentGeneration, update_apply]
  rfl

theorem start_mark :
    ((p.markElementInCurrentGeneration e).sets k).start = (p.sets k).start := by
  rw [sets_mark]
  split
  · rename_i heq
    rw [heq]
  · rfl

theorem endIndex_mark :
    ((p.markElementInCurrentGeneration e).sets k).endIndex = (p.sets k).endIndex := by
  rw [sets_mark]
  split
  · rename_i heq
    rw [heq]
    rfl
  · rfl

end

theorem Valid.firstUnmarked (h : p.Valid n) (he : e < n) (hnot : ¬ p.Marked e) :
    (p.sets (p.setIndex e)).start ≤ (p.sets (p.setIndex e)).indexAfterMarkedElements ∧
      (p.sets (p.setIndex e)).indexAfterMarkedElements ≤ p.position e ∧
      (p.sets (p.setIndex e)).indexAfterMarkedElements < (p.sets (p.setIndex e)).endIndex ∧
      (p.sets (p.setIndex e)).indexAfterMarkedElements < n := by
  have hset := h.in_set he
  have hend := h.set_end _ (h.setIndex_lt e he)
  have hle : (p.sets (p.setIndex e)).indexAfterMarkedElements ≤ p.position e :=
    Nat.le_of_not_lt hnot
  refine ⟨Nat.le_add_right _ _, hle, ?_, ?_⟩ <;> omega

theorem Valid.markSwap_in_set (h : p.Valid n) (he : e < n) (hnot : ¬ p.Marked e) {i k : ℕ}
    (hk : k < p.size) :
    (p.sets k).start ≤ p.markSwap e i ∧ p.markSwap e i < (p.sets k).endIndex ↔
      (p.sets k).start ≤ i ∧ i < (p.sets k).endIndex := by
  obtain ⟨hstart, hle, hend, hlt⟩ := h.firstUnmarked he hnot
  have hsetLt := h.setIndex_lt e he
  have hpos := h.mem_set e he k hk
  -- Both positions lie in the range of the set of `e` and in no other.
  have hfirst : (p.sets k).start ≤ (p.sets (p.setIndex e)).indexAfterMarkedElements ∧
      (p.sets (p.setIndex e)).indexAfterMarkedElements < (p.sets k).endIndex ↔
        p.setIndex e = k := by
    obtain ⟨helem, hset⟩ := h.element_in_set hsetLt ⟨hstart, hend⟩
    have hmem := h.mem_set _ helem k hk
    rw [hset, (h.position _ hlt).2] at hmem
    exact hmem.symm
  rw [markSwap, swap_apply_def]
  split_ifs with hi hi'
  · rw [← hpos, hi, hfirst]
  · rw [hfirst, hi', ← hpos]
  · rfl

theorem Marking.mark (h : p.Marking n) (he : e < n) (hnot : ¬ p.Marked e) :
    (p.markElementInCurrentGeneration e).Marking n ∧
      ∀ x < n, (p.markElementInCurrentGeneration e).Marked x ↔ p.Marked x ∨ x = e := by
  obtain ⟨hvalid, hlists⟩ := h
  obtain ⟨hstart, hle, hend, hlt⟩ := hvalid.firstUnmarked he hnot
  have hsetLt := hvalid.setIndex_lt e he
  have hpos := fun x hx => hvalid.position_mark he hlt (x := x) hx
  have hpositionLt : p.position e < n := (hvalid.element e he).1
  have hswapLt : ∀ i < n, p.markSwap e i < n := by
    intro i hi
    rw [markSwap, swap_apply_def]
    split_ifs <;> omega
  refine ⟨⟨⟨?_, ?_, hvalid.setIndex_lt, ?_, ?_, ?_, ?_⟩, ?_, ?_⟩, ?_⟩
  · intro x hx
    obtain ⟨hxLt, hx'⟩ := hvalid.element x hx
    rw [hpos x hx, hvalid.partitionedElements_mark he, markSwap, swap_apply_self]
    exact ⟨hswapLt _ hxLt, hx'⟩
  · intro i hi
    obtain ⟨hiLt, hi'⟩ := hvalid.position _ (hswapLt i hi)
    rw [hvalid.partitionedElements_mark he, hpos _ hiLt, hi', markSwap, swap_apply_self]
    exact ⟨hiLt, rfl⟩
  · intro x hx k hk
    rw [start_mark, endIndex_mark, hpos x hx, hvalid.markSwap_in_set he hnot hk]
    exact hvalid.mem_set x hx k hk
  · intro k hk
    rw [endIndex_mark]
    exact hvalid.set_end k hk
  · intro k hk
    rw [sets_mark]
    split
    · exact hvalid.set_size _ hsetLt
    · exact hvalid.set_size k hk
  · intro k hk
    rw [sets_mark]
    split
    · simp only [SetDescriptor.indexAfterMarkedElements, SetDescriptor.endIndex] at hend
      dsimp only
      omega
    · exact hvalid.marked_le k hk
  · simp only [markElementInCurrentGeneration]
    split
    · rename_i hzero
      refine List.Nodup.append hlists.nodup (nodup_singleton _) ?_
      intro k hk hk'
      obtain rfl := mem_singleton.mp hk'
      exact ((hlists.mem_iff _).mp hk).2 hzero
    · exact hlists.nodup
  · intro k
    have hmem : k ∈ (p.markElementInCurrentGeneration e).setsMarkedInCurrentGeneration ↔
        k ∈ p.setsMarkedInCurrentGeneration ∨ k = p.setIndex e := by
      have hold := hlists.mem_iff (p.setIndex e)
      simp only [markElementInCurrentGeneration]
      split
      · rw [mem_append, mem_singleton]
        rfl
      · rename_i hne
        refine ⟨.inl, fun hor => hor.elim id ?_⟩
        rintro rfl
        exact hold.mpr ⟨hsetLt, hne⟩
    rw [hmem, hlists.mem_iff, sets_mark]
    split
    · rename_i heq
      simp only [heq, or_true, true_iff]
      exact ⟨hsetLt, Nat.succ_ne_zero _⟩
    · rename_i hne
      simp only [hne, or_false]
      rfl
  · intro x hx
    rw [Marked, setIndex_mark, hpos x hx, sets_mark]
    by_cases hxe : p.setIndex x = p.setIndex e
    · rw [if_pos hxe, Marked, hxe]
      have hiff : x = e ↔ p.position x = p.position e :=
        ⟨fun heq => by rw [heq], hvalid.position_inj hx he⟩
      rw [hiff, markSwap, swap_apply_def]
      split_ifs <;> simp only [SetDescriptor.indexAfterMarkedElements] at * <;> omega
    · have hne : x ≠ e := by
        rintro rfl
        exact hxe rfl
      have hsame : p.markSwap e (p.position x) = p.position x := by
        refine swap_apply_of_ne_of_ne ?_ ?_
        · intro heq
          obtain ⟨helem, hset'⟩ := hvalid.element_in_set hsetLt ⟨hstart, hend⟩
          rw [← heq, (hvalid.element x hx).2] at hset'
          exact hxe hset'
        · exact fun heq => hne (hvalid.position_inj hx he heq)
      rw [if_neg hxe, hsame, Marked]
      simp [hne]

theorem Marking.markAll {l : List ℕ} (h : p.Marking n) (hlt : ∀ e ∈ l, e < n) (hnodup : l.Nodup)
    (hnot : ∀ e ∈ l, ¬ p.Marked e) :
    (l.foldl markElementInCurrentGeneration p).Marking n ∧
      (l.foldl markElementInCurrentGeneration p).setIndex = p.setIndex ∧
      (l.foldl markElementInCurrentGeneration p).size = p.size ∧
      ∀ x < n, (l.foldl markElementInCurrentGeneration p).Marked x ↔ p.Marked x ∨ x ∈ l := by
  induction l generalizing p with
  | nil => exact ⟨h, rfl, rfl, fun x _ => by simp⟩
  | cons e rest ih =>
    obtain ⟨hnew, hrest⟩ := nodup_cons.mp hnodup
    have he := hlt e mem_cons_self
    obtain ⟨hmark, hmarked⟩ := h.mark he (hnot e mem_cons_self)
    obtain ⟨hmarking, hindex, hsize, hall⟩ := ih hmark
      (fun x hx => hlt x (mem_cons_of_mem _ hx)) hrest (by
        intro x hx hmarkedX
        rcases (hmarked x (hlt x (mem_cons_of_mem _ hx))).mp hmarkedX with hold | rfl
        · exact hnot x (mem_cons_of_mem _ hx) hold
        · exact hnew hx)
    refine ⟨hmarking, hindex, hsize, fun x hx => ?_⟩
    rw [foldl_cons, hall x hx, hmarked x hx, mem_cons, or_assoc]

end Mark

end Partition

end WebKit.ContentExtensions
