import WebKit.ContentExtensions.PartitionRefinement
import WebKit.Transition.Run

/-!
# Generations of a `Partition`

Elements are marked and generations refined in any order. The sets stay a tiling of the
positions and the marked elements stay in front (`PartitionSound`), and a generation gives the
new index to a part of at most half the size (`Splits`): the vectors of a partition cannot be
so long that twice the number of marked elements overflows.
-/

namespace WebKit.ContentExtensions

open List

/-- `initialize`, with the crash of `reserveInitialCapacity` when the capacity is above
`std::numeric_limits<unsigned>::max() / sizeof(SetDescriptor)`. -/
def Partition.initializeReserved (size : ℕ) : Option Partition :=
  if (2 ^ 32 - 1) / 12 < size then none else some (initialized size)

structure MarkedPartition where
  partition : Partition
  /-- The elements that were marked in the current generation. -/
  marked : List ℕ

inductive PartitionEvent
  | mark (element : ℕ)
  | refineGeneration

inductive PartitionStep (n : ℕ) : MarkedPartition → PartitionEvent → MarkedPartition → Prop
  | mark {s : MarkedPartition} {element : ℕ} : element < n → element ∉ s.marked →
    PartitionStep n s (.mark element)
      ⟨s.partition.markElementInCurrentGeneration element, element :: s.marked⟩
  | refineGeneration {s : MarkedPartition} {σ : Type} (function : Partition → ℕ → σ → σ)
      (state : σ) :
    PartitionStep n s .refineGeneration ⟨(s.partition.refineGeneration function state).1, []⟩

structure PartitionSound (n : ℕ) (s : MarkedPartition) : Prop where
  tiles : ∀ i < n, ∃! k, k < s.partition.size ∧
    (s.partition.sets k).start ≤ i ∧ i < (s.partition.sets k).endIndex
  nonempty : ∀ k < s.partition.size, 0 < (s.partition.sets k).size ∧
    (s.partition.sets k).endIndex ≤ n
  element : ∀ x < n, s.partition.position x < n ∧
    s.partition.partitionedElements (s.partition.position x) = x
  position : ∀ i < n, s.partition.partitionedElements i < n ∧
    s.partition.position (s.partition.partitionedElements i) = i
  setIndex : ∀ x < n, s.partition.setIndex x < s.partition.size ∧
    (s.partition.sets (s.partition.setIndex x)).start ≤ s.partition.position x ∧
    s.partition.position x < (s.partition.sets (s.partition.setIndex x)).endIndex
  markedCount : ∀ k < s.partition.size,
    (s.partition.sets k).markedCount ≤ (s.partition.sets k).size
  marked : ∀ x < n, x ∈ s.marked ↔ s.partition.position x <
    (s.partition.sets (s.partition.setIndex x)).indexAfterMarkedElements

/-- The partition after a generation: each set is divided into its marked and its other elements,
and a part with a new index has at most half the size of the set. -/
structure Splits (n : ℕ) (s : MarkedPartition) (p : Partition) : Prop where
  same : ∀ x < n, ∀ y < n, p.setIndex x = p.setIndex y ↔
    s.partition.setIndex x = s.partition.setIndex y ∧ (x ∈ s.marked ↔ y ∈ s.marked)
  half : ∀ x < n, p.setIndex x = s.partition.setIndex x ∨ s.partition.size ≤ p.setIndex x ∧
    2 * (p.sets (p.setIndex x)).size ≤ (s.partition.sets (s.partition.setIndex x)).size

namespace Partition

open Refinement

variable {n : ℕ} {p p₀ : Partition} {k : ℕ} {M : Set ℕ} {σ : Type*}
  {function : Partition → ℕ → σ → σ}

theorem refineSet_sets {j : ℕ} (hj : j < p.size) (hjk : j ≠ k) :
    (p.refineSet k).1.sets j = p.sets j := by
  unfold refineSet
  dsimp only
  split
  · exact Function.update_of_ne hjk _ _
  · dsimp only
    rw [Function.update_of_ne hj.ne, Function.update_of_ne hjk]

theorem refineSet_half (hlt : (p.sets k).markedCount < (p.sets k).size)
    (hsmall : (p.sets k).size ≤ (2 ^ 32 - 1) / 12) :
    2 * ((p.refineSet k).1.sets p.size).size ≤ (p.sets k).size := by
  unfold refineSet
  dsimp only
  rw [if_neg hlt.ne]
  dsimp only
  rw [Function.update_self, Nat.mod_eq_of_lt (by omega)]
  split
  all_goals
    dsimp only
    omega

/-- What holds of the sizes before the sets of `rest` are refined. -/
structure Halved (n : ℕ) (p₀ : Partition) (rest : List ℕ) (p : Partition) : Prop where
  rest : ∀ k ∈ rest, p.sets k = p₀.sets k
  half : ∀ x < n, p.setIndex x = p₀.setIndex x ∨ p₀.size ≤ p.setIndex x ∧
    2 * (p.sets (p.setIndex x)).size ≤ (p₀.sets (p₀.setIndex x)).size

theorem Halved.step {rest : List ℕ} {p' : Partition} (h : Halved n p₀ (k :: rest) p)
    (hpart : Partway n p₀ M (k :: rest) p) (href : SetRefined n p k p')
    (hsets : ∀ j < p.size, j ≠ k → p'.sets j = p.sets j)
    (hhalf : p'.size = p.size + 1 → 2 * (p'.sets p.size).size ≤ (p.sets k).size)
    (hsize : p'.size = p.size ∧ p'.setIndex = p.setIndex ∨ p'.size = p.size + 1) :
    Halved n p₀ rest p' := by
  obtain ⟨hk, -⟩ := nodup_cons.mp hpart.lists.nodup
  have hkLt : k < p₀.size := hpart.rest_lt k mem_cons_self
  have hle := hpart.size_le
  refine ⟨fun j hj => ?_, fun x hx => ?_⟩
  · have hjLt := hpart.rest_lt j (mem_cons_of_mem _ hj)
    rw [hsets j (by omega) (by rintro rfl; exact hk hj)]
    exact h.rest j (mem_cons_of_mem _ hj)
  · have hxlt := hpart.valid.setIndex_lt x hx
    have hnew : p'.setIndex x = p.setIndex x ∨ p'.size = p.size + 1 ∧
        p'.setIndex x = p.size ∧ p.setIndex x = k := by
      rcases hsize with ⟨-, heq⟩ | hsize
      · exact .inl (congrFun heq x)
      · exact (href.kept x hx).imp id fun hkept => ⟨hsize, hkept⟩
    rcases hnew with heq | ⟨hsize, heq, hold⟩
    · rw [heq]
      refine (h.half x hx).imp id fun ⟨hge, hhalf⟩ => ⟨hge, ?_⟩
      rwa [hsets _ hxlt (by omega)]
    · have hold0 : p₀.setIndex x = k := by
        rcases h.half x hx with heq' | ⟨hge, -⟩
        · rw [← heq', hold]
        · omega
      right
      rw [heq, hold0, ← h.rest k mem_cons_self]
      exact ⟨hle, hhalf hsize⟩

theorem refineSets_halved (hn : n ≤ (2 ^ 32 - 1) / 12) (rest : List ℕ) :
    ∀ (p : Partition) (s : σ), Partway n p₀ M rest p → Halved n p₀ rest p →
      Halved n p₀ [] (refineSets function p s rest).1 := by
  induction rest with
  | nil => exact fun p s _ h => h
  | cons k rest ih =>
    intro p s hpart h
    obtain ⟨hk, hcount⟩ := (hpart.lists.mem_iff k).mp mem_cons_self
    have hsets : ∀ j < p.size, j ≠ k → (p.refineSet k).1.sets j = p.sets j :=
      fun j hj hjk => refineSet_sets hj hjk
    obtain ⟨p', href, ⟨heq, hindex, hsize⟩ | ⟨heq, hsize⟩⟩ := refineSet_spec hpart.valid hk hcount
    · rw [heq] at hsets
      rw [refineSets, heq]
      exact ih p' s (hpart.step href hsize.ge)
        (h.step hpart href hsets (fun hne => by omega) (.inl ⟨hsize, hindex⟩))
    · have hlt : (p.sets k).markedCount < (p.sets k).size := by
        refine (hpart.valid.marked_le k hk).lt_of_ne fun hall => ?_
        rw [refineSet, if_pos hall] at heq
        cases heq
      have hend := hpart.valid.set_end k hk
      have hhalf := refineSet_half hlt (by rw [SetDescriptor.endIndex] at hend; omega)
      rw [heq] at hsets hhalf
      rw [refineSets, heq]
      exact ih p' _ (hpart.step href (by omega))
        (h.step hpart href hsets (fun _ => hhalf) (.inr hsize))

end Partition

namespace MarkedPartition

open Partition

variable {n : ℕ} {s t : MarkedPartition} {event : PartitionEvent}

structure Inv (n : ℕ) (s : MarkedPartition) : Prop where
  marking : s.partition.Marking n
  marked : ∀ x < n, x ∈ s.marked ↔ s.partition.Marked x

theorem Inv.sound (h : s.Inv n) : PartitionSound n s where
  tiles i hi := by
    have hvalid := h.marking.valid
    obtain ⟨hlt, hpos⟩ := hvalid.position i hi
    refine ⟨s.partition.setIndex (s.partition.partitionedElements i), ⟨hvalid.setIndex_lt _ hlt, ?_⟩,
      fun k ⟨hk, hin⟩ => (hvalid.element_in_set hk hin).2.symm⟩
    have hset := hvalid.in_set hlt
    rwa [hpos] at hset
  nonempty k hk := ⟨h.marking.valid.set_size k hk, h.marking.valid.set_end k hk⟩
  element := h.marking.valid.element
  position := h.marking.valid.position
  setIndex x hx := ⟨h.marking.valid.setIndex_lt x hx, h.marking.valid.in_set hx⟩
  markedCount := h.marking.valid.marked_le
  marked := h.marked

theorem Inv.refined (h : s.Inv n) (hn : n ≤ (2 ^ 32 - 1) / 12)
    (hstep : PartitionStep n s .refineGeneration t) : t.Inv n ∧ Splits n s t.partition := by
  cases hstep with
  | refineGeneration function state =>
    have hcalls : KeptByCalls n {x | s.partition.Marked x} function fun _ _ _ => True :=
      fun _ _ _ _ _ _ _ _ _ => trivial
    obtain ⟨hclear, hsep, -, -⟩ := refineGeneration_spec h.marking hcalls state trivial
    refine ⟨⟨hclear.marking, fun x hx => iff_of_false not_mem_nil (hclear.not_marked hx)⟩,
      fun x hx y hy => ?_, ?_⟩
    · rw [h.marked x hx, h.marked y hy]
      exact hsep.same x hx y hy
    · exact (refineSets_halved hn _ _ _ h.marking.partway
        ⟨fun _ _ => rfl, fun _ _ => .inl rfl⟩).half

theorem Inv.step (h : s.Inv n) (hn : n ≤ (2 ^ 32 - 1) / 12) (hstep : PartitionStep n s event t) :
    t.Inv n := by
  cases event with
  | mark element =>
    cases hstep with
    | mark hlt hnew =>
      obtain ⟨hmarking, hmarked⟩ := h.marking.mark hlt fun hold => hnew ((h.marked _ hlt).mpr hold)
      refine ⟨hmarking, fun x hx => ?_⟩
      rw [hmarked x hx, mem_cons, h.marked x hx, or_comm]
  | refineGeneration => exact (h.refined hn hstep).1

theorem inv_initialized (n : ℕ) : Inv n ⟨initialized n, []⟩ := ⟨(clear_initialized n).marking,
    fun _ hx => iff_of_false not_mem_nil ((clear_initialized n).not_marked hx)⟩

end MarkedPartition

theorem le_of_initializeReserved {n : ℕ} {p : Partition}
    (h : Partition.initializeReserved n = some p) :
    n ≤ (2 ^ 32 - 1) / 12 ∧ p = .initialized n := by
  rw [Partition.initializeReserved] at h
  split at h
  · cases h
  · rename_i hle
    exact ⟨Nat.le_of_not_lt hle, (Option.some.inj h).symm⟩

open MarkedPartition in
/-- Every partition that is reached is sound, and a generation divides the sets and gives the
smaller parts the new indices. -/
theorem partition_sound {n : ℕ} {p : Partition} {s : MarkedPartition} {events : List PartitionEvent}
    (hinitial : Partition.initializeReserved n = some p)
    (hrun : Transition.Run (PartitionStep n) ⟨p, []⟩ events s) :
    PartitionSound n s ∧ ∀ t, PartitionStep n s .refineGeneration t → Splits n s t.partition := by
  obtain ⟨hn, rfl⟩ := le_of_initializeReserved hinitial
  have hinv : s.Inv n := hrun.preserves (fun _ _ _ h hstep => h.step hn hstep) (inv_initialized n)
  exact ⟨hinv.sound, fun t ht => (hinv.refined hn ht).2⟩

theorem partition_sound_three : ∃ s : MarkedPartition, 1 ∈ s.marked ∧ PartitionSound 3 s ∧
    ∀ t, PartitionStep 3 s .refineGeneration t → Splits 3 s t.partition :=
  ⟨_, List.mem_cons_self, partition_sound (n := 3) rfl
    (.cons (.mark (by decide) (by decide)) (.nil _))⟩

end WebKit.ContentExtensions
