import Mathlib.Data.List.Basic

/-!
# A list in blocks of one length

`Holds n blocks content` says that the blocks have length `n`, that `content` is what they begin
with, and that no block is without content. Only the last block may have room left. The content
grows by writing over the free end of the last block (`Holds.fill_last`) or, when there is none,
by another block (`Holds.append_block`).
-/

namespace Blocks

open List

variable {α : Type*} {n offset : ℕ} {block content data : List α} {blocks : List (List α)}

/-- Writes the data over part of a block. -/
def overwrite (block : List α) (offset : ℕ) (data : List α) : List α :=
  block.take offset ++ data ++ block.drop (offset + data.length)

theorem length_overwrite (h : offset + data.length ≤ block.length) :
    (overwrite block offset data).length = block.length := by
  rw [overwrite, length_append, length_append, length_take, length_drop]
  omega

theorem overwrite_zero (block data : List α) :
    overwrite block 0 data = data ++ block.drop data.length := by
  rw [overwrite, take_zero, nil_append, Nat.zero_add]

structure Holds (n : ℕ) (blocks : List (List α)) (content : List α) : Prop where
  length_eq : ∀ block ∈ blocks, block.length = n
  prefix_flatten : content <+: blocks.flatten
  no_empty : n * blocks.length < content.length + n

theorem length_flatten (h : ∀ block ∈ blocks, block.length = n) :
    blocks.flatten.length = n * blocks.length := by
  induction blocks with
  | nil => rfl
  | cons block blocks ih =>
    rw [flatten_cons, length_append, h block mem_cons_self, length_cons,
      ih fun block hmem => h block (mem_cons_of_mem _ hmem), Nat.mul_succ, Nat.add_comm]

namespace Holds

theorem nil (hn : 0 < n) : Holds n ([] : List (List α)) [] :=
  ⟨fun _ h => absurd h not_mem_nil, nil_prefix, Nat.lt_of_lt_of_eq hn (Nat.zero_add n).symm⟩

theorem length_le (h : Holds n blocks content) : content.length ≤ n * blocks.length :=
  length_flatten h.length_eq ▸ h.prefix_flatten.length_le

theorem content_eq_nil (h : Holds n [] content) : content = [] :=
  eq_nil_of_length_eq_zero (Nat.le_zero.mp h.length_le)

theorem eq_flatten (h : Holds n blocks content) (hfull : n ∣ content.length) :
    content = blocks.flatten := by
  apply h.prefix_flatten.eq_of_length_le
  obtain ⟨k, hk⟩ := hfull
  rw [length_flatten h.length_eq]
  have hlt : n * blocks.length < n * (k + 1) := by
    rw [Nat.mul_succ, ← hk]
    exact h.no_empty
  have hle := Nat.lt_succ_iff.mp (Nat.lt_of_mul_lt_mul_left hlt)
  rw [hk]
  exact Nat.mul_le_mul_left n hle

theorem append_block (h : Holds n blocks content) (hfull : n ∣ content.length) (data : List α)
    (hblock : block.length = n) (hdata : data <+: block) (hne : data ≠ []) :
    Holds n (blocks ++ [block]) (content ++ data) where
  length_eq := by
    intro block' hmem
    rcases mem_append.mp hmem with hmem | hmem
    · exact h.length_eq block' hmem
    · rw [mem_singleton.mp hmem, hblock]
  prefix_flatten := by
    rw [flatten_append, flatten_singleton, ← h.eq_flatten hfull]
    exact (prefix_append_right_inj content).mpr hdata
  no_empty := by
    have hpos := length_pos_iff.mpr hne
    have heq := congrArg length (h.eq_flatten hfull)
    rw [length_flatten h.length_eq] at heq
    rw [length_append, length_append, length_singleton, Nat.mul_succ]
    omega

theorem fill_last (h : Holds n (blocks ++ [block]) content) (hpart : ¬ n ∣ content.length)
    (data : List α) (hroom : content.length % n + data.length ≤ n) :
    Holds n (blocks ++ [overwrite block (content.length % n) data]) (content ++ data) := by
  have hblock : block.length = n := h.length_eq block (mem_append_right _ mem_cons_self)
  have hothers : ∀ block ∈ blocks, block.length = n :=
    fun block hmem => h.length_eq block (mem_append_left _ hmem)
  -- the content ends in the last block
  have hlen : content.length = n * blocks.length + content.length % n := by
    have hle := h.length_le
    have hlt := h.no_empty
    rw [length_append, length_singleton, Nat.mul_succ] at hle hlt
    have hdiv : content.length / n = blocks.length := by
      apply Nat.div_eq_of_lt_le
      · rw [Nat.mul_comm]
        omega
      · have hne : content.length ≠ n * blocks.length + n := by
          intro heq
          exact hpart (heq ▸ Nat.dvd_add (Nat.dvd_mul_right n _) (Nat.dvd_refl n))
        rw [Nat.mul_comm, Nat.mul_succ]
        omega
    have hsum := Nat.div_add_mod content.length n
    rw [hdiv] at hsum
    exact hsum.symm
  have hcont : content = blocks.flatten ++ block.take (content.length % n) := by
    obtain ⟨rest, hrest⟩ := h.prefix_flatten
    have htake : content = (blocks.flatten ++ block).take content.length := by
      have heq : (blocks ++ [block]).flatten = blocks.flatten ++ block := by
        rw [flatten_append, flatten_singleton]
      rw [← heq, ← hrest, take_left]
    rw [take_append, length_flatten hothers, hlen] at htake
    rw [take_of_length_le (by rw [length_flatten hothers]; omega), Nat.add_sub_cancel_left] at htake
    exact htake
  constructor
  · intro block' hmem
    rcases mem_append.mp hmem with hmem | hmem
    · exact hothers block' hmem
    · rw [mem_singleton.mp hmem, length_overwrite (hblock ▸ hroom), hblock]
  · rw [flatten_append, flatten_singleton, overwrite, append_assoc, ← append_assoc, ← hcont]
    exact (prefix_append_right_inj content).mpr (prefix_append _ _)
  · have hlt := h.no_empty
    rw [length_append, length_singleton] at hlt ⊢
    rw [length_append]
    omega

section

variable (h : Holds n (block :: blocks) content)
include h

theorem head :
    block.take (min content.length n) = content.take n := by
  have hblock : block.length = n := h.length_eq block mem_cons_self
  obtain ⟨more, hmore⟩ := h.prefix_flatten
  rw [flatten_cons] at hmore
  have htake := congrArg (List.take (min content.length n)) hmore
  rw [take_append_of_le_length (Nat.min_le_left _ _),
    take_append_of_le_length (hblock ▸ Nat.min_le_right _ _)] at htake
  rw [← htake, take_eq_take_iff]
  omega

theorem tail (hle : n ≤ content.length) :
    Holds n blocks (content.drop n) := by
  have hblock : block.length = n := h.length_eq block mem_cons_self
  obtain ⟨more, hmore⟩ := h.prefix_flatten
  rw [flatten_cons] at hmore
  refine ⟨fun block hmem => h.length_eq block (mem_cons_of_mem _ hmem), ⟨more, ?_⟩, ?_⟩
  · rw [← drop_append_of_le_length hle, hmore, ← hblock, drop_left]
  · have hlt := h.no_empty
    rw [length_cons, Nat.mul_succ] at hlt
    rw [length_drop]
    omega

theorem eq_nil_of_length_le (hle : content.length ≤ n) :
    blocks = [] := by
  have hlt := h.no_empty
  rw [length_cons, Nat.mul_succ] at hlt
  cases blocks with
  | nil => rfl
  | cons second rest =>
    rw [length_cons, Nat.mul_succ] at hlt
    omega

end

/-- The blocks at a position hold what the content has there. -/
theorem read (h : Holds n blocks content) {position : ℕ} (hposition : position < content.length)
    {m : ℕ} (hm : position % n + m ≤ n) (hend : position + m ≤ content.length) :
    ∃ block, blocks[position / n]? = some block ∧ block.length = n ∧
      (block.drop (position % n)).take m = (content.drop position).take m := by
  induction blocks generalizing content position with
  | nil =>
    rw [h.content_eq_nil] at hposition
    cases hposition
  | cons first rest ih =>
    have hfirst : first.length = n := h.length_eq first mem_cons_self
    obtain ⟨more, hmore⟩ := h.prefix_flatten
    rw [flatten_cons] at hmore
    rcases Nat.lt_or_ge position n with hlt | hge
    · refine ⟨first, by rw [Nat.div_eq_of_lt hlt]; rfl, hfirst, ?_⟩
      rw [Nat.mod_eq_of_lt hlt] at hm ⊢
      have hread : ((content ++ more).drop position).take m = (content.drop position).take m := by
        rw [drop_append_of_le_length (by omega), take_append_of_le_length]
        rw [length_drop]
        omega
      rw [← hread, hmore, drop_append_of_le_length (by omega), take_append_of_le_length]
      rw [length_drop]
      omega
    · have htail : Holds n rest (content.drop n) := h.tail (Nat.le_of_lt (by omega))
      have hmod : (position - n) % n = position % n := (Nat.mod_eq_sub_mod hge).symm
      have hposition' : position - n < (content.drop n).length := by
        rw [length_drop]
        omega
      obtain ⟨block, hblock, hlength, hread⟩ := ih htail hposition' (hmod ▸ hm)
        (by rw [length_drop]; omega)
      refine ⟨block, ?_, hlength, ?_⟩
      · have hn : 0 < n := by
          rcases Nat.eq_zero_or_pos n with hzero | hpos
          · have hlen := h.length_le
            rw [hzero, Nat.zero_mul] at hlen
            omega
          · exact hpos
        rw [Nat.div_eq_sub_div hn hge, List.getElem?_cons_succ]
        exact hblock
      · rw [← hmod, hread, drop_drop]
        congr 2
        omega

end Holds

end Blocks
