import Mathlib.Data.List.Nodup

/-!
# `ListHashSet`

A set whose elements are in the order in which they were added.
-/

namespace WebKit.WTF

open List

structure ListHashSet (α : Type) where
  elements : List α
  nodup : elements.Nodup

namespace ListHashSet

variable {α : Type}

def empty : ListHashSet α := ⟨[], nodup_nil⟩

instance : Membership α (ListHashSet α) := ⟨fun set x => x ∈ set.elements⟩

def isEmpty (set : ListHashSet α) : Bool := set.elements.isEmpty

/-- The element at `begin()`. -/
def first (set : ListHashSet α) : Option α := set.elements.head?

theorem not_mem_empty {x : α} : x ∉ (empty : ListHashSet α) := not_mem_nil

theorem not_mem_of_isEmpty {set : ListHashSet α} {x : α} (h : set.isEmpty = true) : x ∉ set := by
  intro hx
  have hnil : set.elements = [] := isEmpty_iff.mp h
  have hmem : x ∈ set.elements := hx
  rw [hnil] at hmem
  cases hmem

variable [DecidableEq α] (set : ListHashSet α) (x : α)

instance : Decidable (x ∈ set) := inferInstanceAs (Decidable (x ∈ set.elements))

/-- An element that is there stays where it is. -/
def add : ListHashSet α :=
  if h : x ∈ set.elements then set
  else ⟨set.elements ++ [x], nodup_append_comm.mp (nodup_cons.mpr ⟨h, set.nodup⟩)⟩

def remove : ListHashSet α := ⟨set.elements.erase x, set.nodup.erase x⟩

/-- The element that comes after one. -/
def next : Option α := (set.elements.dropWhile (· ≠ x)).tail.head?

variable {set x} {y : α}

theorem mem_add : y ∈ set.add x ↔ y ∈ set ∨ y = x := by
  unfold add
  split
  · rename_i h
    constructor
    · exact .inl
    · rintro (hy | rfl)
      · exact hy
      · exact h
  · exact mem_append.trans (or_congr Iff.rfl mem_singleton)

theorem mem_remove : y ∈ set.remove x ↔ y ∈ set ∧ y ≠ x := set.nodup.mem_erase_iff.trans and_comm

end ListHashSet

end WebKit.WTF
