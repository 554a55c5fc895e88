import Mathlib

/-!
# Sets of indices

A finite set of natural numbers that is iterated in the order its members were added, as
a stand-in for a hash set: nothing may depend on the order of the iteration. Two sets are
compared the way a table of sets does it, by size and by membership (`sameElements`).
-/

namespace Automata

structure IndexSet where
  elems : List ℕ
  nodup : elems.Nodup
  deriving DecidableEq

namespace IndexSet

instance : Membership ℕ IndexSet := ⟨fun s a => a ∈ s.elems⟩

instance (a : ℕ) (s : IndexSet) : Decidable (a ∈ s) := inferInstanceAs (Decidable (a ∈ s.elems))

instance : EmptyCollection IndexSet := ⟨⟨[], .nil⟩⟩

variable {a b : ℕ} {s t : IndexSet} {l : List ℕ}

@[simp] theorem mem_elems : a ∈ s.elems ↔ a ∈ s := .rfl

@[simp] theorem not_mem_empty : a ∉ (∅ : IndexSet) := List.not_mem_nil

@[simp] theorem elems_empty : (∅ : IndexSet).elems = [] := rfl

/-- A member that is there already is not added again. -/
def add (s : IndexSet) (a : ℕ) : IndexSet :=
  if h : a ∈ s.elems then s
  else ⟨s.elems ++ [a], by simpa using s.nodup.concat h⟩

def addAll (s : IndexSet) (l : List ℕ) : IndexSet := l.foldl add s

def isEmpty (s : IndexSet) : Bool := s.elems.isEmpty

/-- Equal sizes, and every member of the first is one of the second. -/
def sameElements (s t : IndexSet) : Bool :=
  s.elems.length = t.elems.length && s.elems.all (· ∈ t)

theorem elems_add (h : a ∉ s) : (s.add a).elems = s.elems ++ [a] := by
  have hel : a ∉ s.elems := h
  simp [add, hel]

theorem add_of_mem (h : a ∈ s) : s.add a = s := dif_pos h

@[simp] theorem mem_add : b ∈ s.add a ↔ b ∈ s ∨ b = a := by
  by_cases h : a ∈ s
  · rw [add_of_mem h]
    exact ⟨.inl, fun hb => hb.elim id fun e => e ▸ h⟩
  · rw [← mem_elems, elems_add h]
    simp

@[simp] theorem mem_addAll : b ∈ s.addAll l ↔ b ∈ s ∨ b ∈ l := by
  induction l generalizing s with
  | nil => simp [addAll]
  | cons a l ih =>
    have h : s.addAll (a :: l) = (s.add a).addAll l := rfl
    rw [h, ih, mem_add, List.mem_cons, or_assoc]

theorem isEmpty_iff : s.isEmpty = true ↔ ∀ a, a ∉ s := by
  rw [isEmpty, List.isEmpty_iff, List.eq_nil_iff_forall_not_mem]
  rfl

theorem sameElements_iff : s.sameElements t = true ↔ ∀ a, a ∈ s ↔ a ∈ t := by
  simp only [sameElements, Bool.and_eq_true, decide_eq_true_eq, List.all_eq_true]
  constructor
  · rintro ⟨hlen, hsub⟩ a
    have hsubperm : s.elems.Subperm t.elems := List.subperm_of_subset s.nodup hsub
    exact (hsubperm.perm_of_length_le hlen.ge).mem_iff
  · intro h
    have hperm : s.elems.Perm t.elems := (List.perm_ext_iff_of_nodup s.nodup t.nodup).mpr h
    exact ⟨hperm.length_eq, fun a ha => (h a).mp ha⟩

/-- The members as a set. -/
def toSet (s : IndexSet) : Set ℕ := {a | a ∈ s}

@[simp] theorem mem_toSet : a ∈ s.toSet ↔ a ∈ s := .rfl

theorem sameElements_iff_toSet : s.sameElements t = true ↔ s.toSet = t.toSet := by
  rw [sameElements_iff, Set.ext_iff]
  rfl

/-- The members as a finite set. -/
def toFinset (s : IndexSet) : Finset ℕ := ⟨s.elems, s.nodup⟩

@[simp] theorem mem_toFinset : a ∈ s.toFinset ↔ a ∈ s := .rfl

theorem sameElements_iff_toFinset : s.sameElements t = true ↔ s.toFinset = t.toFinset := by
  rw [sameElements_iff, Finset.ext_iff]
  rfl

end IndexSet

end Automata
