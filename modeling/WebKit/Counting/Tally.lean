import Mathlib.Algebra.BigOperators.Group.Finset.Piecewise
import Mathlib.Tactic.Abel

/-!
# Maps of reference counts

A partial map tallies a list of references when it sends every referenced key to the
number of its references and has no other key (`Tallies`). Adding a reference either
creates the key or raises its count, and dropping one lowers it or removes the key; either
way the number of keys follows the number of different references.
-/

open List Function

namespace Counting

variable {α : Type*} [DecidableEq α] {f : α → Option Nat} {refs refs' : List α} {a b : α}

/-- The map counts the references. -/
def Tallies (f : α → Option Nat) (refs : List α) : Prop :=
  ∀ a, f a = if refs.count a = 0 then none else some (refs.count a)

/-- How many keys are referenced. -/
def keyCount (refs : List α) : Nat := refs.dedup.length

theorem tallies_nil : Tallies (fun _ : α => none) [] := fun _ => rfl

theorem Tallies.perm (h : Tallies f refs) (hp : refs.Perm refs') : Tallies f refs' := by
  intro a
  rw [h a, hp.count_eq]

theorem keyCount_perm (hp : refs.Perm refs') : keyCount refs = keyCount refs' := hp.dedup.length_eq

theorem Tallies.eq_none (h : Tallies f refs) : f a = none ↔ a ∉ refs := by
  rw [h a]
  split
  · rename_i hz
    exact ⟨fun _ => count_eq_zero.mp hz, fun _ => rfl⟩
  · rename_i hz
    constructor
    · intro hn
      cases hn
    · intro hn
      exact absurd (count_eq_zero.mpr hn) hz

theorem Tallies.eq_some (h : Tallies f refs) (ha : a ∈ refs) : f a = some (refs.count a) := by
  rw [h a, if_neg]
  exact fun hz => count_eq_zero.mp hz ha

theorem Tallies.add (h : Tallies f refs) (a : α) :
    Tallies (update f a (some (refs.count a + 1))) (a :: refs) := by
  intro b
  by_cases hb : b = a
  · subst hb
    simp
  · rw [update_of_ne hb, h b, count_cons_of_ne (Ne.symm hb)]

theorem keyCount_cons_of_mem (ha : a ∈ refs) : keyCount (a :: refs) = keyCount refs := by
  unfold keyCount
  rw [dedup_cons_of_mem ha]

theorem keyCount_cons_of_not_mem (ha : a ∉ refs) : keyCount (a :: refs) = keyCount refs + 1 := by
  unfold keyCount
  rw [dedup_cons_of_notMem ha, length_cons]

theorem Tallies.drop (h : Tallies f (a :: refs)) (ha : a ∈ refs) :
    Tallies (update f a (some (refs.count a))) refs := by
  intro b
  by_cases hb : b = a
  · subst hb
    rw [update_self, if_neg]
    exact fun hz => count_eq_zero.mp hz ha
  · rw [update_of_ne hb, h b, count_cons_of_ne (Ne.symm hb)]

theorem Tallies.remove (h : Tallies f (a :: refs)) (ha : a ∉ refs) :
    Tallies (update f a none) refs := by
  intro b
  by_cases hb : b = a
  · subst hb
    rw [update_self, if_pos (count_eq_zero.mpr ha)]
  · rw [update_of_ne hb, h b, count_cons_of_ne (Ne.symm hb)]

/-!
## Totals

`AddsTo f total` says that all values of `f`, of which finitely many are not 0, add up to the
total. A total is kept up to date value by value (`AddsTo.update`).
-/

variable {κ M : Type*} [AddCommGroup M] {f : κ → M} {total : M}

def AddsTo (f : κ → M) (total : M) : Prop :=
  ∃ keys : Finset κ, (∀ x ∉ keys, f x = 0) ∧ ∑ x ∈ keys, f x = total

namespace AddsTo

theorem zero : AddsTo (fun _ : κ => (0 : M)) 0 := ⟨∅, fun _ _ => rfl, rfl⟩

theorem sum_eq (h : AddsTo f total) {keys : Finset κ} (hkeys : ∀ x ∉ keys, f x = 0) :
    ∑ x ∈ keys, f x = total := by
  classical
  obtain ⟨keys', hkeys', hsum⟩ := h
  calc ∑ x ∈ keys, f x = ∑ x ∈ keys ∪ keys', f x :=
        Finset.sum_subset Finset.subset_union_left fun x _ hx => hkeys x hx
    _ = ∑ x ∈ keys', f x :=
        (Finset.sum_subset Finset.subset_union_right fun x _ hx => hkeys' x hx).symm
    _ = total := hsum

theorem update [DecidableEq κ] (h : AddsTo f total) (x : κ) (value : M) :
    AddsTo (update f x value) (total - f x + value) := by
  obtain ⟨keys, hkeys, -⟩ := id h
  have hins : ∀ y ∉ insert x keys, f y = 0 :=
    fun y hy => hkeys y fun hmem => hy (Finset.mem_insert_of_mem hmem)
  refine ⟨insert x keys, ?_, ?_⟩
  · intro y hy
    have hne : y ≠ x := fun heq => hy (heq ▸ Finset.mem_insert_self x keys)
    rw [update_of_ne hne]
    exact hins y hy
  · rw [Finset.sum_update_of_mem (Finset.mem_insert_self x keys), ← h.sum_eq hins,
      Finset.sum_eq_add_sum_sdiff_singleton_of_mem (Finset.mem_insert_self x keys) f]
    abel

end AddsTo

end Counting
