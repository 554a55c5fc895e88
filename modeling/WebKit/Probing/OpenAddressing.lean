import Mathlib.Algebra.Order.Ring.Nat
import Mathlib.Data.Fintype.EquivFin
import Mathlib.Data.Nat.ModEq
import Mathlib.Data.Nat.Prime.Basic
import Mathlib.Order.Nat

/-!
# Open addressing with tombstones

A table assigns each slot a state: empty, deleted, or full. A key is looked up along its
probe sequence, until a slot holds the key or is empty. This finds a key that is present
because of two facts about the table: every entry can be reached along the probe sequence
of its key without passing an empty slot (`Findable`), and no two slots hold entries of one
key (`Unique`). Writing an entry to a slot on the way keeps the first, and so does turning
an entry into a tombstone.
-/

namespace Probing

open Function

/-- The state of a slot. -/
inductive Slot (α : Type*)
  | empty
  | deleted
  | full (entry : α)

variable {ι κ α : Type*} {key : α → κ} {probe : κ → Nat → ι} {slots : ι → Slot α} {x : κ} {a : α}
  {i : ι} {n : Nat}

/-- The table holds an entry of this key. -/
def Present (key : α → κ) (slots : ι → Slot α) (x : κ) (a : α) : Prop :=
  key a = x ∧ ∃ i, slots i = .full a

/-- Every entry can be reached without passing an empty slot. -/
def Findable (key : α → κ) (probe : κ → Nat → ι) (slots : ι → Slot α) : Prop :=
  ∀ i a, slots i = .full a → ∃ n, probe (key a) n = i ∧ ∀ m < n, slots (probe (key a) m) ≠ .empty

/-- No two slots hold entries of one key. -/
def Unique (key : α → κ) (slots : ι → Slot α) : Prop :=
  ∀ i j a b, slots i = .full a → slots j = .full b → key a = key b → i = j

/-- The first `n` slots of the probe sequence are neither empty nor hold the key. -/
def Passed (key : α → κ) (probe : κ → Nat → ι) (slots : ι → Slot α) (x : κ) (n : Nat) : Prop :=
  ∀ m < n, slots (probe x m) ≠ .empty ∧ ∀ a, slots (probe x m) = .full a → key a ≠ x

theorem absent_of_passed (hf : Findable key probe slots) (hp : Passed key probe slots x n)
    (hempty : slots (probe x n) = .empty) (a : α) : ¬ Present key slots x a := by
  rintro ⟨rfl, i, hi⟩
  obtain ⟨m, rfl, hm⟩ := hf i a hi
  rcases Nat.lt_trichotomy m n with hlt | rfl | hlt
  · exact (hp m hlt).2 a hi rfl
  · rw [hempty] at hi
    cases hi
  · exact hm n hlt hempty

section Update

variable [DecidableEq ι]

/-- An entry is written to a slot that its key reaches without passing an empty one. -/
theorem Findable.write (hf : Findable key probe slots)
    (hpath : ∀ m < n, slots (probe (key a) m) ≠ .empty) :
    Findable key probe (update slots (probe (key a) n) (.full a)) := by
  have hkeep : ∀ j, slots j ≠ .empty → update slots (probe (key a) n) (.full a) j ≠ .empty := by
    intro j hj
    by_cases hij : j = probe (key a) n
    · rw [hij, update_self]
      simp
    · rwa [update_of_ne hij]
  intro j b hj
  by_cases hij : j = probe (key a) n
  · subst hij
    rw [update_self] at hj
    cases hj
    exact ⟨n, rfl, fun m hm => hkeep _ (hpath m hm)⟩
  · rw [update_of_ne hij] at hj
    obtain ⟨m, hm, hpass⟩ := hf j b hj
    exact ⟨m, hm, fun m' hm' => hkeep _ (hpass m' hm')⟩

theorem Unique.write (hu : Unique key slots) (habsent : ∀ b, ¬ Present key slots (key a) b)
    (i : ι) : Unique key (update slots i (.full a)) := by
  intro j k b c hj hk hkey
  by_cases hji : j = i <;> by_cases hki : k = i
  · rw [hji, hki]
  · subst hji
    rw [update_self] at hj
    rw [update_of_ne hki] at hk
    cases hj
    exact absurd ⟨hkey.symm, k, hk⟩ (habsent c)
  · subst hki
    rw [update_self] at hk
    rw [update_of_ne hji] at hj
    cases hk
    exact absurd ⟨hkey, j, hj⟩ (habsent b)
  · rw [update_of_ne hji] at hj
    rw [update_of_ne hki] at hk
    exact hu j k b c hj hk hkey

theorem present_write (hi : ∀ b, slots i ≠ .full b) {b : α} :
    Present key (update slots i (.full a)) x b ↔ Present key slots x b ∨ b = a ∧ key a = x := by
  constructor
  · rintro ⟨hx, j, hj⟩
    by_cases hji : j = i
    · subst hji
      rw [update_self] at hj
      cases hj
      exact .inr ⟨rfl, hx⟩
    · rw [update_of_ne hji] at hj
      exact .inl ⟨hx, j, hj⟩
  · rintro (⟨hx, j, hj⟩ | ⟨rfl, hx⟩)
    · have hji : j ≠ i := by
        rintro rfl
        exact hi b hj
      exact ⟨hx, j, by rw [update_of_ne hji, hj]⟩
    · exact ⟨hx, i, update_self _ _ _⟩

theorem Findable.delete (hf : Findable key probe slots) (i : ι) :
    Findable key probe (update slots i .deleted) := by
  intro j b hj
  have hji : j ≠ i := by
    rintro rfl
    rw [update_self] at hj
    cases hj
  rw [update_of_ne hji] at hj
  obtain ⟨m, hm, hpass⟩ := hf j b hj
  refine ⟨m, hm, fun m' hm' => ?_⟩
  by_cases hij : probe (key b) m' = i
  · rw [hij, update_self]
    simp
  · rw [update_of_ne hij]
    exact hpass m' hm'

theorem Unique.delete (hu : Unique key slots) (i : ι) : Unique key (update slots i .deleted) := by
  have hback : ∀ j b, update slots i .deleted j = .full b → slots j = .full b := by
    intro j b hj
    by_cases hji : j = i
    · subst hji
      rw [update_self] at hj
      cases hj
    · rwa [update_of_ne hji] at hj
  intro j k b c hj hk
  exact hu j k b c (hback j b hj) (hback k c hk)

theorem present_delete (hu : Unique key slots) (hi : slots i = .full a) {b : α} :
    Present key (update slots i .deleted) x b ↔ Present key slots x b ∧ x ≠ key a := by
  constructor
  · rintro ⟨rfl, j, hj⟩
    have hji : j ≠ i := by
      rintro rfl
      rw [update_self] at hj
      cases hj
    rw [update_of_ne hji] at hj
    exact ⟨⟨rfl, j, hj⟩, fun hkey => hji (hu j i b a hj hi hkey)⟩
  · rintro ⟨⟨rfl, j, hj⟩, hne⟩
    have hji : j ≠ i := by
      rintro rfl
      rw [hi] at hj
      cases hj
      exact hne rfl
    exact ⟨rfl, j, by rw [update_of_ne hji, hj]⟩

end Update

/-!
## Stepping around a circle

From any place of a circle of `size` slots, steps of a length coprime to `size` visit all
slots before they return (`exists_stepped`). When the size is a power of two, every odd
length will do.
-/

variable {size start step : Nat}

/-- The slot after `n` steps. -/
def stepped (size start step n : Nat) : Nat := (start + n * step) % size

theorem stepped_lt (h : 0 < size) (n : Nat) : stepped size start step n < size := Nat.mod_lt _ h

theorem stepped_zero (h : start < size) : stepped size start step 0 = start := by
  rw [stepped, zero_mul, add_zero, Nat.mod_eq_of_lt h]

theorem stepped_succ (n : Nat) :
    stepped size start step (n + 1) = (stepped size start step n + step) % size := by
  rw [stepped, stepped, Nat.succ_mul, ← add_assoc, Nat.mod_add_mod]

theorem stepped_injective (h : Nat.Coprime size step) {n m : Nat} (hn : n < size) (hm : m < size)
    (heq : stepped size start step n = stepped size start step m) : n = m := by
  have hmod : n * step ≡ m * step [MOD size] := Nat.ModEq.add_left_cancel' start heq
  have hcancel := Nat.ModEq.cancel_right_of_coprime h hmod
  rwa [Nat.ModEq, Nat.mod_eq_of_lt hn, Nat.mod_eq_of_lt hm] at hcancel

theorem exists_stepped (h : Nat.Coprime size step) {i : Nat} (hi : i < size) :
    ∃ n, n < size ∧ stepped size start step n = i := by
  have hpos : 0 < size := Nat.lt_of_le_of_lt (Nat.zero_le i) hi
  let f : Fin size → Fin size := fun n => ⟨stepped size start step n, stepped_lt hpos n⟩
  have hinj : Function.Injective f := by
    intro n m heq
    exact Fin.ext (stepped_injective h n.isLt m.isLt (congrArg Fin.val heq))
  obtain ⟨n, hn⟩ := (Finite.injective_iff_surjective.mp hinj) ⟨i, hi⟩
  exact ⟨n, n.isLt, congrArg Fin.val hn⟩

theorem coprime_two_pow_of_odd (s : Nat) (h : step % 2 = 1) : Nat.Coprime (2 ^ s) step := by
  refine Nat.Coprime.pow_left s ((Nat.Prime.coprime_iff_not_dvd Nat.prime_two).mpr ?_)
  omega

end Probing
