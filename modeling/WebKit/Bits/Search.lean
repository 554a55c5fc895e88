import Mathlib.Order.Nat

/-!
# Searching for an index

The first index with a property, in a range of indices. A search can be split where the
range can, and moves with its range.
-/

namespace Bits

/-- The first index that has the property, from an index on and before a bound, or the
bound. -/
def firstFrom (p : ℕ → Prop) [DecidablePred p] (index bound : ℕ) : ℕ :=
  if index < bound then if p index then index else firstFrom p (index + 1) bound else bound
termination_by bound - index

variable {p q : ℕ → Prop} [DecidablePred p] [DecidablePred q] {index bound middle : ℕ}

theorem firstFrom_of_le (h : bound ≤ index) : firstFrom p index bound = bound := by
  rw [firstFrom, if_neg (not_lt.mpr h)]

theorem firstFrom_of_pos (hlt : index < bound) (h : p index) : firstFrom p index bound = index := by
  rw [firstFrom, if_pos hlt, if_pos h]

theorem firstFrom_of_neg (h : ¬p index) :
    firstFrom p index bound = firstFrom p (index + 1) bound := by
  rcases lt_or_ge index bound with hlt | hle
  · rw [firstFrom, if_pos hlt, if_neg h]
  · rw [firstFrom_of_le hle, firstFrom_of_le (by omega)]

theorem firstFrom_congr (h : ∀ i, index ≤ i → i < bound → (p i ↔ q i)) :
    firstFrom p index bound = firstFrom q index bound := by
  induction hd : bound - index generalizing index with
  | zero => rw [firstFrom_of_le (by omega), firstFrom_of_le (by omega)]
  | succ d ih =>
    have hlt : index < bound := by omega
    by_cases hp : p index
    · rw [firstFrom_of_pos hlt hp, firstFrom_of_pos hlt ((h index le_rfl hlt).mp hp)]
    · rw [firstFrom_of_neg hp, firstFrom_of_neg fun hq => hp ((h index le_rfl hlt).mpr hq)]
      exact ih (fun i hi => h i (by omega)) (by omega)

theorem firstFrom_split (hm : index ≤ middle) (hb : middle ≤ bound) : firstFrom p index bound =
      if firstFrom p index middle < middle then firstFrom p index middle
      else firstFrom p middle bound := by
  induction hd : middle - index generalizing index with
  | zero =>
    obtain rfl : index = middle := by omega
    rw [firstFrom_of_le le_rfl, if_neg (lt_irrefl _)]
  | succ d ih =>
    have hlt : index < middle := by omega
    by_cases hp : p index
    · rw [firstFrom_of_pos (hlt.trans_le hb) hp, firstFrom_of_pos hlt hp, if_pos hlt]
    · have hrest := @ih (index + 1) (by omega) (by omega)
      rw [firstFrom_of_neg hp, hrest, firstFrom_of_neg hp]

theorem firstFrom_eq_bound (h : ∀ i, index ≤ i → i < bound → ¬p i) :
    firstFrom p index bound = bound := by
  induction hd : bound - index generalizing index with
  | zero => exact firstFrom_of_le (by omega)
  | succ d ih =>
    rw [firstFrom_of_neg (h index le_rfl (by omega))]
    exact ih (fun i hi => h i (by omega)) (by omega)

theorem firstFrom_add (k : ℕ) :
    firstFrom p (k + index) (k + bound) = k + firstFrom (fun i => p (k + i)) index bound := by
  induction hd : bound - index generalizing index with
  | zero => rw [firstFrom_of_le (by omega), firstFrom_of_le (by omega)]
  | succ d ih =>
    by_cases hp : p (k + index)
    · rw [firstFrom_of_pos (by omega) hp, firstFrom_of_pos (p := fun i => p (k + i)) (by omega) hp]
    · have hrest := @ih (index + 1) (by omega)
      rw [firstFrom_of_neg hp, firstFrom_of_neg (p := fun i => p (k + i)) hp]
      exact hrest

end Bits
