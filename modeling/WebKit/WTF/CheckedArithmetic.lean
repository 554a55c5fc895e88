import Mathlib.Tactic.Linarith
import Mathlib.Tactic.Ring

/-!
# Checked arithmetic

`safeAdd`, `safeSub` and `safeMultiply` for two signed types and a signed type of the result.
-/

namespace WebKit.WTF

/-- `std::numeric_limits<ResultType>::min()` of a signed type with some bits. -/
def limitMin (bits : ℕ) : ℤ := -2 ^ (bits - 1)

/-- `std::numeric_limits<ResultType>::max()`. -/
def limitMax (bits : ℕ) : ℤ := 2 ^ (bits - 1) - 1

/-- The value is one of the signed type. -/
def Fits (bits : ℕ) (value : ℤ) : Prop := limitMin bits ≤ value ∧ value ≤ limitMax bits

instance (bits : ℕ) (value : ℤ) : Decidable (Fits bits value) :=
  inferInstanceAs (Decidable (_ ∧ _))

/-- The sign bit of `lhs ^ rhs` is not set. -/
def signsMatch (lhs rhs : ℤ) : Bool := decide (0 ≤ lhs) == decide (0 ≤ rhs)

/-- `none` where the result is `false`. -/
def safeAdd (bits : ℕ) (lhs rhs : ℤ) : Option ℤ :=
  if signsMatch lhs rhs then
    if lhs ≥ 0 then
      if limitMax bits - rhs < lhs then none else some (lhs + rhs)
    else
      let temp := lhs - limitMin bits
      if rhs < -temp then none else some (lhs + rhs)
  -- if the signs do not match this operation can't overflow
  else some (lhs + rhs)

def safeSub (bits : ℕ) (lhs rhs : ℤ) : Option ℤ :=
  if !signsMatch lhs rhs then
    if lhs ≥ 0 then
      if lhs > limitMax bits + rhs then none else some (lhs - rhs)
    else
      if rhs > limitMax bits + lhs then none else some (lhs - rhs)
  -- if the signs match this operation can't overflow
  else some (lhs - rhs)

def safeMultiply (bits : ℕ) (lhs rhs : ℤ) : Option ℤ :=
  if signsMatch lhs rhs then
    if lhs ≥ 0 then
      if lhs ≠ 0 ∧ (limitMax bits).tdiv lhs < rhs then none else some (lhs * rhs)
    else
      if lhs = limitMin bits ∨ rhs = limitMin bits then none
      else if (limitMax bits).tdiv (-lhs) < -rhs then none else some (lhs * rhs)
  else
    if lhs < 0 then
      if rhs ≠ 0 ∧ lhs < (limitMin bits).tdiv rhs then none else some (lhs * rhs)
    else
      if lhs ≠ 0 ∧ rhs < (limitMin bits).tdiv lhs then none else some (lhs * rhs)

variable {bits : ℕ} {lhs rhs : ℤ}

theorem limitMin_lt (bits : ℕ) : limitMin bits < 0 := by
  have := Int.pow_pos (n := 2) (m := bits - 1) (by decide)
  unfold limitMin
  omega

theorem limitMax_eq (bits : ℕ) : limitMax bits = -limitMin bits - 1 := by
  unfold limitMin limitMax
  omega

theorem signsMatch_iff : signsMatch lhs rhs = true ↔ (0 ≤ lhs ↔ 0 ≤ rhs) := by
  simp [signsMatch]

theorem safeAdd_eq (hlhs : Fits bits lhs) (hrhs : Fits bits rhs) :
    safeAdd bits lhs rhs = if Fits bits (lhs + rhs) then some (lhs + rhs) else none := by
  by_cases hfits : Fits bits (lhs + rhs)
  · rw [if_pos hfits]
    unfold Fits at *
    simp only [safeAdd, signsMatch_iff]
    split_ifs <;> first | rfl | (exfalso; omega)
  · rw [if_neg hfits]
    unfold Fits at *
    simp only [safeAdd, signsMatch_iff]
    split_ifs <;> first | rfl | (exfalso; omega)

/-- The difference of a negative number that is the least value counts as an overflow. -/
theorem safeSub_eq (hlhs : Fits bits lhs) (hrhs : Fits bits rhs) : safeSub bits lhs rhs =
      if Fits bits (lhs - rhs) ∧ ¬ (lhs < 0 ∧ lhs - rhs = limitMin bits) then some (lhs - rhs)
      else none := by
  have hmax := limitMax_eq bits
  by_cases hfits : Fits bits (lhs - rhs) ∧ ¬ (lhs < 0 ∧ lhs - rhs = limitMin bits)
  all_goals
    unfold Fits at *
    simp only [safeSub, Bool.not_eq_true', ← Bool.not_eq_true, signsMatch_iff]
    split_ifs <;> first | rfl | (exfalso; omega)

theorem tdiv_lt_iff {limit : ℤ} (hlimit : 0 ≤ limit) (hlhs : 0 < lhs) :
    limit.tdiv lhs < rhs ↔ limit < lhs * rhs := by
  rw [Int.tdiv_eq_ediv_of_nonneg hlimit, Int.ediv_lt_iff_lt_mul hlhs, Int.mul_comm]

theorem safeMultiply_eq_none_iff (bits : ℕ) (lhs : ℤ) (hrhs : 0 < rhs) :
    safeMultiply bits lhs rhs = none ↔ ¬ Fits bits (lhs * rhs) := by
  have hmax := limitMax_eq bits
  have hmin := limitMin_lt bits
  unfold Fits
  simp only [safeMultiply, signsMatch_iff]
  rcases Int.lt_trichotomy lhs 0 with hneg | rfl | hpos
  · have hle : lhs * rhs ≤ 0 := Int.mul_nonpos_of_nonpos_of_nonneg hneg.le hrhs.le
    have hflip := @tdiv_lt_iff rhs (-lhs) _ (by omega : 0 ≤ -limitMin bits) hrhs
    rw [Int.neg_tdiv, Int.mul_neg, Int.mul_comm] at hflip
    rw [if_neg (by omega), if_pos hneg]
    split_ifs
    all_goals
      simp
      omega
  · simp
    omega
  · have hle : 0 ≤ lhs * rhs := Int.mul_nonneg hpos.le hrhs.le
    have hlimit : (limitMax bits).tdiv lhs < rhs ↔ limitMax bits < lhs * rhs :=
      tdiv_lt_iff (by omega) hpos
    rw [if_pos (by omega), if_pos hpos.le]
    split_ifs
    all_goals
      simp
      omega

theorem safeMultiply_eq_some {product : ℤ} (h : safeMultiply bits lhs rhs = some product) :
    product = lhs * rhs := by
  unfold safeMultiply at h
  split_ifs at h <;> exact (Option.some.inj h).symm

theorem safeMultiply_eq (bits : ℕ) (lhs : ℤ) (hrhs : 0 < rhs) :
    safeMultiply bits lhs rhs = if Fits bits (lhs * rhs) then some (lhs * rhs) else none := by
  cases h : safeMultiply bits lhs rhs with
  | none => rw [if_neg ((safeMultiply_eq_none_iff bits lhs hrhs).mp h)]
  | some product =>
    have hfits : Fits bits (lhs * rhs) := by
      by_contra hnot
      rw [(safeMultiply_eq_none_iff bits lhs hrhs).mpr hnot] at h
      cases h
    rw [if_pos hfits, safeMultiply_eq_some h]

theorem safeMultiply_zero (bits : ℕ) (lhs : ℤ) : safeMultiply bits lhs 0 = some (lhs * 0) := by
  have hmin := limitMin_lt bits
  have hmax := limitMax_eq bits
  simp only [safeMultiply, signsMatch_iff]
  by_cases hlhs : 0 ≤ lhs
  · have hdiv : 0 ≤ (limitMax bits).tdiv lhs := Int.tdiv_nonneg (by omega) hlhs
    rw [if_pos (by omega), if_pos hlhs, if_neg (by omega)]
  · rw [if_neg (by omega), if_pos (by omega), if_neg (by omega)]

end WebKit.WTF
