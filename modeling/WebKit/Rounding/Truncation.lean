import Mathlib

/-!
# Division that rounds towards zero

The quotient of C's division, next to the exact one.
-/

namespace Rounding

variable {x y d s t : ℤ}

theorem tdiv_le_of_nonneg (hx : 0 ≤ x) (hs : 0 < s) : 0 ≤ x.tdiv s ∧ s * x.tdiv s ≤ x := by
  rw [Int.tdiv_eq_ediv_of_nonneg hx]
  exact ⟨Int.ediv_nonneg hx hs.le, Int.mul_ediv_self_le hs.ne'⟩

theorem le_tdiv_of_nonpos (hx : x ≤ 0) (hs : 0 < s) : x.tdiv s ≤ 0 ∧ x ≤ s * x.tdiv s := by
  obtain ⟨hnonneg, hle⟩ := tdiv_le_of_nonneg (Int.neg_nonneg_of_nonpos hx) hs
  rw [Int.neg_tdiv] at hnonneg hle
  rw [Int.mul_neg] at hle
  omega

theorem mul_tdiv (v : ℤ) (hd : 0 ≤ d) (hs : 0 < s) :
    (v * d).tdiv s = v.tdiv s * d + (v.tmod s * d).tdiv s := by
  have hnonneg : ∀ v : ℤ, 0 ≤ v → (v * d).tdiv s = v.tdiv s * d + (v.tmod s * d).tdiv s := by
    intro v hv
    rw [Int.tdiv_eq_ediv_of_nonneg (Int.mul_nonneg hv hd), Int.tdiv_eq_ediv_of_nonneg hv,
      Int.tmod_eq_emod_of_nonneg hv,
      Int.tdiv_eq_ediv_of_nonneg (Int.mul_nonneg (Int.emod_nonneg v hs.ne') hd)]
    have hsplit : v * d = v % s * d + v / s * d * s := by
      have := Int.emod_add_mul_ediv v s
      calc v * d = (v % s + s * (v / s)) * d := by rw [this]
        _ = v % s * d + v / s * d * s := by ring
    rw [hsplit, Int.add_mul_ediv_right _ _ hs.ne', Int.add_comm]
  rcases Int.le_total 0 v with hv | hv
  · exact hnonneg v hv
  · have hneg := hnonneg (-v) (Int.neg_nonneg_of_nonpos hv)
    rw [Int.neg_mul, Int.neg_tdiv, Int.neg_tdiv, Int.neg_tmod, Int.neg_mul, Int.neg_mul,
      Int.neg_tdiv] at hneg
    omega

theorem tdiv_tdiv (x d : ℤ) (hs : 0 < s) : (x.tdiv s).tdiv d = x.tdiv (s * d) := by
  have hnonneg : ∀ x : ℤ, 0 ≤ x → (x.tdiv s).tdiv d = x.tdiv (s * d) := by
    intro x hx
    rw [Int.tdiv_eq_ediv_of_nonneg hx, Int.tdiv_eq_ediv_of_nonneg hx,
      Int.tdiv_eq_ediv_of_nonneg (Int.ediv_nonneg hx hs.le), Int.ediv_ediv_of_nonneg hs.le]
  rcases Int.le_total 0 x with hx | hx
  · exact hnonneg x hx
  · have hneg := hnonneg (-x) (Int.neg_nonneg_of_nonpos hx)
    rw [Int.neg_tdiv, Int.neg_tdiv, Int.neg_tdiv] at hneg
    exact Int.neg_inj.mp hneg

theorem abs_tdiv_sub_lt (x : ℤ) (hs : 0 < s) : |((x.tdiv s : ℤ) : ℚ) - (x : ℚ) / s| < 1 := by
  have hs' : (0 : ℚ) < s := by exact_mod_cast hs
  have hsplit : (x : ℚ) / s = (x.tdiv s : ℤ) + ((x.tmod s : ℤ) : ℚ) / s := by
    have hx : (x : ℚ) = (x.tdiv s : ℤ) * s + (x.tmod s : ℤ) := by
      exact_mod_cast (Int.tdiv_mul_add_tmod x s).symm
    field_simp
    linarith only [hx]
  have habs : |x.tmod s| < s := by
    have hmod := Int.natAbs_tmod x s
    have hlt := Nat.mod_lt x.natAbs (Int.natAbs_pos.mpr hs.ne')
    rw [Int.abs_eq_natAbs]
    omega
  rw [hsplit, sub_add_cancel_left, abs_neg, abs_div, abs_of_pos hs', div_lt_one hs']
  exact_mod_cast habs

/-- A scale that is smaller by a factor makes the number as much smaller. -/
theorem mul_tdiv_le {k : ℤ} (hx : 0 ≤ x) (hd : 0 ≤ d) (hs : 0 < s) (hle : k * d ≤ s) :
    0 ≤ (x * d).tdiv s ∧ k * (x * d).tdiv s ≤ x := by
  obtain ⟨hnonneg, hmul⟩ := tdiv_le_of_nonneg (Int.mul_nonneg hx hd) hs
  refine ⟨hnonneg, ?_⟩
  rcases Int.le_total k 0 with hk | hk
  · exact (Int.mul_nonpos_of_nonpos_of_nonneg hk hnonneg).trans hx
  refine Int.le_of_mul_le_mul_left ?_ hs
  calc s * (k * (x * d).tdiv s) = k * (s * (x * d).tdiv s) := by ring
    _ ≤ k * (x * d) := Int.mul_le_mul_of_nonneg_left hmul hk
    _ = k * d * x := by ring
    _ ≤ s * x := Int.mul_le_mul_of_nonneg_right hle hx

theorem le_mul_tdiv {k : ℤ} (hx : x ≤ 0) (hd : 0 ≤ d) (hs : 0 < s) (hle : k * d ≤ s) :
    (x * d).tdiv s ≤ 0 ∧ x ≤ k * (x * d).tdiv s := by
  obtain ⟨hnonneg, hmul⟩ := mul_tdiv_le (Int.neg_nonneg_of_nonpos hx) hd hs hle
  rw [Int.neg_mul, Int.neg_tdiv] at hnonneg hmul
  rw [Int.mul_neg] at hmul
  omega

theorem tdiv_le_tdiv_of_mul_le (hs : 0 < s) (ht : 0 < t) (h : x * t ≤ y * s) :
    x.tdiv s ≤ y.tdiv t := by
  have hx : (x * t).tdiv (s * t) = x.tdiv s := Int.mul_tdiv_mul_of_pos_left x s ht
  have hy : (y * s).tdiv (t * s) = y.tdiv t := Int.mul_tdiv_mul_of_pos_left y t hs
  rw [← hx, ← hy, Int.mul_comm t s]
  exact Int.tdiv_le_tdiv (Int.mul_pos hs ht) h

theorem mul_lt_mul_of_tdiv_lt (hs : 0 < s) (ht : 0 < t) (h : x.tdiv s < y.tdiv t) :
    x * t < y * s := by
  by_contra hle
  have := tdiv_le_tdiv_of_mul_le ht hs (Int.not_lt.mp hle)
  omega

/-- Two fractions compare as their whole parts, and then as their remainders. -/
theorem cmp_mul_mul (x y : ℤ) (hs : 0 < s) (ht : 0 < t) :
    cmp (x * t) (y * s) = (cmp (x.tdiv s) (y.tdiv t)).then (cmp (x.tmod s * t) (y.tmod t * s)) := by
  rcases lt_trichotomy (x.tdiv s) (y.tdiv t) with hlt | heq | hgt
  · rw [(mul_lt_mul_of_tdiv_lt hs ht hlt).cmp_eq_lt, hlt.cmp_eq_lt]
    rfl
  · have hx : x * t = x.tmod s * t + y.tdiv t * (s * t) := by
      rw [← heq]
      calc x * t = (x.tdiv s * s + x.tmod s) * t := by rw [Int.tdiv_mul_add_tmod]
        _ = x.tmod s * t + x.tdiv s * (s * t) := by ring
    have hy : y * s = y.tmod t * s + y.tdiv t * (s * t) := by
      calc y * s = (y.tdiv t * t + y.tmod t) * s := by rw [Int.tdiv_mul_add_tmod]
        _ = y.tmod t * s + y.tdiv t * (s * t) := by ring
    rw [heq.cmp_eq_eq, hx, hy, cmp_add_right]
    rfl
  · rw [(mul_lt_mul_of_tdiv_lt ht hs hgt).cmp_eq_gt, hgt.cmp_eq_gt]
    rfl

theorem cmp_div_div (x y : ℤ) (hs : 0 < s) (ht : 0 < t) :
    cmp ((x : ℚ) / s) ((y : ℚ) / t) = cmp (x * t) (y * s) := by
  have hs' : (0 : ℚ) < s := by exact_mod_cast hs
  have ht' : (0 : ℚ) < t := by exact_mod_cast ht
  have hlt {a b : ℤ} {p q : ℤ} (hp : (0 : ℚ) < p) (hq : (0 : ℚ) < q) :
      (a : ℚ) / p < (b : ℚ) / q ↔ a * q < b * p := by
    rw [div_lt_div_iff₀ hp hq]
    exact_mod_cast Iff.rfl
  unfold cmp cmpUsing
  simp only [hlt hs' ht', hlt ht' hs']

end Rounding
