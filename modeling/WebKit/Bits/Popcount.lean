import Mathlib.Algebra.BigOperators.Ring.Finset
import Mathlib.Data.Nat.Bitwise

/-!
# Counting bits in parallel

A number is a sum of fields. The parallel count of its bits replaces every two bits by
their count, adds neighbouring fields to fields of twice the width, and adds the last fields
with a multiplication. No field overflows, so that each step acts on every field for itself;
each is proved by induction on the number of fields, for any number of them.
-/

namespace Bits

/-- The number of the `n` low bits that are set. -/
def popcount : ℕ → ℕ → ℕ
  | 0, _ => 0
  | n + 1, x => x % 2 + popcount n (x / 2)

/-- The same low bits in `n` fields of a base. -/
def mask (low base : ℕ) : ℕ → ℕ
  | 0 => 0
  | n + 1 => low + base * mask low base n

/-- The counts of the bits in `n` fields of `2 ^ w` values. -/
def counts (w : ℕ) : ℕ → ℕ → ℕ
  | 0, _ => 0
  | n + 1, x => popcount w x + 2 ^ w * counts w n (x / 2 ^ w)

theorem popcount_eq_card (n x : ℕ) :
    popcount n x = ((Finset.range n).filter fun i => x.testBit i).card := by
  induction n generalizing x with
  | zero => rfl
  | succ n ih =>
    rw [popcount, ih, Finset.card_filter, Finset.card_filter, Finset.sum_range_succ',
      Nat.testBit_zero, add_comm]
    congr 1
    · simp only [Nat.testBit_add_one]
    · rcases Nat.mod_two_eq_zero_or_one x with h | h <;> simp [h]

theorem and_mask {k w : ℕ} (hk : k ≤ w) (x n : ℕ) : x &&& mask (2 ^ k - 1) (2 ^ w) (n + 1) =
      x % 2 ^ k + 2 ^ w * (x / 2 ^ w &&& mask (2 ^ k - 1) (2 ^ w) n) := by
  have hlow : 2 ^ k - 1 < 2 ^ w :=
    (Nat.sub_lt (Nat.two_pow_pos k) one_pos).trans_le (Nat.pow_le_pow_right (by decide) hk)
  have hmod : x % 2 ^ k < 2 ^ w :=
    (Nat.mod_lt _ (Nat.two_pow_pos k)).trans_le (Nat.pow_le_pow_right (by decide) hk)
  refine Nat.eq_of_testBit_eq fun i => ?_
  rw [mask, add_comm (2 ^ k - 1), add_comm (x % 2 ^ k), Nat.testBit_and,
    Nat.testBit_two_pow_mul_add _ hlow, Nat.testBit_two_pow_mul_add _ hmod]
  split
  · rw [Nat.testBit_two_pow_sub_one, Nat.testBit_mod_two_pow, Bool.and_comm]
  · next hi =>
    rw [Nat.testBit_and, Nat.testBit_div_two_pow, Nat.sub_add_cancel (not_lt.mp hi)]

theorem and_mask_one_bit (x n : ℕ) : x &&& mask 1 4 (n + 1) = x % 2 + 4 * (x / 4 &&& mask 1 4 n) :=
  and_mask (show 1 ≤ 2 by decide) x n

theorem and_mask_two_bits (x n : ℕ) :
    x &&& mask 3 16 (n + 1) = x % 4 + 16 * (x / 16 &&& mask 3 16 n) :=
  and_mask (show 2 ≤ 4 by decide) x n

theorem and_mask_four_bits (x n : ℕ) :
    x &&& mask 15 256 (n + 1) = x % 16 + 256 * (x / 256 &&& mask 15 256 n) :=
  and_mask (show 4 ≤ 8 by decide) x n

theorem popcount_mod {n k : ℕ} (h : n ≤ k) (x : ℕ) : popcount n (x % 2 ^ k) = popcount n x := by
  rw [popcount_eq_card, popcount_eq_card]
  refine congrArg Finset.card (Finset.filter_congr fun i hi => ?_)
  have hlt : i < k := (Finset.mem_range.mp hi).trans_le h
  rw [Nat.testBit_mod_two_pow, decide_eq_true hlt, Bool.true_and]

theorem popcount_two (x : ℕ) : popcount 2 x = x % 2 + x / 2 % 2 := by
  simp [popcount]

theorem popcount_le (n x : ℕ) : popcount n x ≤ n := by
  induction n generalizing x with
  | zero => exact le_rfl
  | succ n ih =>
    rw [popcount]
    have := ih (x / 2)
    omega

theorem counts_le (w n x : ℕ) : counts w n x ≤ mask w (2 ^ w) n := by
  induction n generalizing x with
  | zero => exact le_rfl
  | succ n ih => exact Nat.add_le_add (popcount_le w x) (Nat.mul_le_mul_left _ (ih _))

theorem popcount_add (n m x : ℕ) : popcount (n + m) x = popcount n x + popcount m (x / 2 ^ n) := by
  induction n generalizing x with
  | zero => simp [popcount]
  | succ n ih =>
    rw [Nat.succ_add_eq_add_succ, Nat.add_succ, popcount, popcount, ih, add_assoc,
      Nat.div_div_eq_div_mul, Nat.pow_succ']

theorem sub_and_mask (n x : ℕ) (hx : x < 4 ^ n) :
    (x / 2 &&& mask 1 4 n) ≤ x ∧ x - (x / 2 &&& mask 1 4 n) = counts 2 n x := by
  induction n generalizing x with
  | zero =>
    obtain rfl : x = 0 := by simpa using hx
    exact ⟨by simp, rfl⟩
  | succ n ih =>
    have hrest : x / 4 < 4 ^ n := by
      omega
    obtain ⟨hle, heq⟩ := ih (x / 4) hrest
    have hhalf : x / 2 / 4 = x / 4 / 2 := by omega
    rw [and_mask_one_bit, hhalf, counts, popcount_two]
    rw [show 2 ^ 2 = 4 from rfl, ← heq]
    omega

theorem add_and_mask_two (n x : ℕ) :
    (counts 2 (2 * n) x &&& mask 3 16 n) + (counts 2 (2 * n) x / 4 &&& mask 3 16 n) =
      counts 4 n x := by
  induction n generalizing x with
  | zero => simp [mask, counts]
  | succ n ih =>
    have hfirst := popcount_le 2 x
    have hsnd := popcount_le 2 (x / 4)
    have hfields : counts 2 (2 * (n + 1)) x =
        popcount 2 x + 4 * (popcount 2 (x / 4) + 4 * counts 2 (2 * n) (x / 16)) := by
      rw [Nat.mul_succ, counts, counts, Nat.div_div_eq_div_mul]
      rfl
    have hcount : popcount 4 x = popcount 2 x + popcount 2 (x / 4) := popcount_add 2 2 x
    have hstep := ih (x / 16)
    rw [and_mask_two_bits, and_mask_two_bits, counts, hcount, show 2 ^ 4 = 16 from rfl, ← hstep]
    have hdiv : counts 2 (2 * (n + 1)) x / 16 = counts 2 (2 * n) (x / 16) := by omega
    have hdiv' : counts 2 (2 * (n + 1)) x / 4 / 16 = counts 2 (2 * n) (x / 16) / 4 := by omega
    rw [hdiv, hdiv', hfields]
    omega

/-- The third step: neighbouring counts of four bits are added before the mask is used. -/
theorem add_and_mask_four (n x : ℕ) :
    (counts 4 (2 * n) x + counts 4 (2 * n) x / 16) &&& mask 15 256 n = counts 8 n x := by
  induction n generalizing x with
  | zero => simp [mask, counts]
  | succ n ih =>
    have hfirst := popcount_le 4 x
    have hsnd := popcount_le 4 (x / 16)
    have hfields : counts 4 (2 * (n + 1)) x =
        popcount 4 x + 16 * (popcount 4 (x / 16) + 16 * counts 4 (2 * n) (x / 256)) := by
      rw [Nat.mul_succ, counts, counts, Nat.div_div_eq_div_mul]
      rfl
    have hcount : popcount 8 x = popcount 4 x + popcount 4 (x / 16) := popcount_add 4 4 x
    have hlow : counts 4 (2 * n) (x / 256) % 16 ≤ 4 := by
      cases n with
      | zero => exact Nat.zero_le _
      | succ n =>
        have hle := popcount_le 4 (x / 256)
        rw [Nat.mul_succ, counts]
        omega
    have hstep := ih (x / 256)
    rw [and_mask_four_bits, counts, hcount, show 2 ^ 8 = 256 from rfl, ← hstep]
    have hdiv : (counts 4 (2 * (n + 1)) x + counts 4 (2 * (n + 1)) x / 16) / 256 =
        counts 4 (2 * n) (x / 256) + counts 4 (2 * n) (x / 256) / 16 := by omega
    rw [hdiv, hfields]
    omega

theorem highest_field {low count high : ℕ} (hlow : low < 2 ^ 24) (hcount : count < 2 ^ 8) :
    (low + 2 ^ 24 * count + 2 ^ 32 * high) % 2 ^ 32 / 2 ^ 24 = count := by
  omega

/-- The last step: the multiplication adds the four counts of a word in its highest field. -/
theorem mul_div_counts (x : ℕ) : counts 8 4 x * 0x1010101 % 2 ^ 32 / 2 ^ 24 = popcount 32 x := by
  have h0 := popcount_le 8 x
  have h1 := popcount_le 8 (x / 2 ^ 8)
  have h2 := popcount_le 8 (x / 2 ^ 8 / 2 ^ 8)
  have h3 := popcount_le 8 (x / 2 ^ 8 / 2 ^ 8 / 2 ^ 8)
  have hsum : popcount 32 x = popcount 8 x + (popcount 8 (x / 2 ^ 8) +
      (popcount 8 (x / 2 ^ 8 / 2 ^ 8) + popcount 8 (x / 2 ^ 8 / 2 ^ 8 / 2 ^ 8))) := by
    rw [show 32 = 8 + (8 + (8 + 8)) from rfl, popcount_add, popcount_add, popcount_add]
  rw [hsum]
  simp only [counts]
  generalize popcount 8 x = a at *
  generalize popcount 8 (x / 2 ^ 8) = b at *
  generalize popcount 8 (x / 2 ^ 8 / 2 ^ 8) = c at *
  generalize popcount 8 (x / 2 ^ 8 / 2 ^ 8 / 2 ^ 8) = d at *
  -- The fields of the product that are below, at and above the highest field of a word.
  have hfields : (a + 2 ^ 8 * (b + 2 ^ 8 * (c + 2 ^ 8 * (d + 2 ^ 8 * 0)))) * 0x1010101 =
      (a + 2 ^ 8 * (a + b) + 2 ^ 16 * (a + b + c)) + 2 ^ 24 * (a + (b + (c + d))) +
        2 ^ 32 * ((b + c + d) + 2 ^ 8 * (c + d) + 2 ^ 16 * d) := by omega
  rw [hfields]
  exact highest_field (by omega) (by omega)

end Bits
