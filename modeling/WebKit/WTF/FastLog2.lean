import Mathlib.Data.BitVec
import Mathlib.Data.Nat.Log

/-!
# `fastLog2`

The position of the highest bit is found by halving the number of bits that are left. It is the
logarithm rounded down, and one more is the logarithm rounded up unless the number is a power of
two.
-/

namespace WebKit.WTF

/-- The number of bits that have been shifted out, and what is left. -/
def fastLog2Step (bits : ℕ) (state : ℕ × BitVec 32) : ℕ × BitVec 32 :=
  if state.2 >>> bits ≠ 0 then (state.1 + bits, state.2 >>> bits) else state

def fastLog2 (i : BitVec 32) : ℕ :=
  let log2 := if i &&& (i - 1) ≠ 0 then 1 else 0
  (fastLog2Step 1 (fastLog2Step 2 (fastLog2Step 4 (fastLog2Step 8 (fastLog2Step 16 (log2, i)))))).1

/-- Some bits of a number have been shifted out, and less than `bits` are left. -/
def Shifted (n log2 bits : ℕ) (state : ℕ × BitVec 32) : Prop :=
  ∃ out, state.1 = log2 + out ∧ state.2.toNat = n / 2 ^ out ∧ state.2.toNat ≠ 0 ∧
    state.2.toNat < 2 ^ bits

theorem Shifted.step {n log2 bits : ℕ} {state : ℕ × BitVec 32}
    (h : Shifted n log2 (bits + bits) state) :
    Shifted n log2 bits (fastLog2Step bits state) := by
  obtain ⟨out, hlog2, heq, hne, hlt⟩ := h
  have hshift : (state.2 >>> bits).toNat = state.2.toNat / 2 ^ bits := by
    rw [BitVec.toNat_ushiftRight, Nat.shiftRight_eq_div_pow]
  unfold fastLog2Step
  split
  · rename_i hzero
    refine ⟨out + bits, ?_, ?_, ?_, ?_⟩
    · omega
    · rw [hshift, heq, Nat.div_div_eq_div_mul, pow_add]
    · intro h
      exact hzero (BitVec.eq_of_toNat_eq h)
    · rw [hshift]
      apply Nat.div_lt_of_lt_mul
      rw [← pow_add]
      exact hlt
  · rename_i hzero
    refine ⟨out, hlog2, heq, hne, ?_⟩
    rw [not_not] at hzero
    rw [hzero] at hshift
    exact (Nat.div_eq_zero_iff_lt (Nat.two_pow_pos bits)).mp hshift.symm

theorem and_sub_one_ne_zero_iff {i : BitVec 32} (hi : i.toNat ≠ 0) :
    i &&& (i - 1) ≠ 0 ↔ ¬i.toNat.isPowerOfTwo := by
  have hsub : (i - 1).toNat = i.toNat - 1 := by
    rw [BitVec.toNat_sub_of_le]
    · rfl
    · exact BitVec.le_def.mpr (Nat.pos_of_ne_zero hi)
  rw [not_iff_not, ← Nat.and_sub_one_eq_zero_iff_isPowerOfTwo hi, ← hsub, ← BitVec.toNat_and]
  exact ⟨congrArg BitVec.toNat, fun h => BitVec.eq_of_toNat_eq h⟩

theorem fastLog2_eq_clog (i : BitVec 32) : fastLog2 i = Nat.clog 2 i.toNat := by
  by_cases hi : i.toNat = 0
  · obtain rfl : i = 0 := BitVec.eq_of_toNat_eq hi
    rfl
  · unfold fastLog2
    generalize hstart : (if i &&& (i - 1) ≠ 0 then 1 else 0 : ℕ) = log2
    have h16 : Shifted i.toNat log2 (16 + 16) (log2, i) :=
      ⟨0, rfl, (Nat.div_one _).symm, hi, i.isLt⟩
    have h8 : Shifted i.toNat log2 (8 + 8) _ := h16.step
    have h4 : Shifted i.toNat log2 (4 + 4) _ := h8.step
    have h2 : Shifted i.toNat log2 (2 + 2) _ := h4.step
    have h1 : Shifted i.toNat log2 (1 + 1) _ := h2.step
    obtain ⟨out, hlog2, heq, hne, hlt⟩ := h1.step
    have hone : i.toNat / 2 ^ out = 1 := by omega
    have hle : 2 ^ out ≤ i.toNat := (Nat.one_le_div_iff (Nat.two_pow_pos out)).mp hone.ge
    have hgt : i.toNat < 2 ^ (out + 1) := by
      have hmul := Nat.lt_mul_div_succ i.toNat (Nat.two_pow_pos out)
      rw [hone] at hmul
      exact hmul
    rw [hlog2, ← hstart]
    split
    · rename_i hpow
      rw [and_sub_one_ne_zero_iff hi] at hpow
      have hlt' : 2 ^ out < i.toNat := lt_of_le_of_ne hle fun h => hpow ⟨out, h.symm⟩
      apply le_antisymm
      · rw [add_comm]
        exact (Nat.lt_clog_iff_pow_lt Nat.one_lt_two).mpr hlt'
      · rw [add_comm]
        exact Nat.clog_le_of_le_pow hgt.le
    · rename_i hpow
      rw [and_sub_one_ne_zero_iff hi, not_not] at hpow
      obtain ⟨k, hk⟩ := hpow
      rw [hk] at hle hgt ⊢
      have hout := (Nat.pow_le_pow_iff_right Nat.one_lt_two).mp hle
      have hout' := (Nat.pow_lt_pow_iff_right Nat.one_lt_two).mp hgt
      rw [Nat.clog_pow 2 k Nat.one_lt_two]
      omega

theorem fastLog2_mono {i j : BitVec 32} (h : i ≤ j) : fastLog2 i ≤ fastLog2 j := by
  rw [fastLog2_eq_clog, fastLog2_eq_clog]
  exact Nat.clog_mono_right 2 (BitVec.le_def.mp h)

end WebKit.WTF
