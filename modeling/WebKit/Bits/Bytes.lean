import Mathlib.Tactic.Ring

/-!
# Rounding up to an alignment

The least multiple of an alignment from a number on, computed by a division or, for an
alignment that is a power of two, by masking the low bits of a machine word. Rounding
commutes with a shift by a multiple of the alignment, so positions in a block of memory
and offsets into it are rounded in the same way when the block itself is aligned.
-/

namespace Bits

def roundUp (value alignment : ℕ) : ℕ := (value + alignment - 1) / alignment * alignment

variable {value alignment base k w : ℕ}

theorem le_roundUp (h : 0 < alignment) : value ≤ roundUp value alignment := by
  have hdiv := Nat.div_add_mod (value + alignment - 1) alignment
  have hlt := Nat.mod_lt (value + alignment - 1) h
  have hcomm : roundUp value alignment = alignment * ((value + alignment - 1) / alignment) :=
    mul_comm _ _
  omega

theorem roundUp_lt (h : 0 < alignment) : roundUp value alignment < value + alignment := by
  have hle : roundUp value alignment ≤ value + alignment - 1 := Nat.div_mul_le_self _ _
  omega

theorem roundUp_eq_sub_mod : roundUp value alignment =
      value + alignment - 1 - (value + alignment - 1) % alignment := by
  have hdiv := Nat.div_add_mod (value + alignment - 1) alignment
  have hcomm : roundUp value alignment = alignment * ((value + alignment - 1) / alignment) :=
    mul_comm _ _
  omega

theorem roundUp_base_add (h : 0 < alignment) (hbase : alignment ∣ base) :
    roundUp (base + value) alignment = base + roundUp value alignment := by
  obtain ⟨c, rfl⟩ := hbase
  have hassoc : alignment * c + value + alignment - 1 =
      alignment * c + (value + alignment - 1) := by
    omega
  unfold roundUp
  rw [hassoc, Nat.mul_add_div h, add_mul, mul_comm c alignment]

theorem toNat_and_not_mask (x : BitVec w) (hk : k ≤ w) :
    (x &&& ~~~BitVec.ofNat w (2 ^ k - 1)).toNat = x.toNat - x.toNat % 2 ^ k := by
  have hpow : 2 ^ k ≤ 2 ^ w := Nat.pow_le_pow_right (by omega) hk
  have hpos : 0 < 2 ^ k := Nat.two_pow_pos k
  have hmask : (x &&& BitVec.ofNat w (2 ^ k - 1)).toNat = x.toNat % 2 ^ k := by
    rw [BitVec.toNat_and, BitVec.toNat_ofNat, Nat.mod_eq_of_lt (by omega),
      Nat.and_two_pow_sub_one_eq_mod]
  -- the word is the sum of the bits under the mask and the others
  have hsplit : (x &&& ~~~BitVec.ofNat w (2 ^ k - 1)) + (x &&& BitVec.ofNat w (2 ^ k - 1)) = x := by
    rw [BitVec.add_eq_or_of_and_eq_zero]
    · ext i
      simp only [BitVec.getElem_or, BitVec.getElem_and, BitVec.getElem_not]
      cases x[i] <;> cases (BitVec.ofNat w (2 ^ k - 1))[i] <;> rfl
    · ext i
      simp only [BitVec.getElem_and, BitVec.getElem_not, BitVec.getElem_zero]
      cases x[i] <;> cases (BitVec.ofNat w (2 ^ k - 1))[i] <;> rfl
  have hsub : x &&& ~~~BitVec.ofNat w (2 ^ k - 1) = x - (x &&& BitVec.ofNat w (2 ^ k - 1)) :=
    BitVec.eq_sub_iff_add_eq.mpr hsplit
  rw [hsub, BitVec.toNat_sub_of_le, hmask]
  rw [BitVec.le_def, hmask]
  exact Nat.mod_le _ _

/-- Rounding up by adding a mask and clearing its bits, when the addition does not wrap. -/
theorem toNat_add_mask_and_not_mask (hk : k ≤ w) (hfits : value + 2 ^ k ≤ 2 ^ w) :
    ((BitVec.ofNat w value + BitVec.ofNat w (2 ^ k - 1)) &&&
      ~~~BitVec.ofNat w (2 ^ k - 1)).toNat = roundUp value (2 ^ k) := by
  have hpos : 0 < 2 ^ k := Nat.two_pow_pos k
  have hsum : (BitVec.ofNat w value + BitVec.ofNat w (2 ^ k - 1)).toNat = value + 2 ^ k - 1 := by
    have hvalue : value % 2 ^ w = value := Nat.mod_eq_of_lt (by omega)
    have hmask : (2 ^ k - 1) % 2 ^ w = 2 ^ k - 1 := Nat.mod_eq_of_lt (by omega)
    rw [BitVec.toNat_add, BitVec.toNat_ofNat, BitVec.toNat_ofNat, hvalue, hmask,
      Nat.mod_eq_of_lt (by omega)]
    omega
  rw [toNat_and_not_mask _ hk, hsum, roundUp_eq_sub_mod]

/-!
## Numbers as bytes

The bytes of a number in memory, the least significant byte first.
-/

def toBytes : ℕ → ℕ → List UInt8
  | 0, _ => []
  | size + 1, x => UInt8.ofNat x :: toBytes size (x / 256)

def ofBytes : List UInt8 → ℕ
  | [] => 0
  | byte :: bytes => byte.toNat + 256 * ofBytes bytes

@[simp] theorem length_toBytes (size x : ℕ) : (toBytes size x).length = size := by
  induction size generalizing x with
  | zero => rfl
  | succ size ih => rw [toBytes, List.length_cons, ih]

theorem ofBytes_toBytes (size x : ℕ) : ofBytes (toBytes size x) = x % 256 ^ size := by
  induction size generalizing x with
  | zero => rw [pow_zero, Nat.mod_one]; rfl
  | succ size ih =>
    have hbyte : (UInt8.ofNat x).toNat = x % 256 := by simp
    rw [toBytes, ofBytes, ih, hbyte, pow_succ, mul_comm, mul_comm (256 ^ size), Nat.mod_mul]
    ring

theorem ofBytes_toBytes_of_lt {size x : ℕ} (h : x < 256 ^ size) : ofBytes (toBytes size x) = x := by
  rw [ofBytes_toBytes, Nat.mod_eq_of_lt h]

theorem ofBytes_append (bytes bytes' : List UInt8) :
    ofBytes (bytes ++ bytes') = ofBytes bytes + 256 ^ bytes.length * ofBytes bytes' := by
  induction bytes with
  | nil => simp [ofBytes]
  | cons byte bytes ih =>
    rw [List.cons_append, ofBytes, ih, ofBytes, List.length_cons, pow_succ]
    ring

theorem ofBytes_lt (bytes : List UInt8) : ofBytes bytes < 256 ^ bytes.length := by
  induction bytes with
  | nil => exact one_pos
  | cons byte bytes ih =>
    have hbyte := byte.toNat_lt
    rw [ofBytes, List.length_cons, pow_succ]
    omega

theorem toBytes_ofBytes (bytes : List UInt8) : toBytes bytes.length (ofBytes bytes) = bytes := by
  induction bytes with
  | nil => rfl
  | cons byte bytes ih =>
    have hbyte := byte.toNat_lt
    have hdiv : (byte.toNat + 256 * ofBytes bytes) / 256 = ofBytes bytes := by omega
    have hmod : UInt8.ofNat (byte.toNat + 256 * ofBytes bytes) = byte := by
      apply UInt8.toNat_inj.mp
      rw [UInt8.toNat_ofNat']
      omega
    rw [List.length_cons, toBytes, ofBytes, hdiv, ih, hmod]

end Bits
