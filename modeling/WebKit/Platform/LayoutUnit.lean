import Mathlib.Algebra.Order.Round
import Mathlib.Data.Rat.Floor
import WebKit.WTF.CheckedArithmetic

/-!
# `LayoutUnit` with saturated arithmetic

A layout value is an `int` that counts 64ths of a pixel. The operations should give the exact
result, truncated toward zero and clamped to the range of an `int` (`ofExact`). Addition,
subtraction, multiplication and division do so for all operands. Negation, `++` and `abs` do not
saturate, the constructor from `unsigned` saturates one pixel too early, and those from wider types
wrap around before they clamp.
-/

namespace WebKit.Platform

open WTF Option Bool

/-- The result of a signed operation; `none` is an overflow. -/
def signed (bits : ℕ) (value : ℤ) : Option ℤ := if Fits bits value then some value else none

/-- `static_cast<int32_t>` -/
def toInt32 (value : ℤ) : ℤ := value.bmod (2 ^ 32)

/-- `static_cast<uint32_t>(a) >> 31` -/
def signBit (a : ℤ) : ℤ := if a < 0 then 1 else 0

/-- Whether the sum overflows, and the sum as an unsigned one. -/
def signedAddOverflows (a b : ℤ) : Bool × ℤ :=
  let result := toInt32 (a + b)
  (signsMatch a b && !signsMatch result a, result)

def saturatedAddition (a b : ℤ) : ℤ :=
  let (overflows, result) := signedAddOverflows a b
  if overflows then toInt32 (limitMax 32 + signBit a) else result

def signedSubtractOverflows (a b : ℤ) : Bool × ℤ :=
  let result := toInt32 (a - b)
  (!signsMatch a b && !signsMatch result a, result)

def saturatedSubtraction (a b : ℤ) : ℤ :=
  let (overflows, result) := signedSubtractOverflows a b
  if overflows then toInt32 (limitMax 32 + signBit a) else result

/-- `clampTo<int>`. The argument is converted to `double`: below 2^53 the conversion is exact, and
above it does not get below the limit. -/
def clampToInt (value : ℤ) : ℤ :=
  if value ≥ limitMax 32 then limitMax 32
  else if value ≤ limitMin 32 then limitMin 32
  else value

/-! ## Layout units -/

structure LayoutUnit where
  value : ℤ
  fits : Fits 32 value

namespace LayoutUnit

def kFixedPointDenominator : ℤ := 64

def intMaxForLayoutUnit : ℤ := (limitMax 32).tdiv kFixedPointDenominator

def intMinForLayoutUnit : ℤ := (limitMin 32).tdiv kFixedPointDenominator

inductive IntegerType
  | int
  | unsignedShort
  | unsigned
  | unsignedLong
  | unsignedLongLong
  deriving DecidableEq, Repr

/-- The value is one of the type. -/
def IntegerType.Holds (value : ℤ) : IntegerType → Prop
  | .int => Fits 32 value
  | .unsignedShort => 0 ≤ value ∧ value < 2 ^ 16
  | .unsigned => 0 ≤ value ∧ value < 2 ^ 32
  | .unsignedLong | .unsignedLongLong => 0 ≤ value ∧ value < 2 ^ 64

/-- The constructors. An `unsigned short` is promoted to `int`. -/
def construct (value : ℤ) : IntegerType → Option ℤ
  | .int | .unsignedShort =>
    if value > intMaxForLayoutUnit then some (limitMax 32)
    else if value < intMinForLayoutUnit then some (limitMin 32)
    else signed 32 (value * kFixedPointDenominator)
  | .unsigned =>
    if value ≥ intMaxForLayoutUnit then some (limitMax 32)
    else some (toInt32 (value * kFixedPointDenominator % 2 ^ 32))
  | .unsignedLong | .unsignedLongLong =>
    some (clampToInt (value * kFixedPointDenominator % 2 ^ 64))

/-- `operator*` -/
def boundedMultiply (a b : ℤ) : Option ℤ := do
  let product ← signed 64 (a * b)
  let result := product.tdiv kFixedPointDenominator
  let high := toInt32 (result / 2 ^ 32)
  let low := toInt32 result
  let saturated := (if signsMatch a b then 0 else 1) + limitMax 32
  -- if the higher 32 bits do not match the lower 32 with sign extension the operation overflowed
  some (toInt32 (if high ≠ low / 2 ^ 31 then saturated else result))

/-- `operator/` -/
def divide (a b : ℤ) : Option ℤ := do
  let dividend ← signed 64 (kFixedPointDenominator * a)
  some (clampToInt (dividend.tdiv b))

def toInt (value : ℤ) : ℤ := value.tdiv kFixedPointDenominator

def ceil (value : ℤ) : Option ℤ :=
  if value ≥ limitMax 32 - kFixedPointDenominator + 1 then some intMaxForLayoutUnit
  else if value ≥ 0 then do
    let sum ← signed 32 (value + kFixedPointDenominator)
    some ((sum - 1).tdiv kFixedPointDenominator)
  else some (toInt value)

def round (value : ℤ) : ℤ :=
  if value > 0 then
    (saturatedAddition value (kFixedPointDenominator.tdiv 2)).tdiv kFixedPointDenominator
  else
    (saturatedSubtraction value (kFixedPointDenominator.tdiv 2 - 1)).tdiv kFixedPointDenominator

def floor (value : ℤ) : Option ℤ :=
  if value ≤ limitMin 32 + kFixedPointDenominator - 1 then some intMinForLayoutUnit
  else if value ≥ 0 then some (toInt value)
  else do
    let difference ← signed 32 (value - kFixedPointDenominator)
    some ((difference + 1).tdiv kFixedPointDenominator)

inductive UnaryOperator
  | negate
  | increment
  | abs
  deriving DecidableEq, Repr

def UnaryOperator.apply (a : ℤ) : UnaryOperator → Option ℤ
  | .negate => signed 32 (-a)
  | .increment => signed 32 (a + kFixedPointDenominator)
  | .abs => signed 32 |a|

/-- `+=` and `-=` are the same as `+` and `-`. -/
inductive BinaryOperator
  | add
  | subtract
  | multiply
  | divide
  deriving DecidableEq, Repr

def BinaryOperator.apply (a b : ℤ) : BinaryOperator → Option ℤ
  | .add => some (saturatedAddition a b)
  | .subtract => some (saturatedSubtraction a b)
  | .multiply => boundedMultiply a b
  | .divide => LayoutUnit.divide a b

/-! ## What the operations should give -/

/-- The rational number without its fraction. -/
def truncate (q : ℚ) : ℤ := if 0 ≤ q then ⌊q⌋ else ⌈q⌉

/-- The number of pixels. -/
def pixels (value : ℤ) : ℚ := value / 64

/-- The raw value for an exact result: 64ths, truncated and clamped. -/
def ofExact (q : ℚ) : ℤ := max (limitMin 32) (min (limitMax 32) (truncate (q * 64)))

def UnaryOperator.exact (a : ℚ) : UnaryOperator → ℚ
  | .negate => -a
  | .increment => a + 1
  | .abs => |a|

def BinaryOperator.exact (a b : ℚ) : BinaryOperator → ℚ
  | .add => a + b
  | .subtract => a - b
  | .multiply => a * b
  | .divide => a / b

/-- The operation does not overflow. -/
def UnaryOperator.Guard (a : ℤ) : UnaryOperator → Prop
  | .negate | .abs => a ≠ limitMin 32
  | .increment => a + 64 ≤ limitMax 32

/-- The value is not the number of pixels at which `unsigned` begins to saturate, and does not wrap
around to something that is not clamped. -/
def IntegerType.Guard (value : ℤ) : IntegerType → Prop
  | .int | .unsignedShort => True
  | .unsigned => value ≠ 33554431
  | .unsignedLong | .unsignedLongLong =>
    value * 64 < 2 ^ 64 ∨ limitMax 32 ≤ value * 64 % 2 ^ 64

variable {a b n d value : ℤ}

theorem truncate_div_natCast (n : ℤ) {d : ℕ} (hd : 0 < d) : truncate ((n : ℚ) / d) = n.tdiv d := by
  have hpos : (0 : ℚ) < d := by exact_mod_cast hd
  unfold truncate
  split
  · rename_i h
    have hn : 0 ≤ n := by
      by_contra hlt
      have hneg : (n : ℚ) < 0 := by exact_mod_cast not_le.mp hlt
      exact absurd h (not_le.mpr (div_neg_of_neg_of_pos hneg hpos))
    rw [Rat.floor_intCast_div_natCast, Int.tdiv_eq_ediv_of_nonneg hn]
  · rename_i h
    have hn : n ≤ 0 := by
      by_contra hlt
      have hnonneg : (0 : ℚ) ≤ n := by exact_mod_cast (not_le.mp hlt).le
      exact h (div_nonneg hnonneg hpos.le)
    rw [Rat.ceil_intCast_div_natCast, ← Int.tdiv_eq_ediv_of_nonneg (by omega), Int.neg_tdiv,
      neg_neg]

theorem truncate_div (n : ℤ) {d : ℤ} (hd : d ≠ 0) : truncate ((n : ℚ) / d) = n.tdiv d := by
  rcases lt_or_gt_of_ne hd with hneg | hpos
  · have h := truncate_div_natCast (-n) (d := d.natAbs) (by omega)
    have hcast : ((d.natAbs : ℤ) : ℚ) = -d := by
      rw [Int.ofNat_natAbs_of_nonpos hneg.le, Int.cast_neg]
    rw [← Int.cast_natCast, hcast, Int.cast_neg, neg_div_neg_eq,
      Int.ofNat_natAbs_of_nonpos hneg.le, Int.neg_tdiv, Int.tdiv_neg, neg_neg] at h
    exact h
  · have h := truncate_div_natCast n (d := d.natAbs) (by omega)
    rwa [← Int.cast_natCast, Int.natAbs_of_nonneg hpos.le] at h

theorem ofExact_div (n : ℤ) (hd : d ≠ 0) :
    ofExact ((n : ℚ) / d / 64) = max (limitMin 32) (min (limitMax 32) (n.tdiv d)) := by
  rw [ofExact, div_mul_cancel₀ _ (by norm_num), truncate_div n hd]

theorem ofExact_intCast (n : ℤ) :
    ofExact ((n : ℚ) / 64) = max (limitMin 32) (min (limitMax 32) n) := by
  have h := ofExact_div n one_ne_zero
  rwa [Int.cast_one, div_one, Int.tdiv_one] at h

theorem limits : limitMin 32 = -2147483648 ∧ limitMax 32 = 2147483647 := by decide

theorem fits_ofExact (q : ℚ) : Fits 32 (ofExact q) := by
  obtain ⟨hmin, hmax⟩ := limits
  unfold Fits ofExact
  omega

theorem saturatedAddition_eq (ha : Fits 32 a) (hb : Fits 32 b) :
    saturatedAddition a b = max (limitMin 32) (min (limitMax 32) (a + b)) := by
  obtain ⟨hmin, hmax⟩ := limits
  unfold Fits at ha hb
  simp only [saturatedAddition, signedAddOverflows, toInt32, signBit, Int.bmod_def,
    and_eq_true, not_eq_true', ← not_eq_true, signsMatch_iff]
  split_ifs <;> omega

theorem saturatedSubtraction_eq (ha : Fits 32 a) (hb : Fits 32 b) :
    saturatedSubtraction a b = max (limitMin 32) (min (limitMax 32) (a - b)) := by
  obtain ⟨hmin, hmax⟩ := limits
  unfold Fits at ha hb
  simp only [saturatedSubtraction, signedSubtractOverflows, toInt32, signBit, Int.bmod_def,
    and_eq_true, not_eq_true', ← not_eq_true, signsMatch_iff]
  split_ifs <;> omega

theorem signed_eq_some_iff {bits : ℕ} : signed bits n = some value ↔ Fits bits n ∧ n = value := by
  simp [signed]

theorem abs_mul_le (ha : Fits 32 a) (hb : Fits 32 b) : |a * b| ≤ 2 ^ 62 := by
  obtain ⟨hmin, hmax⟩ := limits
  unfold Fits at ha hb
  rw [abs_mul]
  have ha' : |a| ≤ 2 ^ 31 := abs_le.mpr (by omega)
  have hb' : |b| ≤ 2 ^ 31 := abs_le.mpr (by omega)
  calc |a| * |b| ≤ 2 ^ 31 * 2 ^ 31 := mul_le_mul ha' hb' (abs_nonneg b) (by norm_num)
    _ = 2 ^ 62 := by norm_num

theorem saturated_eq {product : ℤ} {sameSign : Bool} (hle : -2 ^ 56 ≤ product ∧ product ≤ 2 ^ 56)
    (hpos : 0 < product → sameSign = true) (hneg : product < 0 → sameSign = false) :
    toInt32 (if toInt32 (product / 2 ^ 32) ≠ toInt32 product / 2 ^ 31 then
      (if sameSign then 0 else 1) + limitMax 32 else product) =
      max (limitMin 32) (min (limitMax 32) product) := by
  obtain ⟨hmin, hmax⟩ := limits
  have hhigh : toInt32 (product / 2 ^ 32) = product / 2 ^ 32 := by
    unfold toInt32
    rw [Int.bmod_def]
    split_ifs <;> omega
  have hlow : toInt32 product / 2 ^ 31 = if product % 2 ^ 32 < 2 ^ 31 then 0 else -1 := by
    unfold toInt32
    rw [Int.bmod_def]
    split_ifs <;> omega
  rw [hhigh, hlow]
  by_cases hfits : Fits 32 product
  · unfold Fits at hfits
    rw [if_neg (by split_ifs <;> omega)]
    unfold toInt32
    rw [Int.bmod_def]
    split_ifs <;> omega
  · unfold Fits at hfits
    rw [if_pos (by split_ifs <;> omega)]
    rcases lt_or_gt_of_ne (show product ≠ 0 by omega) with h | h
    · have hsaturated : toInt32 ((if false = true then 0 else 1) + limitMax 32) = limitMin 32 := by
        decide
      rw [hneg h, hsaturated]
      omega
    · have hsaturated : toInt32 ((if true = true then 0 else 1) + limitMax 32) = limitMax 32 := by
        decide
      rw [hpos h, hsaturated]
      omega

theorem boundedMultiply_eq (ha : Fits 32 a) (hb : Fits 32 b) : boundedMultiply a b =
      some (max (limitMin 32) (min (limitMax 32) ((a * b).tdiv kFixedPointDenominator))) := by
  have hle := abs_le.mp (abs_mul_le ha hb)
  have hfits : Fits 64 (a * b) := by
    unfold Fits limitMin limitMax
    omega
  have hsign : 0 < (a * b).tdiv 64 → signsMatch a b = true := by
    intro hpos
    rw [signsMatch_iff]
    have hprod : 0 < a * b := by
      by_contra hneg
      rw [← neg_neg (a * b), Int.neg_tdiv, Int.tdiv_eq_ediv_of_nonneg (by omega)] at hpos
      omega
    rcases pos_and_pos_or_neg_and_neg_of_mul_pos hprod with h | h <;> omega
  have hsign' : (a * b).tdiv 64 < 0 → signsMatch a b = false := by
    intro hneg
    rw [← not_eq_true, signsMatch_iff]
    have hprod : a * b < 0 := by
      by_contra hpos
      rw [Int.tdiv_eq_ediv_of_nonneg (by omega)] at hneg
      omega
    rcases mul_neg_iff.mp hprod with h | h <;> omega
  have hrange : -2 ^ 56 ≤ (a * b).tdiv 64 ∧ (a * b).tdiv 64 ≤ 2 ^ 56 := by
    rcases le_total 0 (a * b) with h | h
    · rw [Int.tdiv_eq_ediv_of_nonneg h]
      omega
    · rw [← neg_neg (a * b), Int.neg_tdiv, Int.tdiv_eq_ediv_of_nonneg (by omega)]
      omega
  unfold boundedMultiply kFixedPointDenominator
  rw [signed, if_pos hfits]
  exact congrArg some (saturated_eq hrange hsign hsign')

theorem clampToInt_eq (value : ℤ) :
    clampToInt value = max (limitMin 32) (min (limitMax 32) value) := by
  obtain ⟨hmin, hmax⟩ := limits
  unfold clampToInt
  split_ifs <;> omega

theorem divide_eq (ha : Fits 32 a) (b : ℤ) : divide a b =
    some (max (limitMin 32) (min (limitMax 32) ((kFixedPointDenominator * a).tdiv b))) := by
  have hfits : Fits 64 (kFixedPointDenominator * a) := by
    unfold Fits limitMin limitMax kFixedPointDenominator at *
    omega
  rw [divide, signed, if_pos hfits, bind_eq_bind, bind_some, clampToInt_eq]

theorem BinaryOperator.apply_eq (op : BinaryOperator) (ha : Fits 32 a) (hb : Fits 32 b)
    (hdivide : op = .divide → b ≠ 0) :
    op.apply a b = some (ofExact (op.exact (pixels a) (pixels b))) := by
  cases op with
  | add =>
    have h := ofExact_intCast (a + b)
    rw [Int.cast_add, add_div] at h
    exact congrArg some ((saturatedAddition_eq ha hb).trans h.symm)
  | subtract =>
    have h := ofExact_intCast (a - b)
    rw [Int.cast_sub, sub_div] at h
    exact congrArg some ((saturatedSubtraction_eq ha hb).trans h.symm)
  | multiply =>
    have h := ofExact_div (a * b) (show (64 : ℤ) ≠ 0 by decide)
    rw [show ((a * b : ℤ) : ℚ) / (64 : ℤ) / 64 = pixels a * pixels b by
      unfold pixels; push_cast; ring] at h
    exact (boundedMultiply_eq ha hb).trans (congrArg some h.symm)
  | divide =>
    have hb := hdivide rfl
    have h := ofExact_div (64 * a) hb
    rw [show ((64 * a : ℤ) : ℚ) / b / 64 = pixels a / pixels b by
      unfold pixels; push_cast; field_simp] at h
    exact (divide_eq ha b).trans (congrArg some h.symm)

theorem UnaryOperator.apply_eq_iff (op : UnaryOperator) (ha : Fits 32 a) :
    op.apply a = some (ofExact (op.exact (pixels a))) ↔ op.Guard a := by
  obtain ⟨hmin, hmax⟩ := limits
  cases op with
  | negate =>
    have h := ofExact_intCast (-a)
    rw [Int.cast_neg, neg_div] at h
    rw [apply, exact, pixels, h, signed_eq_some_iff, Guard]
    unfold Fits at ha ⊢
    omega
  | increment =>
    have h := ofExact_intCast (a + 64)
    rw [Int.cast_add, add_div, show ((64 : ℤ) : ℚ) / 64 = 1 by norm_num] at h
    rw [apply, exact, pixels, h, signed_eq_some_iff, Guard, kFixedPointDenominator]
    unfold Fits at ha ⊢
    omega
  | abs =>
    have h := ofExact_intCast |a|
    rw [Int.cast_abs, show |(a : ℚ)| / 64 = |(a : ℚ) / 64| by rw [abs_div]; norm_num] at h
    rw [apply, exact, pixels, h, signed_eq_some_iff, Guard]
    unfold Fits at ha ⊢
    rcases abs_cases a with ⟨heq, hle⟩ | ⟨heq, hle⟩ <;> rw [heq] <;> omega

theorem construct_eq_iff (type : IntegerType) (hholds : type.Holds value) :
    construct value type = some (ofExact value) ↔ type.Guard value := by
  obtain ⟨hmin, hmax⟩ := limits
  have h := ofExact_intCast (value * 64)
  rw [Int.cast_mul, Int.cast_ofNat, mul_div_cancel_right₀ _ (by norm_num)] at h
  have hintMax : intMaxForLayoutUnit = 33554431 := by decide
  have hintMin : intMinForLayoutUnit = -33554432 := by decide
  cases type <;>
    simp only [construct, IntegerType.Guard, IntegerType.Holds, Fits, hintMax, hintMin,
      kFixedPointDenominator, toInt32, Int.bmod_def, clampToInt_eq, some.injEq, iff_true]
        at hholds ⊢
  case int | unsignedShort =>
    split_ifs
    · simp only [some.injEq]
      omega
    · simp only [some.injEq]
      omega
    · rw [signed_eq_some_iff]
      unfold Fits
      omega
  case unsigned =>
    split_ifs <;> simp only [some.injEq] <;> omega
  case unsignedLong | unsignedLongLong => omega

theorem floor_pixels (value n : ℤ) : ⌊pixels value + n / 64⌋ = (value + n) / 64 := by
  have h := Rat.floor_intCast_div_natCast (value + n) 64
  rwa [Int.cast_add, add_div, Nat.cast_ofNat] at h

theorem floor_eq (ha : Fits 32 a) : floor a = some ⌊pixels a⌋ := by
  obtain ⟨hmin, hmax⟩ := limits
  have hfloor := floor_pixels a 0
  rw [Int.cast_zero, zero_div, add_zero, add_zero] at hfloor
  have hintMin : intMinForLayoutUnit = -33554432 := by decide
  unfold Fits at ha
  rw [hfloor, floor, hintMin]
  unfold toInt kFixedPointDenominator
  split_ifs
  · rw [some.injEq]
    omega
  · rw [some.injEq, Int.tdiv_eq_ediv_of_nonneg (by omega)]
  · rw [signed, if_pos (by unfold Fits; omega), bind_eq_bind, bind_some,
      some.injEq, ← neg_neg (a - 64 + 1), Int.neg_tdiv,
      Int.tdiv_eq_ediv_of_nonneg (by omega)]
    omega

theorem ceil_eq (a : ℤ) : ceil a = some (min intMaxForLayoutUnit ⌈pixels a⌉) := by
  obtain ⟨hmin, hmax⟩ := limits
  have hceil : ⌈pixels a⌉ = -(-a / 64) := Rat.ceil_intCast_div_natCast a 64
  have hintMax : intMaxForLayoutUnit = 33554431 := by decide
  rw [hceil, ceil, hintMax]
  unfold toInt kFixedPointDenominator
  split_ifs
  · rw [some.injEq]
    omega
  · rw [signed, if_pos (by unfold Fits; omega), bind_eq_bind, bind_some,
      some.injEq, Int.tdiv_eq_ediv_of_nonneg (by omega)]
    omega
  · rw [some.injEq, ← neg_neg a, Int.neg_tdiv, Int.tdiv_eq_ediv_of_nonneg (by omega), neg_neg]
    omega

theorem round_eq (ha : Fits 32 a) : round a = min intMaxForLayoutUnit ⌊pixels a + 1 / 2⌋ := by
  obtain ⟨hmin, hmax⟩ := limits
  have hround := floor_pixels a 32
  rw [show ((32 : ℤ) : ℚ) / 64 = 1 / 2 by norm_num] at hround
  have hintMax : intMaxForLayoutUnit = 33554431 := by decide
  have hhalf : Fits 32 (kFixedPointDenominator.tdiv 2) ∧
      Fits 32 (kFixedPointDenominator.tdiv 2 - 1) := by decide
  rw [hround, round, saturatedAddition_eq ha hhalf.1, saturatedSubtraction_eq ha hhalf.2, hintMax,
    show kFixedPointDenominator.tdiv 2 = 32 by decide]
  unfold Fits at ha
  unfold kFixedPointDenominator
  split_ifs
  · rw [Int.tdiv_eq_ediv_of_nonneg (by omega)]
    omega
  · rw [← neg_neg (max _ _), Int.neg_tdiv, Int.tdiv_eq_ediv_of_nonneg (by omega)]
    omega

/-! ## Chains of operations -/

/-- The operands of a division are in the order in which they are written. -/
inductive Expression
  | value (a : LayoutUnit)
  | construct (value : ℤ) (type : IntegerType)
  | unary (op : UnaryOperator) (e : Expression)
  | binary (op : BinaryOperator) (e f : Expression)

namespace Expression

def eval : Expression → Option ℤ
  | .value a => some a.value
  | .construct value type => LayoutUnit.construct value type
  | .unary op e => e.eval.bind op.apply
  | .binary op e f => e.eval.bind fun a => f.eval.bind (op.apply a)

/-- Integers are of their types, and nothing is divided by zero. -/
def Valid : Expression → Prop
  | .value _ => True
  | .construct value type => type.Holds value
  | .unary _ e => e.Valid
  | .binary op e f => e.Valid ∧ f.Valid ∧ (op = .divide → f.eval ≠ some 0)

/-- Every operation gives the exact result for its operands, truncated and clamped. -/
def IsExact : Expression → Prop
  | .value _ => True
  | .construct value type => LayoutUnit.construct value type = some (ofExact value)
  | .unary op e => e.IsExact ∧
    ∃ a, e.eval = some a ∧ op.apply a = some (ofExact (op.exact (pixels a)))
  | .binary op e f => e.IsExact ∧ f.IsExact ∧
    ∃ a b, e.eval = some a ∧ f.eval = some b ∧
      op.apply a b = some (ofExact (op.exact (pixels a) (pixels b)))

/-- Every operand is one for which the operation does not overflow or wrap around. -/
def Guarded : Expression → Prop
  | .value _ => True
  | .construct value type => type.Guard value
  | .unary op e => e.Guarded ∧ ∃ a, e.eval = some a ∧ op.Guard a
  | .binary _ e f => e.Guarded ∧ f.Guarded

theorem IsExact.eval_eq {e : Expression} (h : e.IsExact) : ∃ a, e.eval = some a ∧ Fits 32 a := by
  cases e with
  | value a => exact ⟨a.value, rfl, a.fits⟩
  | construct value type => exact ⟨_, h, fits_ofExact _⟩
  | unary op e =>
    obtain ⟨-, a, ha, happly⟩ := h
    exact ⟨_, by rw [eval, ha, bind_some, happly], fits_ofExact _⟩
  | binary op e f =>
    obtain ⟨-, -, a, b, ha, hb, happly⟩ := h
    exact ⟨_, by rw [eval, ha, bind_some, hb, bind_some, happly], fits_ofExact _⟩

theorem isExact_iff (e : Expression) (hvalid : e.Valid) : e.IsExact ↔ e.Guarded := by
  induction e with
  | value a => exact Iff.rfl
  | construct value type => exact construct_eq_iff type hvalid
  | unary op e ih =>
    rw [IsExact, Guarded, ← ih hvalid]
    refine and_congr_right fun hexact => exists_congr fun a => and_congr_right fun heval => ?_
    obtain ⟨a', heval', hfits⟩ := hexact.eval_eq
    cases heval.symm.trans heval'
    exact op.apply_eq_iff hfits
  | binary op e f ihe ihf =>
    obtain ⟨he, hf, hdivide⟩ := hvalid
    rw [IsExact, Guarded, ← ihe he, ← ihf hf]
    refine and_congr_right fun hexact => and_iff_left_of_imp fun hexact' => ?_
    obtain ⟨a, ha, hfits⟩ := hexact.eval_eq
    obtain ⟨b, hb, hfits'⟩ := hexact'.eval_eq
    exact ⟨a, b, ha, hb, op.apply_eq hfits hfits' fun hop heq => hdivide hop (heq ▸ hb)⟩

end Expression

/-- A chain of operations is exact just if no negation, `++` or `abs` overflows and no constructor
saturates too early or wraps around. The rounding functions agree with the mathematical ones, up to
the largest number of pixels. -/
theorem saturates_iff (e : Expression) (he : e.Valid) (a : LayoutUnit) :
    (e.IsExact ↔ e.Guarded) ∧ floor a.value = some ⌊pixels a.value⌋ ∧
      ceil a.value = some (min intMaxForLayoutUnit ⌈pixels a.value⌉) ∧
      round a.value = min intMaxForLayoutUnit ⌊pixels a.value + 1 / 2⌋ :=
  ⟨Expression.isExact_iff e he, floor_eq a.fits, ceil_eq _, round_eq a.fits⟩

/-- Three and a half pixels, twice. -/
theorem saturates_iff_product :
    (Expression.binary .multiply (.value ⟨224, by decide⟩) (.construct 2 .unsigned)).IsExact := by
  have htwo : IntegerType.unsigned.Holds 2 := ⟨by decide, by decide⟩
  have hguard : IntegerType.unsigned.Guard 2 := show (2 : ℤ) ≠ 33554431 by decide
  exact (saturates_iff (.binary .multiply (.value ⟨224, by decide⟩) (.construct 2 .unsigned))
    ⟨trivial, htwo, nofun⟩ ⟨224, by decide⟩).1.mpr ⟨trivial, hguard⟩

/-- The smallest value has no negation. -/
theorem not_saturates : ¬ ∀ e : Expression, e.Valid → e.IsExact := by
  intro h
  obtain ⟨-, a, heval, happly⟩ := h (.unary .negate (.value ⟨limitMin 32, by decide⟩)) trivial
  cases heval
  have hnone : UnaryOperator.apply (limitMin 32) .negate = none := by decide
  rw [hnone] at happly
  cases happly

end LayoutUnit

end WebKit.Platform
