import WebKit.Rounding.Truncation
import WebKit.Transition.Outcome
import WebKit.WTF.CheckedArithmetic

/-!
# Media times

A `MediaTime` that holds no double: a number of ticks and the number of ticks in a second. What
is undefined in C++ is an error.
-/

namespace WebKit.WTF

inductive Undefined
  | signedOverflow
  | divisionByZero
  | endless
  deriving DecidableEq

/-- `m_timeFlags`. -/
structure TimeFlags where
  valid : Bool := false
  hasBeenRounded : Bool := false
  positiveInfinite : Bool := false
  negativeInfinite : Bool := false
  indefinite : Bool := false
  deriving DecidableEq

structure MediaTime where
  timeValue : ℤ
  timeScale : ℤ
  timeFlags : TimeFlags
  deriving DecidableEq

/-- The result of an operation of an `int64_t`. -/
def checked (value : ℤ) : Except Undefined ℤ :=
  if Fits 64 value then pure value else throw .signedOverflow

/-- The operator `/` of an `int64_t`. -/
def divide (lhs rhs : ℤ) : Except Undefined ℤ :=
  if rhs = 0 then throw .divisionByZero else checked (lhs.tdiv rhs)

/-- The operator `%`, which is undefined if the quotient is. -/
def modulo (lhs rhs : ℤ) : Except Undefined ℤ := do
  let _ ← divide lhs rhs
  pure (lhs.tmod rhs)

/-- Euclid's Algorithm. -/
def greatestCommonDivisor (a b : ℤ) : ℤ :=
  if b = 0 then a else greatestCommonDivisor b (a.tmod b)
  termination_by b.natAbs
  decreasing_by
    rename_i h
    rw [Int.natAbs_tmod]
    exact Nat.mod_lt _ (Int.natAbs_pos.mpr h)

/-- `none` where the product is no `int32_t`. -/
def leastCommonMultiple (a b : ℤ) : Option ℤ :=
  safeMultiply 32 a (b.tdiv (greatestCommonDivisor a b))

namespace MediaTime

def maximumTimeScale : ℤ := 0x7fffffff

def isInvalid (time : MediaTime) : Bool := !time.timeFlags.valid
def isPositiveInfinite (time : MediaTime) : Bool := time.timeFlags.positiveInfinite
def isNegativeInfinite (time : MediaTime) : Bool := time.timeFlags.negativeInfinite
def isIndefinite (time : MediaTime) : Bool := time.timeFlags.indefinite

def invalidTime : MediaTime := ⟨-1, 1, {}⟩
def positiveInfiniteTime : MediaTime := ⟨0, 1, { valid := true, positiveInfinite := true }⟩
def negativeInfiniteTime : MediaTime := ⟨-1, 1, { valid := true, negativeInfinite := true }⟩
def indefiniteTime : MediaTime := ⟨0, 1, { valid := true, indefinite := true }⟩

/-- The loop of `setTimeScale`: the time scale is halved until the whole part fits. -/
def fitTimeScale (wholePart timeScale : ℤ) : ℤ × ℤ :=
  match _h : safeMultiply 64 wholePart timeScale with
  | some newWholePart => (timeScale, newWholePart)
  | none => fitTimeScale wholePart (timeScale.tdiv 2)
  termination_by timeScale.natAbs
  decreasing_by
    have hne : timeScale ≠ 0 := by
      rintro rfl
      rw [safeMultiply_zero] at _h
      cases _h
    rw [Int.natAbs_tdiv]
    exact Nat.div_lt_self (Int.natAbs_pos.mpr hne) (by decide)

/-- If setting the time scale will cause an overflow, it is divided by two until the number will
fit. -/
def setTimeScale (time : MediaTime) (timeScale : ℤ) : Except Undefined MediaTime := do
  if timeScale = time.timeScale then pure time
  else
    let timeScale := min maximumTimeScale timeScale
    let wholePart ← divide time.timeValue time.timeScale
    let (timeScale, newWholePart) := fitTimeScale wholePart timeScale
    let remainder ← modulo time.timeValue time.timeScale
    let scaled ← checked (remainder * timeScale)
    let fraction ← divide scaled time.timeScale
    let timeValue ← checked (newWholePart + fraction)
    pure { time with timeValue := timeValue, timeScale := timeScale }

/-- The common time scale of an operation. -/
def commonTimeScale (a b : MediaTime) : ℤ :=
  match leastCommonMultiple a.timeScale b.timeScale with
  | some commonTimeScale =>
    if commonTimeScale > maximumTimeScale then maximumTimeScale else commonTimeScale
  | none => maximumTimeScale

/-- The loop of an operation, `safeAdd` or `safeSub`, of two numbers with the common time scale.
At a scale of zero it has no end. -/
def combineFrom (operation : ℤ → ℤ → Option ℤ) (a b : MediaTime) (commonTimeScale : ℤ) :
    Except Undefined MediaTime :=
  match operation a.timeValue b.timeValue with
  | some timeValue => pure { a with timeValue := timeValue }
  | none =>
    if commonTimeScale = 1 then
      pure (if a.timeValue > 0 then positiveInfiniteTime else negativeInfiniteTime)
    else if commonTimeScale = 0 then throw .endless
    else do
      let commonTimeScale' := commonTimeScale.tdiv 2
      let a ← a.setTimeScale commonTimeScale'
      let b ← b.setTimeScale commonTimeScale'
      combineFrom operation a b commonTimeScale'
  termination_by commonTimeScale.natAbs
  decreasing_by
    rename_i h
    rw [Int.natAbs_tdiv]
    exact Nat.div_lt_self (Int.natAbs_pos.mpr h) (by decide)

/-- The part that `operator+` and `operator-` share, for finite times. -/
def combine (operation : ℤ → ℤ → Option ℤ) (a b : MediaTime) : Except Undefined MediaTime := do
  let commonTimeScale := commonTimeScale a b
  let a ← a.setTimeScale commonTimeScale
  let b ← b.setTimeScale commonTimeScale
  combineFrom operation a b commonTimeScale

/-- `operator+`. -/
def add (lhs rhs : MediaTime) : Except Undefined MediaTime :=
  if rhs.isInvalid || lhs.isInvalid then pure invalidTime
  else if rhs.isIndefinite || lhs.isIndefinite then pure indefiniteTime
  else if lhs.isPositiveInfinite && rhs.isNegativeInfinite then pure invalidTime
  else if lhs.isNegativeInfinite && rhs.isPositiveInfinite then pure invalidTime
  else if lhs.isPositiveInfinite || rhs.isPositiveInfinite then pure positiveInfiniteTime
  else if lhs.isNegativeInfinite || rhs.isNegativeInfinite then pure negativeInfiniteTime
  else combine (safeAdd 64) lhs rhs

/-- `operator-`. -/
def sub (lhs rhs : MediaTime) : Except Undefined MediaTime :=
  if rhs.isInvalid || lhs.isInvalid then pure invalidTime
  else if rhs.isIndefinite || lhs.isIndefinite then pure indefiniteTime
  else if lhs.isPositiveInfinite && rhs.isPositiveInfinite then pure invalidTime
  else if lhs.isNegativeInfinite && rhs.isNegativeInfinite then pure invalidTime
  else if lhs.isPositiveInfinite || rhs.isNegativeInfinite then pure positiveInfiniteTime
  else if lhs.isNegativeInfinite || rhs.isPositiveInfinite then pure negativeInfiniteTime
  else combine (safeSub 64) lhs rhs

end MediaTime

/-!
## Changing the scale of a time

`setTimeScale` brings a time to the scale its loop ends at, with the number of ticks rounded
towards zero, and overflows exactly if this number does not fit.
-/

theorem greatestCommonDivisor_eq {a b : ℤ} (ha : 0 ≤ a) (hb : 0 ≤ b) :
    greatestCommonDivisor a b = Int.gcd a b := by
  induction a, b using greatestCommonDivisor.induct with
  | case1 a =>
    rw [greatestCommonDivisor, if_pos rfl, Int.gcd_zero_right]
    omega
  | case2 a b hb' ih =>
    rw [greatestCommonDivisor, if_neg hb', ih hb (Int.tmod_nonneg b ha),
      Int.tmod_eq_emod_of_nonneg ha, Int.gcd_comm, Int.gcd_emod]

theorem leastCommonMultiple_spec {a b c : ℤ} (ha : 0 < a) (hb : 0 < b)
    (h : leastCommonMultiple a b = some c) : 0 < c ∧ a ∣ c ∧ b ∣ c ∧ Fits 32 c := by
  obtain ⟨g, hg⟩ : ∃ g : ℤ, g = Int.gcd a b := ⟨_, rfl⟩
  have hgpos : 0 < g := by
    rw [hg]
    exact_mod_cast Int.gcd_pos_of_ne_zero_left b ha.ne'
  have hga : g ∣ a := hg ▸ Int.gcd_dvd_left a b
  obtain ⟨k, rfl⟩ : g ∣ b := hg ▸ Int.gcd_dvd_right a b
  have hk : 0 < k := pos_of_mul_pos_right hb hgpos.le
  rw [leastCommonMultiple, greatestCommonDivisor_eq ha.le hb.le, ← hg,
    Int.mul_tdiv_cancel_left _ hgpos.ne', safeMultiply_eq 32 a hk] at h
  split at h
  · rename_i hfits
    cases h
    exact ⟨Int.mul_pos ha hk, Int.dvd_mul_right a k, Int.mul_dvd_mul_right k hga, hfits⟩
  · cases h

namespace MediaTime

variable {time a b : MediaTime} {timeScale : ℤ}

/-- A finite time with a positive scale. -/
structure IsFinite (time : MediaTime) : Prop where
  valid : time.timeFlags.valid = true
  not_positiveInfinite : time.timeFlags.positiveInfinite = false
  not_negativeInfinite : time.timeFlags.negativeInfinite = false
  not_indefinite : time.timeFlags.indefinite = false
  timeValue_fits : Fits 64 time.timeValue
  timeScale_pos : 0 < time.timeScale
  timeScale_le : time.timeScale ≤ maximumTimeScale

/-- The ticks at another scale, rounded towards zero. -/
def ticksAt (time : MediaTime) (timeScale : ℤ) : ℤ :=
  (time.timeValue * timeScale).tdiv time.timeScale

/-- The scale at which the loop of `setTimeScale` ends. -/
def fittingScale (time : MediaTime) (timeScale : ℤ) : ℤ :=
  (fitTimeScale (time.timeValue.tdiv time.timeScale) timeScale).1

theorem commonTimeScale_bounds (ha : a.IsFinite) (hb : b.IsFinite) :
    0 < commonTimeScale a b ∧ commonTimeScale a b ≤ maximumTimeScale := by
  unfold commonTimeScale
  cases h : leastCommonMultiple a.timeScale b.timeScale with
  | none => exact ⟨by decide, le_rfl⟩
  | some c =>
    obtain ⟨hpos, -, -, -⟩ := leastCommonMultiple_spec ha.timeScale_pos hb.timeScale_pos h
    dsimp only
    split
    · exact ⟨by decide, le_rfl⟩
    · omega

theorem commonTimeScale_eq (ha : a.IsFinite) (hb : b.IsFinite) {c : ℤ}
    (h : leastCommonMultiple a.timeScale b.timeScale = some c) : commonTimeScale a b = c := by
  obtain ⟨-, -, -, hfits⟩ := leastCommonMultiple_spec ha.timeScale_pos hb.timeScale_pos h
  have hle : c ≤ maximumTimeScale := hfits.2
  rw [commonTimeScale, h]
  exact if_neg (by omega)

theorem fits_mul_tdiv {whole d c : ℤ} (h : Fits 64 (whole * c)) (hd : 0 ≤ d) (hle : d ≤ c) :
    Fits 64 (whole * d) := by
  have hmax := limitMax_eq 64
  unfold Fits at *
  rcases Int.le_total 0 whole with hwhole | hwhole
  · have := Int.mul_le_mul_of_nonneg_left hle hwhole
    have := Int.mul_nonneg hwhole hd
    omega
  · have := Int.mul_le_mul_of_nonpos_left hwhole hle
    have := Int.mul_nonpos_of_nonpos_of_nonneg hwhole hd
    omega

theorem fitTimeScale_eq (whole : ℤ) (hpos : 0 < timeScale) : fitTimeScale whole timeScale =
      if Fits 64 (whole * timeScale) then (timeScale, whole * timeScale)
      else fitTimeScale whole (timeScale.tdiv 2) := by
  have hmultiply := safeMultiply_eq 64 whole hpos
  rw [fitTimeScale]
  split
  · rename_i newWholePart h
    rw [hmultiply] at h
    split at h
    · rename_i hfits
      rw [if_pos hfits, Option.some.inj h]
    · cases h
  · rename_i h
    rw [hmultiply] at h
    split at h
    · cases h
    · rename_i hfits
      rw [if_neg hfits]

theorem fitTimeScale_spec {whole : ℤ} (hwhole : Fits 64 whole) (hpos : 0 < timeScale) :
    ∃ fitting, fitTimeScale whole timeScale = (fitting, whole * fitting) ∧ 0 < fitting ∧
      fitting ≤ timeScale ∧ Fits 64 (whole * fitting) := by
  obtain ⟨n, hn⟩ : ∃ n, n = timeScale.toNat := ⟨_, rfl⟩
  induction n using Nat.strong_induction_on generalizing timeScale with
  | h n ih =>
    rw [fitTimeScale_eq whole hpos]
    split
    · rename_i hfits
      exact ⟨timeScale, rfl, hpos, le_rfl, hfits⟩
    · rename_i hfits
      have hne : timeScale ≠ 1 := by
        rintro rfl
        rw [Int.mul_one] at hfits
        exact hfits hwhole
      have hhalf : timeScale.tdiv 2 = timeScale / 2 := Int.tdiv_eq_ediv_of_nonneg hpos.le
      obtain ⟨fitting, heq, hpos', hle, hfits'⟩ :=
        ih (timeScale / 2).toNat (by omega) (by omega : 0 < timeScale / 2) rfl
      refine ⟨fitting, ?_, hpos', by omega, hfits'⟩
      rw [hhalf, heq]

theorem IsFinite.whole_fits (h : time.IsFinite) : Fits 64 (time.timeValue.tdiv time.timeScale) ∧
      Fits 64 (time.timeValue.tdiv time.timeScale * time.timeScale) := by
  have hmin := limitMin_lt 64
  have hmax : 0 ≤ limitMax 64 := by decide
  have hvalue := h.timeValue_fits
  have hpos := h.timeScale_pos
  rw [Int.mul_comm]
  unfold Fits at *
  rcases Int.le_total 0 time.timeValue with hv | hv
  · obtain ⟨hnonneg, hle⟩ := Rounding.tdiv_le_of_nonneg hv hpos
    have hself := le_mul_of_one_le_left hnonneg (by omega : 1 ≤ time.timeScale)
    omega
  · obtain ⟨hnonpos, hle⟩ := Rounding.le_tdiv_of_nonpos hv hpos
    have hself := le_mul_of_one_le_left (Int.neg_nonneg_of_nonpos hnonpos)
      (by omega : 1 ≤ time.timeScale)
    rw [Int.mul_neg] at hself
    omega

theorem checked_eq {value : ℤ} (h : Fits 64 value) : checked value = .ok value := if_pos h

theorem divide_eq {lhs rhs : ℤ} (hrhs : rhs ≠ 0) (h : Fits 64 (lhs.tdiv rhs)) :
    divide lhs rhs = .ok (lhs.tdiv rhs) := by
  rw [divide, if_neg hrhs, checked_eq h]

theorem remainder_fits {v s d : ℤ} (hs : 0 < s) (hs' : s ≤ maximumTimeScale) (hd : 0 ≤ d)
    (hd' : d ≤ maximumTimeScale) :
    Fits 64 (v.tmod s * d) ∧ Fits 64 ((v.tmod s * d).tdiv s) := by
  have habs : |v.tmod s| ≤ maximumTimeScale := by
    have hmod := Int.natAbs_tmod v s
    have hlt := Nat.mod_lt v.natAbs (Int.natAbs_pos.mpr hs.ne')
    rw [Int.abs_eq_natAbs]
    omega
  have hproduct : |v.tmod s * d| ≤ maximumTimeScale * maximumTimeScale := by
    rw [abs_mul, abs_of_nonneg hd]
    exact Int.mul_le_mul habs hd' hd (by decide)
  have hquotient : |(v.tmod s * d).tdiv s| ≤ |v.tmod s * d| := by
    rw [Int.abs_eq_natAbs, Int.abs_eq_natAbs]
    exact_mod_cast Int.natAbs_tdiv_le_natAbs _ _
  have hbound : maximumTimeScale * maximumTimeScale ≤ limitMax 64 := by decide
  have hmin : limitMin 64 = -limitMax 64 - 1 := by decide
  have h1 := abs_le.mp (hproduct.trans hbound)
  have h2 := abs_le.mp ((hquotient.trans hproduct).trans hbound)
  unfold Fits
  omega

theorem setTimeScale_eq (h : time.IsFinite) (hpos : 0 < timeScale)
    (hle : timeScale ≤ maximumTimeScale) :
    time.setTimeScale timeScale = if Fits 64 (time.ticksAt (time.fittingScale timeScale)) then
        .ok { time with
          timeValue := time.ticksAt (time.fittingScale timeScale)
          timeScale := time.fittingScale timeScale }
      else .error .signedOverflow := by
  obtain ⟨hwhole, hself⟩ := h.whole_fits
  unfold setTimeScale
  split
  · rename_i heq
    have hfitting : time.fittingScale timeScale = time.timeScale := by
      rw [fittingScale, heq, fitTimeScale_eq _ h.timeScale_pos, if_pos hself]
    have hticks : time.ticksAt time.timeScale = time.timeValue :=
      Int.mul_tdiv_cancel _ h.timeScale_pos.ne'
    rw [hfitting, hticks, if_pos h.timeValue_fits]
    rfl
  · obtain ⟨fitting, hfit, hfpos, hfle, hffits⟩ := fitTimeScale_spec hwhole hpos
    have hfitting : time.fittingScale timeScale = fitting := by rw [fittingScale, hfit]
    obtain ⟨hproduct, hquotient⟩ := remainder_fits (v := time.timeValue) h.timeScale_pos
      h.timeScale_le hfpos.le (hfle.trans hle)
    rw [hfitting, min_eq_right hle, modulo, divide_eq h.timeScale_pos.ne' hwhole]
    dsimp only [bind, Except.bind, pure, Except.pure]
    rw [hfit]
    rw [checked_eq hproduct]
    dsimp only
    rw [divide_eq h.timeScale_pos.ne' hquotient]
    dsimp only
    rw [← Rounding.mul_tdiv time.timeValue hfpos.le h.timeScale_pos, ← ticksAt]
    by_cases hticks : Fits 64 (time.ticksAt fitting)
    · rw [checked_eq hticks, if_pos hticks]
    · rw [checked, if_neg hticks, if_neg hticks]
      rfl

end MediaTime

end WebKit.WTF
