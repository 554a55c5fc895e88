import WebKit.WTF.MediaTime

/-!
# Sums and differences of times

Where both operands come to the same scale, their sum and their difference are right: they are
off by less than two ticks, or infinite with the sign of the exact result. Otherwise they are
added at two scales, or `setTimeScale` overflows.
-/

namespace WebKit.WTF.MediaTime

open Rounding

variable {a b time : MediaTime} {timeScale c d : ℤ} {operation : ℤ → ℤ → Option ℤ} {sign : ℤ}

/-- The exact number of seconds. -/
def toRat (time : MediaTime) : ℚ := time.timeValue / time.timeScale

/-- The operation of the source, where it does not fail, and that it does not fail for numbers
that are at most half of what fits. -/
structure Combines (operation : ℤ → ℤ → Option ℤ) (sign : ℤ) : Prop where
  sign_eq : sign = 1 ∨ sign = -1
  eq_of_some : ∀ x y value, Fits 64 x → Fits 64 y → operation x y = some value →
    value = x + sign * y ∧ Fits 64 value
  some_of_half : ∀ x y, Fits 64 (2 * x) → Fits 64 (2 * y) → operation x y = some (x + sign * y)

theorem combines_safeAdd : Combines (safeAdd 64) 1 where
  sign_eq := .inl rfl
  eq_of_some x y value hx hy h := by
    rw [safeAdd_eq hx hy] at h
    split at h
    · rename_i hfits
      cases h
      exact ⟨by omega, hfits⟩
    · cases h
  some_of_half x y hx hy := by
    have hmin : limitMin 64 < 0 := limitMin_lt 64
    have hmax : 0 ≤ limitMax 64 := by decide
    rw [safeAdd_eq (by unfold Fits at *; omega) (by unfold Fits at *; omega),
      if_pos (by unfold Fits at *; omega), Int.one_mul]

theorem combines_safeSub : Combines (safeSub 64) (-1) where
  sign_eq := .inr rfl
  eq_of_some x y value hx hy h := by
    rw [safeSub_eq hx hy] at h
    split at h
    · rename_i hfits
      cases h
      exact ⟨by omega, hfits.1⟩
    · cases h
  some_of_half x y hx hy := by
    have hmax := limitMax_eq 64
    rw [safeSub_eq (by unfold Fits at *; omega) (by unfold Fits at *; omega),
      if_pos (by unfold Fits at *; omega)]
    congr 1
    omega

theorem abs_ticksAt_sub_lt (hpos : 0 < time.timeScale) (timeScale : ℤ) :
    |(time.ticksAt timeScale : ℚ) - time.toRat * timeScale| < 1 := by
  have h := abs_tdiv_sub_lt (time.timeValue * timeScale) hpos
  have hexact : time.toRat * timeScale =
      ((time.timeValue * timeScale : ℤ) : ℚ) / time.timeScale := by
    rw [toRat]
    push_cast
    ring
  rwa [hexact]

theorem ticksAt_of_dvd (hpos : 0 < time.timeScale) (h : time.timeScale ∣ timeScale) :
    (time.ticksAt timeScale : ℚ) = time.toRat * timeScale := by
  obtain ⟨k, rfl⟩ := h
  have hticks : time.ticksAt (time.timeScale * k) = time.timeValue * k := by
    rw [ticksAt, Int.mul_left_comm, Int.mul_tdiv_cancel_left _ hpos.ne']
  rw [hticks, toRat]
  push_cast
  field_simp

theorem abs_combine_sub_lt (hop : Combines operation sign) {x y : ℤ} {x' y' : ℚ}
    (hx : |(x : ℚ) - x'| < 1) (hy : |(y : ℚ) - y'| < 1) :
    |((x + sign * y : ℤ) : ℚ) - (x' + sign * y')| < 2 := by
  have hsign : |(sign : ℚ) * (y - y')| < 1 := by
    rcases hop.sign_eq with rfl | rfl <;> simpa [abs_sub_comm] using hy
  have hsplit : ((x + sign * y : ℤ) : ℚ) - (x' + sign * y') = (x - x') + sign * (y - y') := by
    push_cast
    ring
  rw [hsplit]
  linarith only [abs_add_le ((x : ℚ) - x') (sign * (y - y')), hx, hsign]

/-! ## Bringing operands to a scale -/

def rescaled (time : MediaTime) (timeScale : ℤ) : MediaTime :=
  { time with timeValue := time.ticksAt timeScale, timeScale := timeScale }

theorem IsFinite.rescaled (h : time.IsFinite) (hpos : 0 < timeScale)
    (hle : timeScale ≤ maximumTimeScale) (hfits : Fits 64 (time.ticksAt timeScale)) :
    (time.rescaled timeScale).IsFinite :=
  { h with timeValue_fits := hfits, timeScale_pos := hpos, timeScale_le := hle }

/-- Both operands come to one scale, and their ticks fit. -/
structure SameScale (a b : MediaTime) (timeScale : ℤ) : Prop where
  left : a.fittingScale (commonTimeScale a b) = timeScale
  right : b.fittingScale (commonTimeScale a b) = timeScale
  left_fits : Fits 64 (a.ticksAt timeScale)
  right_fits : Fits 64 (b.ticksAt timeScale)

theorem fittingScale_bounds (h : time.IsFinite) (hpos : 0 < c) :
    0 < time.fittingScale c ∧ time.fittingScale c ≤ c := by
  obtain ⟨fitting, hfit, hfpos, hfle, -⟩ := fitTimeScale_spec h.whole_fits.1 hpos
  rw [fittingScale, hfit]
  exact ⟨hfpos, hfle⟩

theorem combine_eq (ha : a.IsFinite) (hb : b.IsFinite) (h : SameScale a b d) :
    combine operation a b =
      combineFrom operation (a.rescaled d) (b.rescaled d) (commonTimeScale a b) := by
  obtain ⟨hpos, hle⟩ := commonTimeScale_bounds ha hb
  have hleft := setTimeScale_eq ha hpos hle
  have hright := setTimeScale_eq hb hpos hle
  rw [h.left, if_pos h.left_fits] at hleft
  rw [h.right, if_pos h.right_fits] at hright
  rw [combine, hleft]
  rw [hright]
  rfl

theorem setTimeScale_half (h : time.IsFinite) (hscale : time.timeScale ≠ 1) :
    time.setTimeScale (time.timeScale.tdiv 2) = .ok (time.rescaled (time.timeScale.tdiv 2)) ∧
      Fits 64 (2 * time.ticksAt (time.timeScale.tdiv 2)) := by
  have hpos := h.timeScale_pos
  have hhalf : time.timeScale.tdiv 2 = time.timeScale / 2 := Int.tdiv_eq_ediv_of_nonneg hpos.le
  rw [hhalf]
  obtain ⟨d, hd⟩ : ∃ d, d = time.timeScale / 2 := ⟨_, rfl⟩
  rw [← hd]
  have hdpos : 0 < d := by omega
  have hdle : d ≤ maximumTimeScale := by
    have := h.timeScale_le
    omega
  have hticks : Fits 64 (2 * time.ticksAt d) := by
    have hvalue := h.timeValue_fits
    have hmin := limitMin_lt 64
    have hmax : 0 ≤ limitMax 64 := by decide
    unfold Fits ticksAt at *
    rcases Int.le_total 0 time.timeValue with hv | hv
    · have := mul_tdiv_le hv hdpos.le hpos (by omega : 2 * d ≤ time.timeScale)
      omega
    · have := le_mul_tdiv hv hdpos.le hpos (by omega : 2 * d ≤ time.timeScale)
      omega
  have hfits : Fits 64 (time.ticksAt d) := by
    have hmin := limitMin_lt 64
    have hmax : 0 ≤ limitMax 64 := by decide
    unfold Fits at *
    omega
  have hfitting : time.fittingScale d = d := by
    rw [fittingScale, fitTimeScale_eq _ hdpos,
      if_pos (fits_mul_tdiv h.whole_fits.2 hdpos.le (by omega))]
  refine ⟨?_, hticks⟩
  rw [setTimeScale_eq h hdpos hdle, hfitting, if_pos hfits]
  rfl

/-- A finite result that is off by less than two ticks. -/
def IsClose (exact : ℚ) (result : Except Undefined MediaTime) : Prop :=
  ∃ time, result = .ok time ∧ time.IsFinite ∧ |time.timeValue - exact * time.timeScale| < 2

theorem combineFrom_of_some (hop : Combines operation sign) (ha : a.IsFinite) (hb : b.IsFinite)
    {value : ℤ}
    (h : operation a.timeValue b.timeValue = some value) {exact exact' : ℚ}
    (herror : |(a.timeValue : ℚ) - exact * a.timeScale| < 1)
    (herror' : |(b.timeValue : ℚ) - exact' * a.timeScale| < 1) :
    IsClose (exact + sign * exact') (combineFrom operation a b c) := by
  obtain ⟨rfl, hfits⟩ := hop.eq_of_some _ _ value ha.timeValue_fits hb.timeValue_fits h
  refine ⟨{ a with timeValue := a.timeValue + sign * b.timeValue }, ?_,
    { ha with timeValue_fits := hfits }, ?_⟩
  · rw [combineFrom, h]
    rfl
  · have hclose := abs_combine_sub_lt hop herror herror'
    have hfactor : (exact + sign * exact') * (a.timeScale : ℚ) =
        exact * a.timeScale + sign * (exact' * a.timeScale) := by ring
    rw [hfactor]
    exact hclose

theorem combineFrom_of_none (hop : Combines operation sign) (ha : a.IsFinite) (hb : b.IsFinite)
    (hscale : b.timeScale = a.timeScale) (hne : a.timeScale ≠ 1)
    (h : operation a.timeValue b.timeValue = none) :
    IsClose (a.toRat + sign * b.toRat) (combineFrom operation a b a.timeScale) := by
  obtain ⟨hleft, hleftFits⟩ := setTimeScale_half ha hne
  obtain ⟨hright, hrightFits⟩ := setTimeScale_half hb (hscale ▸ hne)
  rw [hscale] at hright hrightFits
  have hpos := ha.timeScale_pos
  have hle := ha.timeScale_le
  have hhalf : a.timeScale.tdiv 2 = a.timeScale / 2 := Int.tdiv_eq_ediv_of_nonneg hpos.le
  obtain ⟨d, hd⟩ : ∃ d, d = a.timeScale.tdiv 2 := ⟨_, rfl⟩
  rw [← hd] at hleft hleftFits hright hrightFits
  have hfits : ∀ ticks, Fits 64 (2 * ticks) → Fits 64 ticks := by
    intro ticks hticks
    have hmin := limitMin_lt 64
    have hmax : 0 ≤ limitMax 64 := by decide
    unfold Fits at *
    omega
  have hloop : combineFrom operation a b a.timeScale =
      combineFrom operation (a.rescaled d) (b.rescaled d) d := by
    rw [combineFrom, h]
    dsimp only
    rw [if_neg hne, if_neg hpos.ne', ← hd, hleft]
    dsimp only [bind, Except.bind]
    rw [hright]
  rw [hloop]
  exact combineFrom_of_some hop (ha.rescaled (by omega) (by omega) (hfits _ hleftFits))
    (hb.rescaled (by omega) (by omega) (hfits _ hrightFits))
    (hop.some_of_half _ _ hleftFits hrightFits)
    (abs_ticksAt_sub_lt ha.timeScale_pos d) (abs_ticksAt_sub_lt hb.timeScale_pos d)

/-! ## Sums and differences -/

/-- The result is defined, and close, or infinite where the exact result is as far from zero. -/
def Meets (exact : ℚ) (result : Except Undefined MediaTime) : Prop :=
  IsClose exact result ∨ result = .ok positiveInfiniteTime ∧ (limitMax 64 : ℚ) < exact ∨
    result = .ok negativeInfiniteTime ∧ exact < (limitMin 64 : ℚ)

theorem Meets.defined {exact : ℚ} {result : Except Undefined MediaTime} (h : Meets exact result) :
    ∃ time, result = .ok time := by
  rcases h with ⟨time, hres, -⟩ | ⟨hres, -⟩ | ⟨hres, -⟩
  · exact ⟨time, hres⟩
  · exact ⟨_, hres⟩
  · exact ⟨_, hres⟩

/-- The sum of two operands at one scale fits, or their scale is a common multiple. -/
structure AddsUp (a b : MediaTime) (timeScale : ℤ) : Prop extends SameScale a b timeScale where
  fits : safeAdd 64 (a.ticksAt timeScale) (b.ticksAt timeScale) ≠ none ∨
    leastCommonMultiple a.timeScale b.timeScale = some timeScale

/-- The same for their difference; and what `safeSub` takes for an overflow, or for one with the
other sign, is no difference of whole seconds. -/
structure Subtracts (a b : MediaTime) (timeScale : ℤ) : Prop extends SameScale a b timeScale where
  fits : safeSub 64 (a.ticksAt timeScale) (b.ticksAt timeScale) ≠ none ∨
    leastCommonMultiple a.timeScale b.timeScale = some timeScale ∧
      (timeScale = 1 → a.timeValue ≠ 0 ∧ a.timeValue - b.timeValue ≠ limitMin 64)

theorem add_eq_combine (ha : a.IsFinite) (hb : b.IsFinite) :
    a.add b = combine (safeAdd 64) a b := by
  simp [add, isInvalid, isIndefinite, isPositiveInfinite, isNegativeInfinite, ha.valid, hb.valid,
    ha.not_indefinite, hb.not_indefinite, ha.not_positiveInfinite, hb.not_positiveInfinite,
    ha.not_negativeInfinite, hb.not_negativeInfinite]

theorem sub_eq_combine (ha : a.IsFinite) (hb : b.IsFinite) :
    a.sub b = combine (safeSub 64) a b := by
  simp [sub, isInvalid, isIndefinite, isPositiveInfinite, isNegativeInfinite, ha.valid, hb.valid,
    ha.not_indefinite, hb.not_indefinite, ha.not_positiveInfinite, hb.not_positiveInfinite,
    ha.not_negativeInfinite, hb.not_negativeInfinite]

theorem combine_isClose (hop : Combines operation sign) (ha : a.IsFinite) (hb : b.IsFinite)
    (h : SameScale a b d)
    (hfits : operation (a.ticksAt d) (b.ticksAt d) ≠ none ∨
      leastCommonMultiple a.timeScale b.timeScale = some d ∧ d ≠ 1) :
    IsClose (a.toRat + sign * b.toRat) (combine operation a b) := by
  obtain ⟨hcpos, hcle⟩ := commonTimeScale_bounds ha hb
  obtain ⟨hpos, hle⟩ := fittingScale_bounds ha hcpos
  rw [h.left] at hpos hle
  have ha' := ha.rescaled hpos (hle.trans hcle) h.left_fits
  have hb' := hb.rescaled hpos (hle.trans hcle) h.right_fits
  rw [combine_eq ha hb h]
  cases hvalue : operation (a.ticksAt d) (b.ticksAt d) with
  | some value =>
    exact combineFrom_of_some hop ha' hb' hvalue (abs_ticksAt_sub_lt ha.timeScale_pos d)
      (abs_ticksAt_sub_lt hb.timeScale_pos d)
  | none =>
    obtain ⟨hcommon, hne⟩ := hfits.resolve_left (not_not_intro hvalue)
    obtain ⟨-, hleft, hright, -⟩ :=
      leastCommonMultiple_spec ha.timeScale_pos hb.timeScale_pos hcommon
    have hd : (d : ℚ) ≠ 0 := by exact_mod_cast hpos.ne'
    have hclose := combineFrom_of_none hop ha' hb' rfl hne hvalue
    have hleft' : (a.rescaled d).toRat = a.toRat := by
      rw [toRat, rescaled, ticksAt_of_dvd ha.timeScale_pos hleft, mul_div_cancel_right₀ _ hd]
    have hright' : (b.rescaled d).toRat = b.toRat := by
      rw [toRat, rescaled, ticksAt_of_dvd hb.timeScale_pos hright, mul_div_cancel_right₀ _ hd]
    rw [hleft', hright'] at hclose
    rwa [commonTimeScale_eq ha hb hcommon]

theorem combine_whole (ha : a.IsFinite) (hb : b.IsFinite) (h : SameScale a b 1)
    (hcommon : leastCommonMultiple a.timeScale b.timeScale = some 1)
    (hnone : operation (a.ticksAt 1) (b.ticksAt 1) = none) :
    a.timeScale = 1 ∧ b.timeScale = 1 ∧ operation a.timeValue b.timeValue = none ∧
      combine operation a b =
        .ok (if a.timeValue > 0 then positiveInfiniteTime else negativeInfiniteTime) := by
  obtain ⟨-, hleft, hright, -⟩ := leastCommonMultiple_spec ha.timeScale_pos hb.timeScale_pos hcommon
  have hleft := Int.eq_one_of_dvd_one ha.timeScale_pos.le hleft
  have hright := Int.eq_one_of_dvd_one hb.timeScale_pos.le hright
  have hleftTicks : a.ticksAt 1 = a.timeValue := by simp [ticksAt, hleft]
  have hrightTicks : b.ticksAt 1 = b.timeValue := by simp [ticksAt, hright]
  refine ⟨hleft, hright, by rwa [← hleftTicks, ← hrightTicks], ?_⟩
  rw [combine_eq ha hb h, commonTimeScale_eq ha hb hcommon, combineFrom]
  dsimp only [rescaled]
  rw [hnone]
  simp only [hleftTicks]
  rfl

theorem toRat_of_whole (h : time.timeScale = 1) : time.toRat = time.timeValue := by
  simp [toRat, h]

theorem add_meets (ha : a.IsFinite) (hb : b.IsFinite) (h : AddsUp a b d) :
    Meets (a.toRat + b.toRat) (a.add b) := by
  rw [add_eq_combine ha hb]
  have hclose := combine_isClose combines_safeAdd ha hb h.toSameScale
  rw [Int.cast_one, one_mul] at hclose
  by_cases hnone : safeAdd 64 (a.ticksAt d) (b.ticksAt d) = none
  · have hcommon := h.fits.resolve_left (not_not_intro hnone)
    by_cases hd : d = 1
    · subst hd
      obtain ⟨hleft, hright, hnone, hcomb⟩ := combine_whole ha hb h.toSameScale hcommon hnone
      have hafits := ha.timeValue_fits
      have hbfits := hb.timeValue_fits
      have hfits : ¬ Fits 64 (a.timeValue + b.timeValue) := by
        intro hfits
        rw [safeAdd_eq hafits hbfits, if_pos hfits] at hnone
        cases hnone
      rw [hcomb, toRat_of_whole hleft, toRat_of_whole hright]
      unfold Fits at *
      split
      · refine .inr (.inl ⟨rfl, ?_⟩)
        exact_mod_cast (by omega : limitMax 64 < a.timeValue + b.timeValue)
      · refine .inr (.inr ⟨rfl, ?_⟩)
        exact_mod_cast (by omega : a.timeValue + b.timeValue < limitMin 64)
    · exact .inl (hclose (.inr ⟨hcommon, hd⟩))
  · exact .inl (hclose (.inl hnone))

theorem sub_meets (ha : a.IsFinite) (hb : b.IsFinite) (h : Subtracts a b d) :
    Meets (a.toRat - b.toRat) (a.sub b) := by
  rw [sub_eq_combine ha hb]
  have hclose := combine_isClose combines_safeSub ha hb h.toSameScale
  rw [Int.cast_neg, Int.cast_one, neg_one_mul, ← sub_eq_add_neg] at hclose
  by_cases hnone : safeSub 64 (a.ticksAt d) (b.ticksAt d) = none
  · obtain ⟨hcommon, hwhole⟩ := h.fits.resolve_left (not_not_intro hnone)
    by_cases hd : d = 1
    · subst hd
      obtain ⟨hleft, hright, hnone, hcomb⟩ := combine_whole ha hb h.toSameScale hcommon hnone
      obtain ⟨hzero, hleast⟩ := hwhole rfl
      have hafits := ha.timeValue_fits
      have hbfits := hb.timeValue_fits
      have hmax := limitMax_eq 64
      have hfits : ¬ Fits 64 (a.timeValue - b.timeValue) := by
        intro hfits
        rw [safeSub_eq hafits hbfits, if_pos ⟨hfits, fun h => hleast h.2⟩] at hnone
        cases hnone
      rw [hcomb, toRat_of_whole hleft, toRat_of_whole hright]
      unfold Fits at *
      split
      · refine .inr (.inl ⟨rfl, ?_⟩)
        exact_mod_cast (by omega : limitMax 64 < a.timeValue - b.timeValue)
      · refine .inr (.inr ⟨rfl, ?_⟩)
        exact_mod_cast (by omega : a.timeValue - b.timeValue < limitMin 64)
    · exact .inl (hclose (.inr ⟨hcommon, hd⟩))
  · exact .inl (hclose (.inl hnone))

theorem ticksAt_fits (h : time.IsFinite) (hd : 0 ≤ d) (hle : d ≤ time.timeScale) :
    Fits 64 (time.ticksAt d) := by
  have hvalue := h.timeValue_fits
  have hmin := limitMin_lt 64
  have hmax : 0 ≤ limitMax 64 := by decide
  have hle' : 1 * d ≤ time.timeScale := by omega
  unfold Fits ticksAt at *
  rcases Int.le_total 0 time.timeValue with hv | hv
  · have := mul_tdiv_le hv hd h.timeScale_pos hle'
    omega
  · have := le_mul_tdiv hv hd h.timeScale_pos hle'
    omega

theorem fitTimeScale_half_le {whole : ℤ} (hwhole : Fits 64 whole) (hc : 1 < c) :
    (fitTimeScale whole (c.tdiv 2)).1 ≤ (fitTimeScale whole c).1 := by
  have hhalf : c.tdiv 2 = c / 2 := Int.tdiv_eq_ediv_of_nonneg (by omega)
  rw [fitTimeScale_eq whole (by omega : 0 < c)]
  split
  · obtain ⟨fitting, hfit, -, hle, -⟩ := fitTimeScale_spec hwhole (by omega : 0 < c.tdiv 2)
    rw [hfit]
    omega
  · exact le_rfl

theorem whole_rescaled (h : time.IsFinite) (hd : 0 < d) :
    (time.rescaled d).timeValue.tdiv (time.rescaled d).timeScale =
      time.timeValue.tdiv time.timeScale := by
  rw [rescaled, ticksAt]
  rw [tdiv_tdiv _ _ h.timeScale_pos, Int.mul_tdiv_mul_of_pos_left _ _ hd]

theorem rescaled_fittingScale_le (h : time.IsFinite) (hc : 1 < c) :
    (time.rescaled (time.fittingScale c)).fittingScale (c.tdiv 2) ≤ time.fittingScale c := by
  obtain ⟨hpos, -⟩ := fittingScale_bounds h (by omega : 0 < c)
  rw [fittingScale, whole_rescaled h hpos]
  exact fitTimeScale_half_le h.whole_fits.1 hc

theorem combineFrom_defined (ha : a.IsFinite) (hb : b.IsFinite) (hpos : 0 < c)
    (hle : c ≤ maximumTimeScale)
    (hleft : 1 < c → a.fittingScale (c.tdiv 2) ≤ a.timeScale)
    (hright : 1 < c → b.fittingScale (c.tdiv 2) ≤ b.timeScale) :
    ∃ result, combineFrom operation a b c = .ok result := by
  obtain ⟨n, hn⟩ : ∃ n, n = c.toNat := ⟨_, rfl⟩
  induction n using Nat.strong_induction_on generalizing a b c with
  | h n ih =>
    rw [combineFrom]
    split
    · exact ⟨_, rfl⟩
    · split
      · exact ⟨_, rfl⟩
      · have hc : 1 < c := by omega
        have hhalf : c.tdiv 2 = c / 2 := Int.tdiv_eq_ediv_of_nonneg hpos.le
        obtain ⟨d, hd⟩ : ∃ d, d = c.tdiv 2 := ⟨_, rfl⟩
        rw [if_neg (by omega), ← hd]
        have hdpos : 0 < d := by omega
        have hdle : d ≤ maximumTimeScale := by omega
        obtain ⟨hapos, hale⟩ := fittingScale_bounds ha hdpos
        obtain ⟨hbpos, hble⟩ := fittingScale_bounds hb hdpos
        have hafits := ticksAt_fits ha hapos.le (hd ▸ hleft hc)
        have hbfits := ticksAt_fits hb hbpos.le (hd ▸ hright hc)
        dsimp only
        rw [setTimeScale_eq ha hdpos hdle, if_pos hafits]
        rw [setTimeScale_eq hb hdpos hdle, if_pos hbfits]
        exact ih d.toNat (by omega) (ha.rescaled hapos (hale.trans hdle) hafits)
          (hb.rescaled hbpos (hble.trans hdle) hbfits) hdpos hdle
          (rescaled_fittingScale_le ha) (rescaled_fittingScale_le hb) rfl

/-- The ticks of both operands fit at the scales they come to. -/
structure Rescale (a b : MediaTime) : Prop where
  left : Fits 64 (a.ticksAt (a.fittingScale (commonTimeScale a b)))
  right : Fits 64 (b.ticksAt (b.fittingScale (commonTimeScale a b)))

theorem combine_defined_iff (ha : a.IsFinite) (hb : b.IsFinite) :
    (∃ result, combine operation a b = .ok result) ↔ Rescale a b := by
  obtain ⟨hpos, hle⟩ := commonTimeScale_bounds ha hb
  have hleft := setTimeScale_eq ha hpos hle
  have hright := setTimeScale_eq hb hpos hle
  constructor
  · rintro ⟨result, h⟩
    by_cases hafits : Fits 64 (a.ticksAt (a.fittingScale (commonTimeScale a b)))
    · rw [if_pos hafits] at hleft
      refine ⟨hafits, ?_⟩
      by_contra hbfits
      rw [if_neg hbfits] at hright
      rw [combine, hleft] at h
      rw [hright] at h
      cases h
    · rw [if_neg hafits] at hleft
      rw [combine, hleft] at h
      cases h
  · intro h
    rw [if_pos h.left] at hleft
    rw [if_pos h.right] at hright
    obtain ⟨hapos, hale⟩ := fittingScale_bounds ha hpos
    obtain ⟨hbpos, hble⟩ := fittingScale_bounds hb hpos
    rw [combine, hleft]
    rw [hright]
    exact combineFrom_defined (ha.rescaled hapos (hale.trans hle) h.left)
      (hb.rescaled hbpos (hble.trans hle) h.right) hpos hle (rescaled_fittingScale_le ha)
      (rescaled_fittingScale_le hb)

def ofTicks (timeValue timeScale : ℤ) : MediaTime := ⟨timeValue, timeScale, { valid := true }⟩

theorem ofTicks_isFinite {timeValue : ℤ} (hvalue : Fits 64 timeValue) (hpos : 0 < timeScale)
    (hle : timeScale ≤ maximumTimeScale) : (ofTicks timeValue timeScale).IsFinite :=
  ⟨rfl, rfl, rfl, rfl, hvalue, hpos, hle⟩

end WebKit.WTF.MediaTime
