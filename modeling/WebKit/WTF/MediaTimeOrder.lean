import Mathlib.Data.Prod.Lex
import WebKit.WTF.MediaTimeSum

/-!
# The order of media times

`compare` puts the finite times in the order of the rationals, the negative infinite time below
them, and the indefinite, the positive infinite and the invalid time above them in this order. It
is the comparison of the places in one linear order, which `place_order` collects.
-/

namespace WebKit.WTF.MediaTime

variable {time a b c : MediaTime}

/-- The part of `compare` for two finite times without a double. -/
def compareFinite (a b : MediaTime) : Except Undefined Ordering := do
  let rhsWhole ← divide b.timeValue b.timeScale
  let lhsWhole ← divide a.timeValue a.timeScale
  if lhsWhole > rhsWhole then pure .gt
  else if lhsWhole < rhsWhole then pure .lt
  else
    let rhsRemain ← modulo b.timeValue b.timeScale
    let lhsRemain ← modulo a.timeValue a.timeScale
    let lhsFactor ← checked (lhsRemain * b.timeScale)
    let rhsFactor ← checked (rhsRemain * a.timeScale)
    if lhsFactor = rhsFactor then pure .eq
    else pure (if lhsFactor > rhsFactor then .gt else .lt)

/-- `compare`; the result is a `ComparisonFlags`. -/
def compare (lhs rhs : MediaTime) : Except Undefined Ordering :=
  if (lhs.isPositiveInfinite && rhs.isPositiveInfinite)
      || (lhs.isNegativeInfinite && rhs.isNegativeInfinite)
      || (lhs.isInvalid && rhs.isInvalid)
      || (lhs.isIndefinite && rhs.isIndefinite) then pure .eq
  else if lhs.isInvalid then pure .gt
  else if rhs.isInvalid then pure .lt
  else if rhs.isNegativeInfinite || lhs.isPositiveInfinite then pure .gt
  else if rhs.isPositiveInfinite || lhs.isNegativeInfinite then pure .lt
  else if lhs.isIndefinite then pure .gt
  else if rhs.isIndefinite then pure .lt
  else compareFinite lhs rhs

/-- `operator<=`. -/
def lessOrEqual (lhs rhs : MediaTime) : Except Undefined Bool :=
  return (← compare lhs rhs) ≠ .gt

/-- A finite time, or a time with one of the other meanings and no second one. -/
inductive IsPlain (time : MediaTime) : Prop
  | finite (h : time.IsFinite)
  | invalid (h : time.isInvalid = true) (hpos : time.isPositiveInfinite = false)
      (hneg : time.isNegativeInfinite = false) (hind : time.isIndefinite = false)
  | positiveInfinite (h : time.isInvalid = false) (hpos : time.isPositiveInfinite = true)
      (hneg : time.isNegativeInfinite = false) (hind : time.isIndefinite = false)
  | negativeInfinite (h : time.isInvalid = false) (hpos : time.isPositiveInfinite = false)
      (hneg : time.isNegativeInfinite = true) (hind : time.isIndefinite = false)
  | indefinite (h : time.isInvalid = false) (hpos : time.isPositiveInfinite = false)
      (hneg : time.isNegativeInfinite = false) (hind : time.isIndefinite = true)

/-- The place of a time among all of them. -/
def place (time : MediaTime) : ℕ ×ₗ ℚ :=
  if time.isInvalid then toLex (4, 0)
  else if time.isPositiveInfinite then toLex (3, 0)
  else if time.isNegativeInfinite then toLex (0, 0)
  else if time.isIndefinite then toLex (2, 0)
  else toLex (1, time.toRat)

theorem cmp_toLex_self (n : ℕ) (p q : ℚ) : cmp (toLex (n, p)) (toLex (n, q)) = cmp p q := by
  rcases lt_trichotomy p q with hlt | rfl | hgt
  · have hlt' : toLex (n, p) < toLex (n, q) := Prod.Lex.toLex_lt_toLex.mpr (.inr ⟨rfl, hlt⟩)
    rw [hlt.cmp_eq_lt, hlt'.cmp_eq_lt]
  · rw [cmp_self_eq_eq, cmp_self_eq_eq]
  · have hgt' : toLex (n, q) < toLex (n, p) := Prod.Lex.toLex_lt_toLex.mpr (.inr ⟨rfl, hgt⟩)
    rw [hgt.cmp_eq_gt, hgt'.cmp_eq_gt]

theorem modulo_eq (h : time.IsFinite) :
    modulo time.timeValue time.timeScale = .ok (time.timeValue.tmod time.timeScale) := by
  rw [modulo, divide_eq h.timeScale_pos.ne' h.whole_fits.1]
  rfl

theorem compareFinite_eq (ha : a.IsFinite) (hb : b.IsFinite) :
    compareFinite a b = .ok (cmp a.toRat b.toRat) := by
  have hlhs := (remainder_fits (v := a.timeValue) ha.timeScale_pos ha.timeScale_le
    hb.timeScale_pos.le hb.timeScale_le).1
  have hrhs := (remainder_fits (v := b.timeValue) hb.timeScale_pos hb.timeScale_le
    ha.timeScale_pos.le ha.timeScale_le).1
  rw [toRat, toRat, Rounding.cmp_div_div _ _ ha.timeScale_pos hb.timeScale_pos,
    Rounding.cmp_mul_mul _ _ ha.timeScale_pos hb.timeScale_pos, compareFinite,
    divide_eq hb.timeScale_pos.ne' hb.whole_fits.1,
    divide_eq ha.timeScale_pos.ne' ha.whole_fits.1, modulo_eq ha, modulo_eq hb]
  dsimp only [bind, Except.bind, pure, Except.pure]
  rw [checked_eq hlhs, checked_eq hrhs]
  dsimp only
  rcases lt_trichotomy (a.timeValue.tdiv a.timeScale) (b.timeValue.tdiv b.timeScale)
    with hlt | heq | hgt
  · rw [if_neg hlt.not_gt, if_pos hlt, hlt.cmp_eq_lt]
    rfl
  · rw [if_neg heq.not_gt, if_neg heq.not_lt, heq.cmp_eq_eq]
    rcases lt_trichotomy (a.timeValue.tmod a.timeScale * b.timeScale)
      (b.timeValue.tmod b.timeScale * a.timeScale) with hlt | heq | hgt
    · rw [if_neg hlt.ne, if_neg hlt.not_gt, hlt.cmp_eq_lt]
      rfl
    · rw [if_pos heq, heq.cmp_eq_eq]
      rfl
    · rw [if_neg hgt.ne', if_pos hgt, hgt.cmp_eq_gt]
      rfl
  · rw [if_pos hgt, hgt.cmp_eq_gt]
    rfl

theorem IsFinite.flags (h : time.IsFinite) : time.isInvalid = false ∧
    time.isPositiveInfinite = false ∧ time.isNegativeInfinite = false ∧
      time.isIndefinite = false := by
  refine ⟨?_, h.not_positiveInfinite, h.not_negativeInfinite, h.not_indefinite⟩
  rw [isInvalid, h.valid]
  rfl

theorem IsFinite.place_eq (h : time.IsFinite) : time.place = toLex (1, time.toRat) := by
  obtain ⟨hvalid, hpos, hneg, hind⟩ := h.flags
  simp [place, hvalid, hpos, hneg, hind]

theorem compare_eq (ha : a.IsPlain) (hb : b.IsPlain) : compare a b = .ok (cmp a.place b.place) := by
  cases ha with
  | finite ha =>
    obtain ⟨havalid, hapos, haneg, haind⟩ := ha.flags
    cases hb with
    | finite hb =>
      obtain ⟨hbvalid, hbpos, hbneg, hbind⟩ := hb.flags
      rw [ha.place_eq, hb.place_eq, cmp_toLex_self, ← compareFinite_eq ha hb]
      simp [compare, *]
    | _ => simp [compare, place, *]; rfl
  | _ =>
    cases hb with
    | finite hb =>
      obtain ⟨hbvalid, hbpos, hbneg, hbind⟩ := hb.flags
      simp [compare, place, *]
      rfl
    | _ => simp [compare, place, *]; rfl

theorem lessOrEqual_iff (ha : a.IsPlain) (hb : b.IsPlain) :
    lessOrEqual a b = .ok true ↔ a.place ≤ b.place := by
  have heq : lessOrEqual a b = .ok (decide (cmp a.place b.place ≠ .gt)) := by
    rw [lessOrEqual, compare_eq ha hb]
    rfl
  rw [heq, Except.ok.injEq, decide_eq_true_iff, Ne, cmp_eq_gt_iff, not_lt]

/-- The comparison of the times is a total preorder, which is the order of the rationals on the
finite ones and overflows nowhere. -/
theorem compare_order (ha : a.IsPlain) (hb : b.IsPlain) (hc : c.IsPlain) :
    (∃ result, compare a b = .ok result ∧ compare b a = .ok result.swap) ∧ compare a a = .ok .eq ∧
      (lessOrEqual a b = .ok true ∨ lessOrEqual b a = .ok true) ∧
      (lessOrEqual a b = .ok true → lessOrEqual b c = .ok true → lessOrEqual a c = .ok true) ∧
      (a.IsFinite → b.IsFinite → compare a b = .ok (cmp a.toRat b.toRat)) := by
  refine ⟨⟨cmp a.place b.place, compare_eq ha hb, ?_⟩, ?_, ?_, ?_, ?_⟩
  · rw [compare_eq hb ha, cmp_swap]
  · rw [compare_eq ha ha, cmp_self_eq_eq]
  · rw [lessOrEqual_iff ha hb, lessOrEqual_iff hb ha]
    exact le_total _ _
  · rw [lessOrEqual_iff ha hb, lessOrEqual_iff hb hc, lessOrEqual_iff ha hc]
    exact le_trans
  · intro hfiniteA hfiniteB
    rw [compare_eq ha hb, hfiniteA.place_eq, hfiniteB.place_eq, cmp_toLex_self]

/-- The theorem at the least number of ticks, at a third of a second and at the invalid time. -/
theorem compare_order_extremes :
    lessOrEqual ⟨-2 ^ 63, 2 ^ 31 - 1, { valid := true }⟩ invalidTime = .ok true ∧
      compare ⟨-2 ^ 63, 2 ^ 31 - 1, { valid := true }⟩ ⟨-1, 3, { valid := true }⟩ =
        .ok (cmp (toRat ⟨-2 ^ 63, 2 ^ 31 - 1, { valid := true }⟩)
          (toRat ⟨-1, 3, { valid := true }⟩)) := by
  have ha : IsFinite ⟨-2 ^ 63, 2 ^ 31 - 1, { valid := true }⟩ :=
    ⟨rfl, rfl, rfl, rfl, by decide, by decide, by decide⟩
  have hb : IsFinite ⟨-1, 3, { valid := true }⟩ :=
    ⟨rfl, rfl, rfl, rfl, by decide, by decide, by decide⟩
  have hc : invalidTime.IsPlain := .invalid rfl rfl rfl rfl
  obtain ⟨_, _, _, htrans, hfinite⟩ := compare_order (.finite ha) (.finite hb) hc
  exact ⟨htrans (by decide) (by decide), hfinite ha hb⟩

end WebKit.WTF.MediaTime
