import Mathlib

/-!
# Collations

A collation is a three-way comparison. One way to see that a comparison of structured values
is an order is to code each value as a list of integers so that the comparison is the
lexicographic comparison of the codes (`transCmp_of_code`); codes of values that follow each
other in a list are compared one after another (`Codes`).
-/

namespace Enumeration

/-- The three-way comparison of integers. -/
def compareInt (a b : ℤ) : Ordering :=
  if a < b then .lt else if b < a then .gt else .eq

section CompareInt

variable {a b : ℤ}

theorem compareInt_eq_lt : compareInt a b = .lt ↔ a < b := by
  unfold compareInt
  split_ifs <;> simp <;> omega

theorem compareInt_eq_gt : compareInt a b = .gt ↔ b < a := by
  unfold compareInt
  split_ifs <;> simp <;> omega

theorem compareInt_eq_eq : compareInt a b = .eq ↔ a = b := by
  unfold compareInt
  split_ifs <;> simp <;> omega

theorem compareInt_isLE : (compareInt a b).isLE ↔ a ≤ b := by
  unfold compareInt
  split_ifs
  all_goals
    simp
    omega

@[simp]
theorem compareInt_self (a : ℤ) : compareInt a a = .eq := compareInt_eq_eq.mpr rfl

end CompareInt

instance : Std.TransCmp compareInt where
  eq_swap := by
    intro a b
    unfold compareInt
    split_ifs
    all_goals first | rfl | omega
  isLE_trans := by
    intro a b c hab hbc
    rw [compareInt_isLE] at *
    omega

instance : Std.LawfulEqCmp compareInt where
  eq_of_compare := compareInt_eq_eq.mp

/-- The integer that stands for a result. -/
def toInt : Ordering → ℤ
  | .lt => -1
  | .eq => 0
  | .gt => 1

@[simp] theorem toInt_lt : toInt .lt = -1 := rfl
@[simp] theorem toInt_eq : toInt .eq = 0 := rfl
@[simp] theorem toInt_gt : toInt .gt = 1 := rfl

@[simp]
theorem toInt_eq_zero {o : Ordering} : toInt o = 0 ↔ o = .eq := by cases o <;> simp [toInt]

@[simp]
theorem toInt_eq_neg_one {o : Ordering} : toInt o = -1 ↔ o = .lt := by cases o <;> simp [toInt]

@[simp]
theorem toInt_nonpos {o : Ordering} : toInt o ≤ 0 ↔ o.isLE := by cases o <;> simp [toInt]

theorem toInt_swap (o : Ordering) : toInt o.swap = -toInt o := by cases o <;> rfl

theorem toInt_then (o p : Ordering) :
    toInt (o.then p) = if toInt o ≠ 0 then toInt o else toInt p := by cases o <;> rfl

theorem toInt_cases (o : Ordering) : toInt o = -1 ∨ toInt o = 0 ∨ toInt o = 1 := by
  cases o <;> simp [toInt]

/-- The lexicographic comparison of codes. -/
abbrev compareCodes : List ℤ → List ℤ → Ordering := List.compareLex compareInt

theorem compareCodes_cons (x y : ℤ) (a b : List ℤ) :
    compareCodes (x :: a) (y :: b) = (compareInt x y).then (compareCodes a b) :=
  List.compareLex_cons_cons

@[simp]
theorem compareCodes_cons_self (x : ℤ) (a b : List ℤ) :
    compareCodes (x :: a) (x :: b) = compareCodes a b := by
  rw [compareCodes_cons, compareInt_self]
  rfl

theorem compareCodes_cons_of_lt {x y : ℤ} (h : x < y) (a b : List ℤ) :
    compareCodes (x :: a) (y :: b) = .lt := by
  rw [compareCodes_cons, compareInt_eq_lt.mpr h]
  rfl

theorem compareCodes_cons_of_gt {x y : ℤ} (h : y < x) (a b : List ℤ) :
    compareCodes (x :: a) (y :: b) = .gt := by
  rw [compareCodes_cons, compareInt_eq_gt.mpr h]
  rfl

/-- The comparison of two values is that of their codes, also when more follows. -/
def Codes {α : Type*} (code : α → List ℤ) (cmp : α → α → Ordering) (a : α) : Prop :=
  ∀ b s t, compareCodes (code a ++ s) (code b ++ t) = (cmp a b).then (compareCodes s t)

section Codes

variable {α : Type*} {code : α → List ℤ} {cmp : α → α → Ordering}

theorem Codes.compare_eq {a : α} (h : Codes code cmp a) (b : α) :
    cmp a b = compareCodes (code a) (code b) := by
  have := h b [] []
  rw [List.append_nil, List.append_nil] at this
  rw [this]
  cases cmp a b <;> rfl

theorem transCmp_of_code (h : ∀ a, Codes code cmp a) : Std.TransCmp cmp where
  eq_swap := by
    intro a b
    rw [(h a).compare_eq, (h b).compare_eq]
    exact Std.OrientedCmp.eq_swap
  isLE_trans := by
    intro a b c hab hbc
    rw [(h _).compare_eq] at *
    exact Std.TransCmp.isLE_trans hab hbc

end Codes

end Enumeration
