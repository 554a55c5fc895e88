import WebKit.Graphics.ShapeCompare

/-!
# Intersection of shapes

`compareShapes` with the intersection operation stops at the first two segments that overlap.
What an advance of the walk leaves behind cannot meet what is to come (`meets_skip_first`,
`rowsMeet_skip_first`), so it finds a common place if there is one
(`compareShapes_intersects`).
-/

open List

namespace WebKit.Graphics

open Scanline

/-- The two rows have a place in common. -/
def Meets (a b : List ℤ) : Prop := ∃ x, inside false a x = true ∧ inside false b x = true

variable {a b : List ℤ} {aX aMaxX bX bMaxX : ℤ}

theorem Meets.symm (h : Meets a b) : Meets b a := by
  obtain ⟨x, ha, hb⟩ := h
  exact ⟨x, hb, ha⟩

theorem not_meets_nil_left : ¬ Meets [] b := by
  rintro ⟨x, hx, -⟩
  cases hx

theorem not_meets_nil_right : ¬ Meets a [] := fun h => not_meets_nil_left h.symm

namespace CompareOperation

def intersects : CompareOperation := ⟨false, none, none, some true⟩

/-- The first interval of the first row ends before that of the second row, and does not
overlap it. -/
theorem meets_skip_first (ha : Intervals (aX :: aMaxX :: a)) (hb : Intervals (bX :: bMaxX :: b))
    (hoverlap : ¬ (bMaxX > aX ∧ bX < aMaxX)) (hle : aMaxX ≤ bMaxX) :
    Meets (aX :: aMaxX :: a) (bX :: bMaxX :: b) ↔ Meets a (bX :: bMaxX :: b) := by
  obtain ⟨-, hbrest, -⟩ := intervals_cons_cons.mp hb
  constructor
  · rintro ⟨x, hx, hx'⟩
    rcases (inside_cons_cons ha).mp hx with ⟨hx1, hx2⟩ | hin
    · exfalso
      rcases (inside_cons_cons hb).mp hx' with ⟨hx3, hx4⟩ | hin'
      · omega
      · have hlt := inside_lt hbrest hin'
        omega
    · exact ⟨x, hin, hx'⟩
  · rintro ⟨x, hx, hx'⟩
    exact ⟨x, (inside_cons_cons ha).mpr (.inr hx), hx'⟩

theorem meets_skip_second (ha : Intervals (aX :: aMaxX :: a)) (hb : Intervals (bX :: bMaxX :: b))
    (hoverlap : ¬ (bMaxX > aX ∧ bX < aMaxX)) (hle : bMaxX ≤ aMaxX) :
    Meets (aX :: aMaxX :: a) (bX :: bMaxX :: b) ↔ Meets (aX :: aMaxX :: a) b := by
  have hskip := meets_skip_first hb ha (fun h => hoverlap ⟨h.2, h.1⟩) hle
  exact ⟨fun h => (hskip.mp h.symm).symm, fun h => (hskip.mpr h.symm).symm⟩

theorem compareSegments_intersects : ∀ {a b : List ℤ}, Intervals a → Intervals b →
    (intersects.compareSegments a b = none ∧ ¬ Meets a b ∨
      intersects.compareSegments a b = some true ∧ Meets a b)
  | [], _, _, _ => by
    refine .inl ⟨?_, not_meets_nil_left⟩
    rw [compareSegments.eq_def]
    simp [intersects, check]
  | _ :: _, [], _, _ => by
    refine .inl ⟨?_, not_meets_nil_right⟩
    rw [compareSegments.eq_def]
    simp [intersects, check]
  | [_], _ :: _, ha, _ => absurd ha not_intervals_singleton
  | _ :: _ :: _, [_], _, hb => absurd hb not_intervals_singleton
  | aX :: aMaxX :: a, bX :: bMaxX :: b, ha, hb => by
    obtain ⟨haX, -, ha'⟩ := intervals_cons_cons.mp ha
    obtain ⟨hbX, hbrest, hb'⟩ := intervals_cons_cons.mp hb
    rw [compareSegments]
    by_cases hoverlap : bMaxX > aX ∧ bX < aMaxX
    · refine .inr ⟨?_, max aX bX, ?_, ?_⟩
      · simp [intersects, check, hoverlap]
      · exact (inside_cons_cons ha).mpr (.inl ⟨le_max_left _ _, max_lt haX hoverlap.2⟩)
      · exact (inside_cons_cons hb).mpr (.inl ⟨le_max_right _ _, max_lt hoverlap.1 hbX⟩)
    · have hgo : (check (bMaxX > aX && bX < aMaxX) intersects.aOverlapsB <|>
          check (aX < bX) intersects.aOutsideB <|> check (bX < aX) intersects.bOutsideA) =
            none := by
        simpa [intersects, check] using hoverlap
      rw [hgo]
      rcases lt_trichotomy aMaxX bMaxX with hmax | rfl | hmax
      · rw [if_pos hmax, meets_skip_first ha hb hoverlap hmax.le]
        exact compareSegments_intersects ha' hb
      · -- both intervals end, the first one is skipped first
        have hskip : Meets a (bX :: aMaxX :: b) ↔ Meets a b := by
          constructor
          · rintro ⟨x, hx, hx'⟩
            rcases (inside_cons_cons hb).mp hx' with ⟨-, hx2⟩ | hin
            · omega
            · exact ⟨x, hx, hin⟩
          · rintro ⟨x, hx, hx'⟩
            exact ⟨x, hx, (inside_cons_cons hb).mpr (.inr hx')⟩
        rw [if_neg (lt_irrefl _), if_neg (lt_irrefl _), meets_skip_first ha hb hoverlap le_rfl,
          hskip]
        exact compareSegments_intersects ha' hb'
      · rw [if_neg (not_lt.mpr hmax.le), if_pos hmax, meets_skip_second ha hb hoverlap hmax.le]
        exact compareSegments_intersects ha hb'
  termination_by a b => a.length + b.length

/-- There is a row in which the spans from here on meet. -/
def RowsMeet (aSpan bSpan : Bands) : Prop :=
  ∃ y, Meets (valueAt [] aSpan y) (valueAt [] bSpan y)

variable {d d' : List ℤ} {aSpan bSpan : Bands} {aY aMaxY bY bMaxY : ℤ} {aNext bNext : List ℤ}

theorem RowsMeet.symm (h : RowsMeet aSpan bSpan) : RowsMeet bSpan aSpan := by
  obtain ⟨y, hy⟩ := h
  exact ⟨y, hy.symm⟩

theorem not_rowsMeet_of_length_le (hb : Banded d bSpan) (hlen : bSpan.length ≤ 1) :
    ¬ RowsMeet aSpan bSpan := by
  rintro ⟨y, hy⟩
  have hrow : valueAt [] bSpan y = [] := by
    rcases bSpan with _ | ⟨⟨bY, b⟩, _ | ⟨band, bSpan⟩⟩
    · rfl
    · obtain rfl : b = [] := hb.ends
      rw [valueAt]
      split <;> rfl
    · simp at hlen
  rw [hrow] at hy
  exact not_meets_nil_right hy

/-- The first span ends before the second one, and does not meet it. -/
theorem rowsMeet_skip_first (ha : Banded d ((aY, a) :: (aMaxY, aNext) :: aSpan))
    (hmeets : bMaxY > aY → bY < aMaxY → ¬ Meets a b) (hle : aMaxY ≤ bMaxY) :
    RowsMeet ((aY, a) :: (aMaxY, aNext) :: aSpan) ((bY, b) :: (bMaxY, bNext) :: bSpan) ↔
      RowsMeet ((aMaxY, aNext) :: aSpan) ((bY, b) :: (bMaxY, bNext) :: bSpan) := by
  have haM : aY < aMaxY := ha.lt_of_mem_keys mem_cons_self
  refine exists_congr fun y => ?_
  rcases lt_or_ge y aMaxY with hy | hy
  · -- a row of the first span
    have hnone : ¬ Meets (valueAt [] ((aY, a) :: (aMaxY, aNext) :: aSpan) y)
        (valueAt [] ((bY, b) :: (bMaxY, bNext) :: bSpan) y) := by
      rw [row_above hy, row_above (hy.trans_le hle)]
      split
      · exact not_meets_nil_left
      · split
        · exact not_meets_nil_right
        · exact hmeets (by omega) (by omega)
    refine ⟨fun h => absurd h hnone, fun h => ?_⟩
    rw [valueAt_of_lt hy] at h
    exact absurd h not_meets_nil_left
  · rw [valueAt_of_le (haM.le.trans hy)]
    simp only [valueAt_of_le hy]

theorem rowsMeet_skip_second (hb : Banded d' ((bY, b) :: (bMaxY, bNext) :: bSpan))
    (hmeets : bMaxY > aY → bY < aMaxY → ¬ Meets a b) (hle : bMaxY ≤ aMaxY) :
    RowsMeet ((aY, a) :: (aMaxY, aNext) :: aSpan) ((bY, b) :: (bMaxY, bNext) :: bSpan) ↔
      RowsMeet ((aY, a) :: (aMaxY, aNext) :: aSpan) ((bMaxY, bNext) :: bSpan) := by
  have hskip : RowsMeet ((bY, b) :: (bMaxY, bNext) :: bSpan) ((aY, a) :: (aMaxY, aNext) :: aSpan) ↔
        RowsMeet ((bMaxY, bNext) :: bSpan) ((aY, a) :: (aMaxY, aNext) :: aSpan) :=
    rowsMeet_skip_first hb (fun h h' hm => hmeets h' h hm.symm) hle
  exact ⟨fun h => (hskip.mp h.symm).symm, fun h => (hskip.mpr h.symm).symm⟩

theorem rowsMeet_skip_both {y : ℤ} (ha : Banded d ((aY, a) :: (y, aNext) :: aSpan))
    (hb : Banded d' ((bY, b) :: (y, bNext) :: bSpan)) (hmeets : ¬ Meets a b) :
    RowsMeet ((aY, a) :: (y, aNext) :: aSpan) ((bY, b) :: (y, bNext) :: bSpan) ↔
      RowsMeet ((y, aNext) :: aSpan) ((y, bNext) :: bSpan) := by
  rw [rowsMeet_skip_first ha (fun _ _ => hmeets) le_rfl]
  have hbM : bY < y := hb.lt_of_mem_keys mem_cons_self
  refine exists_congr fun z => ?_
  rcases lt_or_ge z y with hz | hz
  · rw [valueAt_of_lt hz]
    exact ⟨fun h => absurd h not_meets_nil_left, fun h => absurd h not_meets_nil_left⟩
  · rw [valueAt_of_le (hbM.le.trans hz)]
    simp only [valueAt_of_le hz]

theorem compareSpans_intersects : ∀ {aSpan bSpan : Bands} {d d' : List ℤ} {aHad bHad : Bool},
    Banded d aSpan → Banded d' bSpan →
    (intersects.compareSpans aSpan bSpan aHad bHad = true ↔ RowsMeet aSpan bSpan)
  | [], bSpan, d, d', aHad, bHad, ha, _ => by
    have hfalse : intersects.compareSpans [] bSpan aHad bHad = false := by
      rw [compareSpans.eq_def]
      simp [intersects, check]
    rw [hfalse]
    exact ⟨fun h => absurd h Bool.false_ne_true,
      fun h => absurd h.symm (not_rowsMeet_of_length_le ha (Nat.zero_le _))⟩
  | [(aY, a)], bSpan, d, d', aHad, bHad, ha, _ => by
    have hfalse : intersects.compareSpans [(aY, a)] bSpan aHad bHad = false := by
      rw [compareSpans.eq_def]
      simp [intersects, check]
    rw [hfalse]
    exact ⟨fun h => absurd h Bool.false_ne_true,
      fun h => absurd h.symm (not_rowsMeet_of_length_le ha (Nat.le_refl 1))⟩
  | _ :: _ :: _, [], d, d', aHad, bHad, _, hb => by
    rw [compareSpans.eq_def]
    exact ⟨fun h => absurd h (by simp [intersects, check]),
      fun h => absurd h (not_rowsMeet_of_length_le hb (Nat.zero_le _))⟩
  | _ :: _ :: _, [(bY, b)], d, d', aHad, bHad, _, hb => by
    rw [compareSpans.eq_def]
    exact ⟨fun h => absurd h (by simp [intersects, check]),
      fun h => absurd h (not_rowsMeet_of_length_le hb (Nat.le_refl 1))⟩
  | (aY, a) :: (aMaxY, aNext) :: aSpan, (bY, b) :: (bMaxY, bNext) :: bSpan, d, d', aHad, bHad,
      ha, hb => by
    have haM : aY < aMaxY := ha.lt_of_mem_keys mem_cons_self
    have hbM : bY < bMaxY := hb.lt_of_mem_keys mem_cons_self
    have haI : Intervals a := ha.rows _ mem_cons_self
    have hbI : Intervals b := hb.rows _ mem_cons_self
    have houtside : ∀ c, check c intersects.aOutsideB = none := by
      intro c
      cases c <;> rfl
    have houtside' : ∀ c, check c intersects.bOutsideA = none := by
      intro c
      cases c <;> rfl
    rw [compareSpans, houtside, houtside']
    by_cases hfound : (bMaxY > aY ∧ bY < aMaxY) ∧ Meets a b
    · -- the two spans meet in the first row that both have
      obtain ⟨hoverlap, hmeets⟩ := hfound
      have hsome : intersects.compareSegments a b = some true := by
        rcases compareSegments_intersects haI hbI with ⟨-, hnot⟩ | ⟨heq, -⟩
        · exact absurd hmeets hnot
        · exact heq
      have hcond : (decide (bMaxY > aY) && decide (bY < aMaxY)) = true := by
        simpa using hoverlap
      rw [if_pos hcond, hsome]
      refine ⟨fun _ => ⟨max aY bY, ?_⟩, fun _ => rfl⟩
      rw [row_above (max_lt haM hoverlap.2), row_above (max_lt hoverlap.1 hbM),
        if_neg (not_lt.mpr (le_max_left _ _)), if_neg (not_lt.mpr (le_max_right _ _))]
      exact hmeets
    · have hmeets : bMaxY > aY → bY < aMaxY → ¬ Meets a b := by
        intro h h' hm
        exact hfound ⟨⟨h, h'⟩, hm⟩
      have hgo : (if decide (bMaxY > aY) && decide (bY < aMaxY) then
          intersects.compareSegments a b else none) = none := by
        split
        · rename_i hoverlap
          rw [Bool.and_eq_true, decide_eq_true_eq, decide_eq_true_eq] at hoverlap
          rcases compareSegments_intersects haI hbI with ⟨heq, -⟩ | ⟨-, hm⟩
          · exact heq
          · exact absurd hm (hmeets hoverlap.1 hoverlap.2)
        · rfl
      rw [hgo]
      rcases lt_trichotomy aMaxY bMaxY with hlt | rfl | hlt
      · rw [if_pos hlt, rowsMeet_skip_first ha hmeets hlt.le]
        exact compareSpans_intersects ha.tail hb
      · rw [if_neg (lt_irrefl _), if_neg (lt_irrefl _), rowsMeet_skip_both ha hb (hmeets haM hbM)]
        exact compareSpans_intersects ha.tail hb.tail
      · rw [if_neg (not_lt.mpr hlt.le), if_pos hlt, rowsMeet_skip_second hb hmeets hlt.le]
        exact compareSpans_intersects ha hb.tail
  termination_by aSpan bSpan => aSpan.length + bSpan.length

theorem compareShapes_intersects {bands bands' : Bands} (h : Banded [] bands)
    (h' : Banded [] bands') :
    intersects.compareShapes (.ofBands bands) (.ofBands bands') = true ↔
      ∃ x y, inside false (valueAt [] bands y) x = true ∧
        inside false (valueAt [] bands' y) x = true := by
  rw [compareShapes, Shape.bands_ofBands, Shape.bands_ofBands, compareSpans_intersects h h']
  exact exists_comm

end CompareOperation

end WebKit.Graphics
