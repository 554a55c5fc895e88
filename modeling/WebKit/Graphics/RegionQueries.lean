import Mathlib.Data.Finset.Max
import WebKit.Graphics.RegionRun
import WebKit.Graphics.ShapeIntersect

/-!
# Queries of regions

`contains` and `intersects` compare the bounds first and then walk over both shapes. For regions
with points they agree with the sets. A rectangle without a size still puts its columns into the
shape of its region (`ofRect`). As long as no points are united with such columns
(`UnitesCleanly`), a region without points has either no spans or those of one rectangle
(`Reachable.cases`), and no query but `contains` depends on them. What `contains` says of a second
region without points is not always what it should: the test of the bounds asks for a place where
there is nothing to be placed (`contains_empty_iff`).
-/

namespace WebKit.Graphics

open Scanline List CompareOperation IntRect Region Shape

/-! ## The queries -/

namespace Shape

/-- The inner loop of `contains(const IntPoint&)`. -/
def containsColumn (pointX : ℤ) : List ℤ → Bool
  | x :: maxX :: segments =>
    if x > pointX then false
    else if maxX > pointX then true
    else containsColumn pointX segments
  | _ => false

def containsPointFrom (point : IntPoint) : List (ℤ × List ℤ) → Bool
  | (y, segments) :: (maxY, next) :: rest =>
    if y > point.y then false
    else if maxY ≤ point.y then containsPointFrom point ((maxY, next) :: rest)
    else if containsColumn point.x segments then true
    else containsPointFrom point ((maxY, next) :: rest)
  | _ => false

end Shape

namespace Region

/-- `contains(const IntPoint&)` -/
def containsPoint (region : Region) (point : IntPoint) : Bool :=
  if !region.bounds.containsPoint point then false
  else containsPointFrom point region.shape.bands

def intersects (region other : Region) : Bool :=
  if !region.bounds.intersects other.bounds then false
  else CompareOperation.intersects.compareShapes region.shape other.shape

/-- No points are united with the columns of a rectangle without a size, unless these disappear
in the union. -/
def UnitesCleanly (region other : Region) : Prop :=
  region.isEmpty = true → other.isEmpty = true ∨ (region.unite other).shape = other.shape

end Region

/-- Columns without points that stay in a union are compared with everything. -/
example :
    let square := Region.ofRect ⟨0, 0, 5, 5⟩
    let result := (Region.ofRect ⟨10, 10, 0, 5⟩).unite square
    result.rects = [⟨0, 0, 5, 5⟩, ⟨10, 10, 0, 5⟩] ∧ square.contains result = false := by
  decide +kernel

/-- The regions made of arbitrary rectangles, with the sets of points they should be. -/
inductive Reachable : Region → Set IntPoint → Prop
  | empty : Reachable .empty ∅
  | rect (r : IntRect) : (Shape.ofRect r).Small →
      Reachable (.ofRect r) {p | r.containsPoint p = true}
  | unite {region other : Region} {points points' : Set IntPoint} :
      Reachable region points → Reachable other points' → region.UnitesCleanly other →
      Reachable (region.unite other) (points ∪ points')
  | intersect {region other : Region} {points points' : Set IntPoint} :
      Reachable region points → Reachable other points' →
      Reachable (region.intersect other) (points ∩ points')
  | subtract {region other : Region} {points points' : Set IntPoint} :
      Reachable region points → Reachable other points' →
      Reachable (region.subtract other) (points \ points')
  | translate {region : Region} {points : Set IntPoint} (offset : IntSize) :
      Reachable region points → (region.shape.translate offset).Small →
      Reachable (region.translate offset)
        {p | ⟨p.x - offset.width, p.y - offset.height⟩ ∈ points}

/-- Every span with rows between those of the rectangle has a segment around its columns. -/
def Frames (r : IntRect) : Bands → Prop
  | (y, segments) :: (maxY, next) :: rest =>
    (y < r.maxY → r.y < maxY → ∃ q ∈ pairs segments, q.1 ≤ r.x ∧ r.maxX ≤ q.2) ∧
      Frames r ((maxY, next) :: rest)
  | _ => True

variable {bands bands' : Bands} {segments a : List ℤ} {x maxX y maxY : ℤ} {p : IntPoint}
  {r r' : IntRect} {region other : Region} {points points' : Set IntPoint}

theorem Shape.containsColumn_iff : ∀ {segments : List ℤ}, Intervals segments →
    (containsColumn x segments = true ↔ inside false segments x = true)
  | [], _ => by simp [containsColumn, inside_nil]
  | [_], h => absurd h not_intervals_singleton
  | first :: last :: segments, h => by
    obtain ⟨hlt, hrest, hsegs⟩ := intervals_cons_cons.mp h
    rw [containsColumn, inside_cons_cons h]
    by_cases hfirst : first > x
    · rw [if_pos hfirst]
      refine ⟨fun hfalse => absurd hfalse Bool.false_ne_true, ?_⟩
      rintro (⟨hle, -⟩ | hin)
      · omega
      · have := inside_lt hrest hin
        omega
    · rw [if_neg hfirst]
      by_cases hlast : last > x
      · rw [if_pos hlast]
        exact ⟨fun _ => .inl ⟨by omega, hlast⟩, fun _ => rfl⟩
      · rw [if_neg hlast, containsColumn_iff hsegs]
        refine ⟨.inr, ?_⟩
        rintro (⟨-, hlt'⟩ | hin)
        · exact absurd hlt' hlast
        · exact hin

theorem Shape.containsPointFrom_iff : ∀ {bands : Bands} {d : List ℤ}, Banded d bands →
    (containsPointFrom p bands = true ↔ inside false (valueAt [] bands p.y) p.x = true)
  | [], _, _ => by simp [containsPointFrom, valueAt_nil, inside_nil]
  | [(y, segments)], d, h => by
    obtain rfl : segments = [] := h.ends
    have hrow : valueAt [] [(y, ([] : List ℤ))] p.y = [] := by
      rw [valueAt]
      split <;> rfl
    have hfalse : containsPointFrom p [(y, ([] : List ℤ))] = false := by simp [containsPointFrom]
    rw [hrow, hfalse, inside_nil]
  | (y, segments) :: (maxY, next) :: rest, d, h => by
    have hsegs : Intervals segments := h.rows _ mem_cons_self
    rw [containsPointFrom]
    by_cases hy : y > p.y
    · rw [if_pos hy, valueAt_of_lt hy]
      exact Iff.rfl
    · rw [if_neg hy]
      by_cases hmax : maxY ≤ p.y
      · rw [if_pos hmax, containsPointFrom_iff h.tail, valueAt_of_le (not_lt.mp hy),
          valueAt_of_le hmax, valueAt_of_le hmax]
      · have hmax' := not_le.mp hmax
        rw [if_neg hmax, valueAt_of_le (not_lt.mp hy), valueAt_of_lt hmax',
          ← containsColumn_iff hsegs]
        by_cases hcolumn : containsColumn p.x segments = true
        · rw [if_pos hcolumn, hcolumn]
        · -- the outer loop goes on and breaks
          rw [if_neg hcolumn, containsPointFrom_iff h.tail, valueAt_of_lt hmax']
          exact ⟨fun hfalse => absurd hfalse Bool.false_ne_true, fun hin => absurd hin hcolumn⟩

/-! ## Rectangles without a size -/

theorem IntRect.not_containsPoint_of_isEmpty (hempty : r.isEmpty = true) :
    r.containsPoint p ≠ true := by
  rw [isEmpty, Bool.or_eq_true, decide_eq_true_eq, decide_eq_true_eq] at hempty
  intro hp
  rw [containsPoint_iff, maxX, maxY] at hp
  omega

theorem IntRect.contains_of_isEmpty (hempty : r.isEmpty = true) (hcont : r.contains r' = true) :
    r'.isEmpty = true := by
  rw [isEmpty, Bool.or_eq_true, decide_eq_true_eq, decide_eq_true_eq] at hempty ⊢
  rw [contains_iff, maxX, maxX, maxY, maxY] at hcont
  omega

theorem Region.bands_ofRect (r : IntRect) :
    (ofRect r).shape.bands = [(r.y, [r.x, r.maxX]), (r.maxY, [])] := by
  rw [ofRect, Region.Represents.ofRect_eq, bands_ofBands]

theorem Region.rects_ofRect (r : IntRect) : (ofRect r).rects = [r] := by
  have hcancel : ∀ i j : ℤ, i + j - i = j := fun i j => by omega
  rw [rects, bands_ofRect]
  simp only [rectsFrom, spanRects, maxX, maxY, hcancel, append_nil]

namespace CompareOperation

theorem compareSegments_single : ∀ {a : List ℤ}, Intervals a →
    (contains.compareSegments a [x, maxX] = none ∧ (∃ q ∈ pairs a, q.1 ≤ x ∧ maxX ≤ q.2) ∨
      contains.compareSegments a [x, maxX] = some false ∧ ¬ ∃ q ∈ pairs a, q.1 ≤ x ∧ maxX ≤ q.2)
  | [], _ => by
    refine .inr ⟨?_, ?_⟩
    · rw [compareSegments.eq_def]
      rfl
    · rintro ⟨q, hq, -⟩
      cases hq
  | [_], h => absurd h not_intervals_singleton
  | aX :: aMaxX :: a, h => by
    obtain ⟨hlt, hrest, ha⟩ := intervals_cons_cons.mp h
    rw [compareSegments, pairs]
    by_cases hout : x < aX
    · refine .inr ⟨?_, ?_⟩
      · simp [contains, check, hout]
      · -- every segment begins after the column
        rintro ⟨q, hq, hx, -⟩
        rcases mem_cons.mp hq with rfl | hq
        · exact absurd hx (not_le.mpr hout)
        · have := hrest _ (mem_of_mem_pairs hq).1
          omega
    · have hgo : (check (maxX > aX && x < aMaxX) contains.aOverlapsB <|>
          check (aX < x) contains.aOutsideB <|> check (x < aX) contains.bOutsideA) = none := by
        simp [contains, check, hout]
      have hended : ∀ s, contains.compareSegments s [] = none := by
        intro s
        rw [compareSegments.eq_def]
        cases s <;> simp [contains, check]
      rw [hgo]
      rcases lt_trichotomy aMaxX maxX with hmax | rfl | hmax
      · rw [if_pos hmax]
        have hskip : (∃ q ∈ (aX, aMaxX) :: pairs a, q.1 ≤ x ∧ maxX ≤ q.2) ↔
            ∃ q ∈ pairs a, q.1 ≤ x ∧ maxX ≤ q.2 := by
          rw [exists_mem_cons_iff]
          exact or_iff_right fun hin => absurd hin.2 (not_le.mpr hmax)
        rw [hskip]
        exact compareSegments_single ha
      · rw [if_neg (lt_irrefl _), if_neg (lt_irrefl _)]
        exact .inl ⟨hended a, (aX, aMaxX), mem_cons_self, not_lt.mp hout, le_rfl⟩
      · rw [if_neg (not_lt.mpr hmax.le), if_pos hmax]
        exact .inl ⟨hended _, (aX, aMaxX), mem_cons_self, not_lt.mp hout, hmax.le⟩

theorem compareSpans_contains_ended (aSpan : Bands) (aHad bHad : Bool) :
    contains.compareSpans aSpan [(y, segments)] aHad bHad = true := by
  rw [compareSpans.eq_def]
  simp [contains, check]

theorem frames_of_le : ∀ {bands : Bands} {y : ℤ} {segments d : List ℤ},
    Banded d ((y, segments) :: bands) → r.maxY ≤ y → Frames r ((y, segments) :: bands)
  | [], _, _, _, _, _ => trivial
  | (_, _) :: _, _, _, _, h, hle =>
    ⟨fun hlt => absurd hlt (not_lt.mpr hle),
      frames_of_le h.tail (hle.trans (h.lt_of_mem_keys mem_cons_self).le)⟩

theorem compareSpans_within (hin : r.x ≤ r'.x ∧ r'.maxX ≤ r.maxX ∧ r.y ≤ r'.y ∧ r'.maxY ≤ r.maxY) :
    contains.compareSpans [(r.y, [r.x, r.maxX]), (r.maxY, [])]
      [(r'.y, [r'.x, r'.maxX]), (r'.maxY, [])] false false = true := by
  obtain ⟨hx, hmaxX, hy, hmaxY⟩ := hin
  have hended : ∀ s, contains.compareSegments s [] = none := by
    intro s
    rw [compareSegments.eq_def]
    cases s <;> simp [contains, check]
  have hsegs : contains.compareSegments [r.x, r.maxX] [r'.x, r'.maxX] = none := by
    have hgo : (check (r'.maxX > r.x && r'.x < r.maxX) contains.aOverlapsB <|>
        check (r.x < r'.x) contains.aOutsideB <|> check (r'.x < r.x) contains.bOutsideA) = none := by
      simp [contains, check, not_lt.mpr hx]
    rw [compareSegments, hgo]
    rw [if_neg (not_lt.mpr hmaxX), hended, hended, ite_self]
  rw [compareSpans]
  have hgo : (check (r.y < r'.y && !false && decide ([r.x, r.maxX] ≠ [])) contains.aOutsideB <|>
      check (r'.y < r.y && !false && decide ([r'.x, r'.maxX] ≠ [])) contains.bOutsideA <|>
      (if r'.maxY > r.y && r'.y < r.maxY then
        contains.compareSegments [r.x, r.maxX] [r'.x, r'.maxX] else none)) = none := by
    rw [hsegs, ite_self]
    simp [contains, check, not_lt.mpr hy]
  rw [hgo]
  rw [if_neg (not_lt.mpr hmaxY), compareSpans_contains_ended, compareSpans_contains_ended, ite_self]

theorem compareSpans_rect : ∀ {aSpan : Bands} {aY : ℤ} {a d : List ℤ} {aHad bHad : Bool},
    Banded d ((aY, a) :: aSpan) → (r.y < aY → aHad = true) → (∃ k ∈ keys aSpan, r.maxY ≤ k) →
    (contains.compareSpans ((aY, a) :: aSpan) [(r.y, [r.x, r.maxX]), (r.maxY, [])] aHad bHad =
      true ↔ Frames r ((aY, a) :: aSpan))
  | [], aY, a, d, aHad, bHad, _, _, hlast => by
    obtain ⟨k, hk, -⟩ := hlast
    cases hk
  | (aMaxY, aNext) :: aSpan, aY, a, d, aHad, bHad, h, hhad, hlast => by
    have haI : Intervals a := h.rows _ mem_cons_self
    have hout : check (r.y < aY && !aHad && decide ([r.x, r.maxX] ≠ [])) contains.bOutsideA =
        none := by
      rw [check, if_neg]
      simp only [Bool.and_eq_true, decide_eq_true_eq, Bool.not_eq_true']
      rintro ⟨⟨hlt, hnot⟩, -⟩
      rw [hhad hlt] at hnot
      cases hnot
    have hnone : ∀ c, check c contains.aOutsideB = none := by
      intro c
      cases c <;> rfl
    rw [compareSpans, hout, hnone, Frames]
    by_cases hfound : (aY < r.maxY ∧ r.y < aMaxY) ∧ ¬ ∃ q ∈ pairs a, q.1 ≤ r.x ∧ r.maxX ≤ q.2
    · obtain ⟨⟨hlt, hlt'⟩, hno⟩ := hfound
      have hsome : contains.compareSegments a [r.x, r.maxX] = some false := by
        rcases compareSegments_single haI with ⟨-, hyes⟩ | ⟨heq, -⟩
        · exact absurd hyes hno
        · exact heq
      have hcond : (decide (r.maxY > aY) && decide (r.y < aMaxY)) = true := by
        simpa using ⟨hlt, hlt'⟩
      rw [if_pos hcond, hsome]
      exact ⟨fun hfalse => absurd hfalse Bool.false_ne_true, fun hframes =>
        absurd (hframes.1 hlt hlt') hno⟩
    · have hframe : aY < r.maxY → r.y < aMaxY → ∃ q ∈ pairs a, q.1 ≤ r.x ∧ r.maxX ≤ q.2 := by
        intro hlt hlt'
        by_contra hno
        exact hfound ⟨⟨hlt, hlt'⟩, hno⟩
      have hgo : (if decide (r.maxY > aY) && decide (r.y < aMaxY) then
          contains.compareSegments a [r.x, r.maxX] else none) = none := by
        split
        · rename_i hcond
          rw [Bool.and_eq_true, decide_eq_true_eq, decide_eq_true_eq] at hcond
          rcases compareSegments_single haI with ⟨heq, -⟩ | ⟨-, hno⟩
          · exact heq
          · exact absurd (hframe hcond.1 hcond.2) hno
        · rfl
      rw [hgo]
      dsimp only [Option.orElse_eq_orElse, Option.orElse]
      have haM : aY < aMaxY := h.lt_of_mem_keys mem_cons_self
      rcases lt_trichotomy aMaxY r.maxY with hlt | heq | hlt
      · -- the rectangle goes on below the span
        rw [if_pos hlt, compareSpans_rect h.tail]
        · exact ⟨fun hframes => ⟨hframe, hframes⟩, fun hframes => hframes.2⟩
        · intro hy
          obtain ⟨q, hq, -⟩ := hframe (haM.trans hlt) hy
          rw [decide_eq_true_eq]
          rintro rfl
          cases hq
        · obtain ⟨k, hk, hle⟩ := hlast
          rcases mem_cons.mp hk with rfl | hk
          · exact absurd hlt (not_lt.mpr hle)
          · exact ⟨k, hk, hle⟩
      · rw [if_neg (not_lt.mpr heq.ge), if_neg (not_lt.mpr heq.le)]
        exact ⟨fun _ => ⟨hframe, frames_of_le h.tail heq.ge⟩,
          fun _ => compareSpans_contains_ended _ _ _⟩
      · rw [if_neg (not_lt.mpr hlt.le), if_pos hlt]
        exact ⟨fun _ => ⟨hframe, frames_of_le h.tail hlt.le⟩,
          fun _ => compareSpans_contains_ended _ _ _⟩

end CompareOperation

namespace Region.Represents

theorem rows_of_contains (h : region.Represents ((y, segments) :: bands))
    (hcont : region.bounds.contains r = true) :
    y ≤ r.y ∧ ∃ k ∈ keys bands, r.maxY ≤ k := by
  have hbanded := h.banded
  have hpoint : (pointsOf ((y, segments) :: bands)).Nonempty := by
    obtain ⟨x, hx⟩ := hbanded.exists_first
    exact ⟨_, hx⟩
  -- the last key
  obtain ⟨last, hlast, hmax⟩ : ∃ k ∈ keys ((y, segments) :: bands),
      ∀ k' ∈ keys ((y, segments) :: bands), k' ≤ k := by
    obtain ⟨k, hk, hmax⟩ := Finset.exists_max_image (keys ((y, segments) :: bands)).toFinset id
      ⟨y, mem_toFinset.mpr mem_cons_self⟩
    exact ⟨k, mem_toFinset.mp hk, fun k' hk' => hmax k' (mem_toFinset.mpr hk')⟩
  have hfirst : ∀ k ∈ keys ((y, segments) :: bands), y ≤ k := by
    intro k hk
    rcases mem_cons.mp hk with rfl | hk
    · exact le_rfl
    · exact (hbanded.lt_of_mem_keys hk).le
  have houter := h.bounds.smallest hpoint
    ⟨region.bounds.x, y, region.bounds.width, last - y⟩ fun p hp => by
      have hin := containsPoint_iff.mp (h.bounds.contains p hp)
      have hrow := hbanded.row_bounds hfirst hmax hp
      rw [containsPoint_iff]
      dsimp only [maxX, maxY] at hin ⊢
      omega
  rw [IntRect.contains_iff] at houter hcont
  have hend : y + (last - y) = last := by omega
  dsimp only [maxY] at houter
  rw [hend] at houter
  obtain ⟨-, -, hle, hge⟩ := houter
  obtain ⟨-, -, hle', hge'⟩ := hcont
  refine ⟨hle.trans hle', last, ?_, hge'.trans hge⟩
  rcases mem_cons.mp hlast with rfl | hlast
  · -- a region with points has two rows
    obtain ⟨p, hp⟩ := hpoint
    have hrow := hbanded.row_bounds hfirst hmax hp
    omega
  · exact hlast

theorem containsPoint_iff (h : region.Represents bands) :
    region.containsPoint p = true ↔ p ∈ pointsOf bands := by
  have hshape : containsPointFrom p region.shape.bands = true ↔ p ∈ pointsOf bands := by
    rw [h.shape_eq, bands_ofBands]
    exact containsPointFrom_iff h.banded
  rw [containsPoint]
  by_cases hbnd : region.bounds.containsPoint p = true
  · rw [hbnd, Bool.not_true, if_neg Bool.false_ne_true]
    exact hshape
  · rw [Bool.eq_false_iff.mpr hbnd, Bool.not_false, if_pos rfl]
    exact ⟨fun hfalse => absurd hfalse Bool.false_ne_true,
      fun hp => absurd (h.bounds.contains p hp) hbnd⟩

theorem intersects_iff (h : region.Represents bands) (h' : other.Represents bands') :
    region.intersects other = true ↔ (pointsOf bands ∩ pointsOf bands').Nonempty := by
  have hshapes : CompareOperation.intersects.compareShapes region.shape other.shape = true ↔
      (pointsOf bands ∩ pointsOf bands').Nonempty := by
    rw [h.shape_eq, h'.shape_eq, compareShapes_intersects h.banded h'.banded]
    exact ⟨fun ⟨x, y, hx, hx'⟩ => ⟨⟨x, y⟩, hx, hx'⟩, fun ⟨p, hp, hp'⟩ => ⟨p.x, p.y, hp, hp'⟩⟩
  rw [Region.intersects]
  by_cases hbnd : region.bounds.intersects other.bounds = true
  · rw [hbnd, Bool.not_true, if_neg Bool.false_ne_true]
    exact hshapes
  · rw [Bool.eq_false_iff.mpr hbnd, Bool.not_false, if_pos rfl,
      h.bounds.disjoint h'.bounds hbnd]
    exact ⟨fun hfalse => absurd hfalse Bool.false_ne_true,
      fun hne => absurd hne Set.not_nonempty_empty⟩

theorem compareShapes_rect (h : region.Represents bands) (hcont : region.bounds.contains r = true) :
    CompareOperation.contains.compareShapes region.shape (Shape.ofRect r) = true ↔
      region.shape.isEmpty = false ∧ Frames r region.shape.bands := by
  rw [CompareOperation.compareShapes, ofRect_eq, Shape.bands_ofBands, h.shape_eq, bands_ofBands]
  cases bands with
  | nil =>
    have hfalse : CompareOperation.contains.compareSpans []
        [(r.y, [r.x, r.maxX]), (r.maxY, [])] false false = false := by
      rw [CompareOperation.compareSpans.eq_def]
      simp [CompareOperation.contains, CompareOperation.check]
    rw [hfalse]
    exact ⟨fun h => absurd h Bool.false_ne_true, fun h => absurd h.1.symm Bool.false_ne_true⟩
  | cons band bands =>
    obtain ⟨hfirst, hlast⟩ := h.rows_of_contains hcont
    rw [compareSpans_rect h.banded (fun hlt => absurd hlt (not_lt.mpr hfirst)) hlast]
    exact (and_iff_right rfl).symm

end Region.Represents

/-! ## Regions without points -/

/-- The region of a rectangle without a size. -/
def Region.Sizeless (region : Region) : Prop := ∃ r, r.isEmpty = true ∧ region = .ofRect r

namespace Region.Sizeless

section

variable (h : region.Sizeless)
include h

theorem isEmpty : region.isEmpty = true := by
  obtain ⟨r, hempty, rfl⟩ := h
  exact hempty

theorem isRect : region.isRect = true := by
  obtain ⟨r, -, rfl⟩ := h
  rfl

theorem translate (offset : IntSize) : (region.translate offset).Sizeless := by
  obtain ⟨r, hempty, rfl⟩ := h
  refine ⟨r.move offset, hempty, ?_⟩
  rw [Region.translate, Region.ofRect, Region.ofRect, Region.mk.injEq]
  refine ⟨rfl, ?_⟩
  have hcolumn : r.x + r.width + offset.width = r.x + offset.width + r.width := by omega
  have hrow : r.y + r.height + offset.height = r.y + offset.height + r.height := by omega
  simp [Shape.ofRect, Shape.translate, Shape.appendSpanAt, Shape.appendSegment, Shape.empty,
    IntRect.move, IntRect.maxX, IntRect.maxY, hcolumn, hrow]

theorem not_contains (hother : other.isEmpty ≠ true) : region.bounds.contains other.bounds ≠ true :=
  fun hcont => hother (contains_of_isEmpty h.isEmpty hcont)

theorem unite_of_nonempty (hother : other.isEmpty ≠ true)
    (hshape : (region.unite other).shape = other.shape) : region.unite other = other := by
  have hbnd : (region.unite other).bounds = other.bounds := by
    rw [Region.unite, if_neg hother, h.isRect, Bool.true_and, if_neg (h.not_contains hother),
      Bool.not_true, Bool.false_and, if_neg Bool.false_ne_true]
    split
    · rfl
    · have hnone : region.bounds.isEmpty = true := h.isEmpty
      have hsome : ¬ other.bounds.isEmpty = true := hother
      rw [IntRect.unite, if_neg hsome, if_pos hnone]
  generalize region.unite other = result at hbnd hshape
  cases result
  cases other
  cases hbnd
  cases hshape
  rfl

theorem not_intersects (r : IntRect) :
    region.bounds.intersects r = false ∧ r.intersects region.bounds = false := by
  have hempty : region.bounds.isEmpty = true := h.isEmpty
  constructor <;> simp [IntRect.intersects, hempty]

theorem not_containsPoint : region.containsPoint p = false := by
  have hout : region.bounds.containsPoint p ≠ true := IntRect.not_containsPoint_of_isEmpty h.isEmpty
  rw [containsPoint, Bool.eq_false_iff.mpr hout]
  rfl

theorem mem_rects : ¬ ∃ r ∈ region.rects, r.containsPoint p = true := by
  obtain ⟨r, hempty, rfl⟩ := h
  rw [rects_ofRect]
  rintro ⟨r', hr', hp⟩
  obtain rfl := mem_singleton.mp hr'
  exact not_containsPoint_of_isEmpty hempty hp

end

end Region.Sizeless

theorem pointsOf_nil : pointsOf [] = ∅ := Set.eq_empty_of_forall_notMem fun p hp => by cases hp

theorem Reachable.cases (h : Reachable region points) :
    (∃ bands, region.Represents bands ∧ pointsOf bands = points) ∨
      region.Sizeless ∧ points = ∅ := by
  induction h with
  | empty => exact .inl ⟨[], .empty, pointsOf_nil⟩
  | rect r hsmall =>
    by_cases hempty : r.isEmpty = true
    · exact .inr ⟨⟨r, hempty, rfl⟩, Set.eq_empty_of_forall_notMem fun p hp =>
        IntRect.not_containsPoint_of_isEmpty hempty hp⟩
    · rw [IntRect.isEmpty, Bool.or_eq_true, decide_eq_true_eq, decide_eq_true_eq] at hempty
      have hwidth : 0 < r.width := by omega
      have hheight : 0 < r.height := by omega
      exact .inl ⟨_, .ofRect hwidth hheight hsmall, Region.Represents.pointsOf_rect hwidth hheight⟩
  | @unite region other points points' _ _ hclean ih ih' =>
    by_cases hother : other.isEmpty = true
    · -- nothing is united
      have hnone : points' = ∅ := by
        rcases ih' with ⟨bands', h', rfl⟩ | ⟨-, rfl⟩
        · exact h'.isEmpty_iff.mp hother
        · rfl
      rw [Region.unite, if_pos hother, hnone, Set.union_empty]
      exact ih
    · rcases ih' with ⟨bands', h', rfl⟩ | ⟨h', -⟩
      · rcases ih with ⟨bands, h, rfl⟩ | ⟨h, rfl⟩
        · exact .inl (h.unite h')
        · rw [h.unite_of_nonempty hother ((hclean h.isEmpty).resolve_left hother), Set.empty_union]
          exact .inl ⟨bands', h', rfl⟩
      · exact absurd h'.isEmpty hother
  | @intersect region other points points' _ _ ih ih' =>
    rcases ih with ⟨bands, h, rfl⟩ | ⟨h, rfl⟩
    · rcases ih' with ⟨bands', h', rfl⟩ | ⟨h', rfl⟩
      · exact .inl (h.intersect h')
      · rw [Set.inter_empty, Region.intersect, (h'.not_intersects region.bounds).2]
        by_cases hempty : region.bounds.isEmpty = true
        · rw [if_pos hempty]
          exact .inl ⟨bands, h, h.isEmpty_iff.mp hempty⟩
        · rw [if_neg hempty, Bool.not_false, if_pos rfl]
          exact .inl ⟨[], .empty, pointsOf_nil⟩
    · have hempty : region.bounds.isEmpty = true := h.isEmpty
      rw [Region.intersect, if_pos hempty, Set.empty_inter]
      exact .inr ⟨h, rfl⟩
  | @subtract region other points points' _ _ ih ih' =>
    rcases ih with ⟨bands, h, rfl⟩ | ⟨h, rfl⟩
    · rcases ih' with ⟨bands', h', rfl⟩ | ⟨h', rfl⟩
      · exact .inl (h.subtract h')
      · rw [Set.sdiff_empty, Region.subtract, if_pos h'.isEmpty]
        simp only [ite_self]
        exact .inl ⟨bands, h, rfl⟩
    · have hempty : region.bounds.isEmpty = true := h.isEmpty
      rw [Region.subtract, if_pos hempty, Set.empty_sdiff]
      exact .inr ⟨h, rfl⟩
  | translate offset _ hsmall ih =>
    rcases ih with ⟨bands, h, rfl⟩ | ⟨h, rfl⟩
    · exact .inl ⟨_, h.translate hsmall, Region.Represents.pointsOf_move⟩
    · exact .inr ⟨h.translate offset, rfl⟩

namespace Reachable

section

variable (h : Reachable region points)
include h

theorem isEmpty_iff : region.isEmpty = true ↔ points = ∅ := by
  rcases h.cases with ⟨bands, hreg, rfl⟩ | ⟨hreg, rfl⟩
  · exact hreg.isEmpty_iff
  · exact ⟨fun _ => rfl, fun _ => hreg.isEmpty⟩

theorem containsPoint_iff :
    region.containsPoint p = true ↔ p ∈ points := by
  rcases h.cases with ⟨bands, hreg, rfl⟩ | ⟨hreg, rfl⟩
  · exact hreg.containsPoint_iff
  · rw [hreg.not_containsPoint]
    exact ⟨fun hfalse => absurd hfalse Bool.false_ne_true, fun hp => absurd hp (Set.notMem_empty p)⟩

theorem mem_rects_iff :
    (∃ r ∈ region.rects, r.containsPoint p = true) ↔ p ∈ points := by
  rcases h.cases with ⟨bands, hreg, rfl⟩ | ⟨hreg, rfl⟩
  · exact hreg.exact.rects p
  · exact ⟨fun hrect => absurd hrect hreg.mem_rects, fun hp => absurd hp (Set.notMem_empty p)⟩

theorem intersects_iff (h' : Reachable other points') :
    region.intersects other = true ↔ (points ∩ points').Nonempty := by
  have hnone : ∀ {s : Set IntPoint}, s = ∅ → (false = true ↔ s.Nonempty) := by
    rintro _ rfl
    exact ⟨fun hfalse => absurd hfalse Bool.false_ne_true,
      fun hne => absurd hne Set.not_nonempty_empty⟩
  rcases h.cases with ⟨bands, hreg, rfl⟩ | ⟨hreg, rfl⟩
  · rcases h'.cases with ⟨bands', hother, rfl⟩ | ⟨hother, rfl⟩
    · exact hreg.intersects_iff hother
    · rw [Region.intersects, (hother.not_intersects _).2]
      exact hnone (Set.inter_empty _)
  · rw [Region.intersects, (hreg.not_intersects _).1]
    exact hnone (Set.empty_inter _)

theorem contains_iff (h' : Reachable other points')
    (hne : points'.Nonempty) : region.contains other = true ↔ points' ⊆ points := by
  have hother : other.isEmpty ≠ true := fun hempty => hne.ne_empty (h'.isEmpty_iff.mp hempty)
  rcases h'.cases with ⟨bands', hrepr', rfl⟩ | ⟨hsizeless, -⟩
  · rcases h.cases with ⟨bands, hrepr, rfl⟩ | ⟨hsizeless, rfl⟩
    · exact hrepr.contains_iff hrepr' hne
    · have hout := hsizeless.not_contains hother
      rw [Region.contains, Bool.eq_false_iff.mpr hout, Bool.not_false, if_pos rfl]
      exact ⟨fun hfalse => absurd hfalse Bool.false_ne_true,
        fun hsub => absurd (Set.subset_empty_iff.mp hsub) hne.ne_empty⟩
  · exact absurd hsizeless.isEmpty hother

end

/-- Where the second region has no points, `contains` still compares its bounds, and the columns
it has if it is a rectangle. -/
theorem contains_empty_iff (h : Reachable region points) (h' : Reachable other ∅) :
    region.contains other = true ↔ region.bounds.contains other.bounds = true ∧
      ∀ r ∈ other.rects, region.shape.isEmpty = false ∧ Frames r region.shape.bands := by
  rw [Region.contains]
  by_cases hbnd : region.bounds.contains other.bounds = true
  swap
  · rw [Bool.eq_false_iff.mpr hbnd, Bool.not_false, if_pos rfl]
    exact ⟨fun hfalse => absurd hfalse Bool.false_ne_true, fun hin => absurd hin.1 Bool.false_ne_true⟩
  rw [hbnd, Bool.not_true, if_neg Bool.false_ne_true, eq_self_iff_true, true_and]
  rcases h'.cases with ⟨bands', hother, hpoints⟩ | ⟨⟨r, hempty, rfl⟩, -⟩
  · -- a canonical shape without points has no spans
    obtain rfl : bands' = [] := by
      have hspans := hother.exact.spans_nil.mpr hpoints
      rw [hother.shape_eq, Shape.ofBands, indexed_eq_nil] at hspans
      exact hspans
    have hbands : other.shape.bands = [] := by
      rw [hother.shape_eq, Shape.bands_ofBands]
    have htrue : CompareOperation.contains.compareShapes region.shape other.shape = true := by
      rw [CompareOperation.compareShapes, hbands, CompareOperation.compareSpans.eq_def]
      simp [CompareOperation.contains, CompareOperation.check]
    rw [htrue, Region.rects, hbands]
    exact ⟨fun _ r hr => absurd hr not_mem_nil, fun _ => rfl⟩
  · rw [Region.rects_ofRect, forall_mem_singleton]
    rcases h.cases with ⟨bands, hreg, rfl⟩ | ⟨⟨r', hempty', rfl⟩, -⟩
    · exact hreg.compareShapes_rect hbnd
    · -- two rectangles, neither of which has a size
      have hin := IntRect.contains_iff.mp hbnd
      have hframes : Frames r (Region.ofRect r').shape.bands := by
        rw [Region.bands_ofRect]
        exact ⟨fun _ _ => ⟨_, mem_cons_self, hin.1, hin.2.1⟩, trivial⟩
      refine ⟨fun _ => ⟨rfl, hframes⟩, fun _ => ?_⟩
      rw [CompareOperation.compareShapes, Region.bands_ofRect, Region.bands_ofRect]
      exact CompareOperation.compareSpans_within hin

end Reachable

/-- Queries of regions that are made by any operations agree with the points and with the
operations; `contains` does so just if the second region has points, or its bounds and its
columns are where the first one has them. -/
theorem reachable_queries (h : Reachable region points) (h' : Reachable other points') :
    ((region.intersects other = true ↔ ∃ p, p ∈ points ∧ p ∈ points') ∧
      (region.intersects other = true ↔ (region.intersect other).isEmpty = false)) ∧
    (∀ p, (region.containsPoint p = true ↔ p ∈ points) ∧
      (region.containsPoint p = true ↔ ∃ r ∈ region.rects, r.containsPoint p = true)) ∧
    (((region.contains other = true ↔ ∀ p ∈ points', p ∈ points) ∧
        (region.contains other = true ↔ (other.subtract region).isEmpty = true)) ↔
      points'.Nonempty ∨ region.bounds.contains other.bounds = true ∧
        ∀ r ∈ other.rects, region.shape.isEmpty = false ∧ Frames r region.shape.bands) := by
  have hintersects := h.intersects_iff h'
  refine ⟨⟨hintersects, ?_⟩, fun p => ⟨h.containsPoint_iff, ?_⟩, ?_⟩
  · rw [hintersects, Set.nonempty_iff_ne_empty, ← Bool.not_eq_true, (h.intersect h').isEmpty_iff]
  · rw [h.containsPoint_iff, h.mem_rects_iff]
  · rw [(h'.subtract h).isEmpty_iff, Set.sdiff_eq_empty]
    change ((_ ↔ points' ⊆ points) ∧ _) ↔ _
    rw [and_self]
    by_cases hne : points'.Nonempty
    · exact iff_of_true (h.contains_iff h' hne) (Or.inl hne)
    · obtain rfl := Set.not_nonempty_iff_eq_empty.mp hne
      rw [h.contains_empty_iff h', or_iff_right hne, iff_true_right (Set.empty_subset points)]

theorem reachable_queries_rects :
    (Region.ofRect ⟨0, 0, 4, 4⟩).intersects (.ofRect ⟨2, 2, 4, 4⟩) = true ∧
      ((Region.ofRect ⟨0, 0, 4, 4⟩).contains (.ofRect ⟨2, 2, 4, 4⟩) = true ↔
        ∀ p ∈ {p | IntRect.containsPoint ⟨2, 2, 4, 4⟩ p = true},
          p ∈ {p | IntRect.containsPoint ⟨0, 0, 4, 4⟩ p = true}) := by
  have hsmall : ∀ c : ℤ, 0 ≤ c → c ≤ 6 → Coordinate c := by
    intro c h₀ h₆
    unfold Coordinate
    omega
  have hrect : ∀ x y width height : ℤ, 0 ≤ x ∧ 0 ≤ y ∧ 0 ≤ x + width ∧ 0 ≤ y + height →
      x ≤ 6 ∧ y ≤ 6 ∧ x + width ≤ 6 ∧ y + height ≤ 6 → Reachable (.ofRect ⟨x, y, width, height⟩)
        {p | IntRect.containsPoint ⟨x, y, width, height⟩ p = true} := by
    intro x y width height hle hge
    apply Reachable.rect
    apply small_rect <;> apply hsmall <;> omega
  have hqueries := reachable_queries (hrect 0 0 4 4 (by omega) (by omega))
    (hrect 2 2 4 4 (by omega) (by omega))
  exact ⟨hqueries.1.1.mpr ⟨⟨2, 2⟩, rfl, rfl⟩, (hqueries.2.2.mpr (.inl ⟨⟨2, 2⟩, rfl⟩)).1⟩

/-- A square does not contain the empty region. -/
theorem not_contains_empty :
    ∃ points, Reachable (.ofRect ⟨10, 10, 5, 5⟩) points ∧ Reachable .empty ∅ ∧
      ¬ ((Region.ofRect ⟨10, 10, 5, 5⟩).contains .empty = true ↔
        ∀ p ∈ (∅ : Set IntPoint), p ∈ points) := by
  refine ⟨_, .rect _ ?_, .empty, fun hiff => ?_⟩
  · apply small_rect <;> unfold Coordinate <;> omega
  · exact absurd (hiff.mpr fun p hp => absurd hp (Set.notMem_empty p)) (by decide +kernel)

end WebKit.Graphics
