import Mathlib.Data.List.GetD
import Mathlib.Data.Set.Basic
import WebKit.Graphics.ShapeMerge

/-!
# Rectangles and bounds

The rectangles of a shape are disjoint and cover it (`mem_rectsFrom`, `pairwise_rectsFrom`).
`Shape.bounds` reads the first and the last segment of every span. Where a span has no segments
these are segments of its neighbours, so all columns it reads are columns of the shape, and the
rectangle is the smallest one around the shape (`bounds_ofBands`).
-/

variable {r : IntRect}

open List

namespace WebKit.Graphics

open Scanline Shape IntRect

/-- The points of bands. -/
def pointsOf (bands : Bands) : Set IntPoint :=
  {p | inside false (valueAt [] bands p.y) p.x = true}

/-- The smallest rectangle around a set; it has no size if the set is empty. -/
structure Encloses (rect : IntRect) (points : Set IntPoint) : Prop where
  empty : points = ∅ → rect.width = 0 ∧ rect.height = 0
  nonempty : points.Nonempty → 0 < rect.width ∧ 0 < rect.height
  contains : ∀ p ∈ points, rect.containsPoint p = true
  smallest : points.Nonempty → ∀ other : IntRect,
    (∀ p ∈ points, other.containsPoint p = true) → other.contains rect = true

variable {bands : Bands} {segments : List ℤ} {x y maxY : ℤ} {p : IntPoint}

theorem IntRect.containsPoint_iff :
    r.containsPoint p = true ↔ r.x ≤ p.x ∧ p.x < r.maxX ∧ r.y ≤ p.y ∧ p.y < r.maxY := by
  simp [containsPoint, and_assoc]

theorem IntRect.contains_iff {r other : IntRect} : r.contains other = true ↔
      r.x ≤ other.x ∧ other.maxX ≤ r.maxX ∧ r.y ≤ other.y ∧ other.maxY ≤ r.maxY := by
  simp [contains, and_assoc]

theorem mem_pointsOf : p ∈ pointsOf bands ↔ inside false (valueAt [] bands p.y) p.x = true := Iff.rfl

namespace Shape

theorem spanRects_eq (y height : ℤ) (segments : List ℤ) : spanRects y height segments =
      (pairs segments).map fun p => ⟨p.1, y, p.2 - p.1, height⟩ := by
  induction segments using twoStepInduction with
  | nil | singleton => rfl
  | cons_cons x maxX segments ih _ => rw [spanRects, pairs, map_cons, ih]

variable {before : List ℤ}

theorem le_of_mem_rectsFrom (h : Banded before ((y, segments) :: bands)) (hr : r ∈ rectsFrom ((y, segments) :: bands)) : y ≤ r.y := by
  induction bands generalizing y segments before with
  | nil => cases hr
  | cons band bands ih =>
    rw [rectsFrom, mem_append, spanRects_eq, mem_map] at hr
    rcases hr with ⟨q, -, rfl⟩ | hr
    · exact le_rfl
    · exact (h.lt_of_mem_keys mem_cons_self).le.trans (ih h.tail hr)

theorem mem_rectsFrom (h : Banded before bands) :
    (∃ r ∈ rectsFrom bands, r.containsPoint p = true) ↔ p ∈ pointsOf bands := by
  induction bands generalizing before with
  | nil => simp [rectsFrom, mem_pointsOf, valueAt, inside_nil]
  | cons band bands ih =>
    obtain ⟨y, segments⟩ := band
    cases bands with
    | nil =>
      obtain rfl : segments = [] := h.ends
      have hrow : valueAt [] [(y, ([] : List ℤ))] p.y = [] := by
        rw [valueAt]
        split <;> rfl
      simp [rectsFrom, mem_pointsOf, hrow, inside_nil]
    | cons band bands =>
      obtain ⟨maxY, next⟩ := band
      have hlt : y < maxY := h.lt_of_mem_keys mem_cons_self
      have hrow := h.rows (y, segments) mem_cons_self
      have hspan : (∃ r ∈ spanRects y (maxY - y) segments, r.containsPoint p = true) ↔
          y ≤ p.y ∧ p.y < maxY ∧ inside false segments p.x = true := by
        rw [spanRects_eq, hrow.inside_iff]
        have hcancel : ∀ i j : ℤ, i + (j - i) = j := fun i j => by omega
        simp only [mem_map, exists_exists_and_eq_and, IntRect.containsPoint_iff,
          IntRect.maxX, IntRect.maxY, hcancel]
        constructor
        · rintro ⟨q, hq, h1, h2, h3, h4⟩
          exact ⟨h3, h4, q, hq, h1, h2⟩
        · rintro ⟨h3, h4, q, hq, h1, h2⟩
          exact ⟨q, hq, h1, h2, h3, h4⟩
      have hsplit : (∃ r ∈ rectsFrom ((y, segments) :: (maxY, next) :: bands),
          r.containsPoint p = true) ↔
          (∃ r ∈ spanRects y (maxY - y) segments, r.containsPoint p = true) ∨
            ∃ r ∈ rectsFrom ((maxY, next) :: bands), r.containsPoint p = true := by
        rw [rectsFrom]
        simp only [mem_append, or_and_right, exists_or]
      rw [hsplit, hspan, ih h.tail]
      rw [mem_pointsOf, mem_pointsOf]
      rcases lt_or_ge p.y y with hy | hy
      · rw [valueAt_of_lt (hy.trans hlt), valueAt_of_lt hy]
        simp [not_le.mpr hy, inside_nil]
      · rcases lt_or_ge p.y maxY with hmax | hmax
        · rw [valueAt_of_lt hmax, valueAt_of_le hy, valueAt_of_lt hmax]
          simp [hy, hmax, inside_nil]
        · rw [valueAt_of_le hmax, valueAt_of_le hy, valueAt_of_le hmax]
          simp [not_lt.mpr hmax]

theorem nonempty_of_mem_rectsFrom (h : Banded before bands)
    (hr : r ∈ rectsFrom bands) : 0 < r.width ∧ 0 < r.height := by
  induction bands generalizing before with
  | nil => cases hr
  | cons band bands ih =>
    obtain ⟨y, segments⟩ := band
    cases bands with
    | nil => cases hr
    | cons band bands =>
      obtain ⟨maxY, next⟩ := band
      rw [rectsFrom, mem_append, spanRects_eq, mem_map] at hr
      rcases hr with ⟨q, hq, rfl⟩ | hr
      · have hlt := (h.rows (y, segments) mem_cons_self).lt_of_mem_pairs hq
        have hy : y < maxY := h.lt_of_mem_keys mem_cons_self
        dsimp only
        exact ⟨by omega, by omega⟩
      · exact ih h.tail hr

theorem pairwise_rectsFrom (h : Banded before bands) : (rectsFrom bands).Pairwise fun r r' =>
      ∀ p, r.containsPoint p = true → r'.containsPoint p = false := by
  induction bands generalizing before with
  | nil => exact List.Pairwise.nil
  | cons band bands ih =>
    obtain ⟨y, segments⟩ := band
    cases bands with
    | nil => exact List.Pairwise.nil
    | cons band bands =>
      rw [rectsFrom, pairwise_append]
      refine ⟨?_, ih h.tail, ?_⟩
      · rw [spanRects_eq, pairwise_map]
        refine (h.rows (y, segments) mem_cons_self).pairwise_pairs.imp fun {q q'} hq p hp => ?_
        rw [containsPoint_iff, maxX] at hp
        rw [← Bool.not_eq_true, containsPoint_iff]
        dsimp only at hp ⊢
        omega
      · intro r hr r' hr' p hp
        rw [spanRects_eq, mem_map] at hr
        obtain ⟨q, -, rfl⟩ := hr
        have hle := le_of_mem_rectsFrom h.tail hr'
        rw [containsPoint_iff, maxY] at hp
        rw [← Bool.not_eq_true, containsPoint_iff]
        dsimp only at hp ⊢
        omega

/-! ## Bounds -/

theorem getD_append_middle (before after : List ℤ) {i : ℕ} (hi : i < segments.length) :
    (before ++ (segments ++ after)).getD (before.length + i) 0 = segments[i] := by
  rw [getD_eq_getElem _ _ (by simp; omega), getElem_append_right (by omega),
    getElem_append_left (by omega)]
  congr 1
  omega

theorem getD_mem {l : List ℤ} {i : ℕ} (hi : i < l.length) : l.getD i 0 ∈ l := by
  rw [getD_eq_getElem _ _ hi]
  exact getElem_mem hi

/-- The first and the last column of a row bound the others. -/
theorem bounds_of_sorted (before segments after : List ℤ) (hs : segments.Pairwise (· < ·))
    (hx : x ∈ segments) :
    (before ++ (segments ++ after)).getD before.length 0 ≤ x ∧
      x ≤ (before ++ (segments ++ after)).getD (before.length + segments.length - 1) 0 := by
  obtain ⟨i, hi, rfl⟩ := getElem_of_mem hx
  have hsorted := pairwise_iff_getElem.mp hs
  constructor
  · have hfirst := getD_append_middle before after (show 0 < segments.length by omega)
    rw [Nat.add_zero] at hfirst
    rw [hfirst]
    rcases Nat.eq_zero_or_pos i with rfl | hpos
    · exact le_rfl
    · exact (hsorted 0 i _ hi hpos).le
  · rw [Nat.add_sub_assoc (by omega), getD_append_middle before after (by omega)]
    rcases Nat.lt_or_eq_of_le (Nat.le_sub_one_of_lt hi) with hlt | heq
    · exact (hsorted i _ hi (by omega) hlt).le
    · exact le_of_eq (by congr 1)

/-- What the loop of `bounds` finds: the least and the greatest column. -/
structure BoundsFound (shape : Shape) (bands : Bands) (minX maxX : ℤ) (found : ℤ × ℤ) : Prop where
  min_le : found.1 ≤ minX
  le_max : maxX ≤ found.2
  bounds : ∀ x ∈ flatten bands, found.1 ≤ x ∧ x ≤ found.2
  min_mem : found.1 = minX ∨ found.1 ∈ shape.segments
  max_mem : found.2 = maxX ∨ found.2 ∈ shape.segments

theorem boundsFrom_indexed (shape : Shape) (before : List ℤ) {d : List ℤ}
    (hseg : shape.segments = before ++ flatten bands) (h : Banded d bands) (minX maxX : ℤ) :
    shape.BoundsFound bands minX maxX
      (shape.boundsFrom (indexed before.length bands) minX maxX) := by
  induction bands generalizing before d minX maxX with
  | nil => exact ⟨le_rfl, le_rfl, fun x hx => absurd hx not_mem_nil, .inl rfl, .inl rfl⟩
  | cons band bands ih =>
    obtain ⟨y, segments⟩ := band
    cases bands with
    | nil =>
      obtain rfl : segments = [] := h.ends
      exact ⟨le_rfl, le_rfl, fun x hx => absurd hx not_mem_nil, .inl rfl, .inl rfl⟩
    | cons band bands =>
      obtain ⟨y', next⟩ := band
      have hne : flatten ((y, segments) :: (y', next) :: bands) ≠ [] := by
        intro hnil
        rw [flatten_cons, flatten_cons, append_eq_nil_iff, append_eq_nil_iff] at hnil
        exact h.tail.canonical.changes.1 (hnil.2.1.trans hnil.1.symm)
      have hlen : before.length < shape.segments.length := by
        rw [hseg, length_append]
        have := length_pos_iff.mpr hne
        omega
      have hseg' : shape.segments = (before ++ segments) ++ flatten ((y', next) :: bands) := by
        rw [hseg, flatten_cons, append_assoc]
      have hread : shape.segments = before ++ (segments ++ flatten ((y', next) :: bands)) := by
        rw [hseg, flatten_cons]
      have hlast : before.length + segments.length - 1 < shape.segments.length := by
        have hle := congrArg length hseg'
        simp only [length_append] at hle
        omega
      simp only [indexed, boundsFrom, segmentsBegin, segmentsEnd, if_neg hlen.ne, head?_cons,
        Option.map_some, Option.getD_some]
      have hih := fun minX maxX => ih _ hseg' h.tail minX maxX
      rw [length_append] at hih
      simp only [indexed] at hih
      set first := shape.segments.getD before.length 0 with hfirst
      set last := shape.segments.getD (before.length + segments.length - 1) 0 with hlastDef
      have hfirstMem : first ∈ shape.segments := getD_mem hlen
      have hlastMem : last ∈ shape.segments := getD_mem hlast
      obtain ⟨h1, h2, h3, h4, h5⟩ := hih (if first < minX then first else minX)
        (if last > maxX then last else maxX)
      refine ⟨h1.trans ?_, le_trans ?_ h2, ?_, ?_, ?_⟩
      · split <;> omega
      · split <;> omega
      · intro x hx
        rw [flatten_cons, mem_append] at hx
        rcases hx with hx | hx
        · have hrow : Intervals segments := h.rows (y, segments) mem_cons_self
          have hmem : x ∈ segments := hx
          obtain ⟨hlo, hhi⟩ :=
            bounds_of_sorted before segments (flatten ((y', next) :: bands)) hrow.ascending hmem
          rw [← hread] at hlo hhi
          constructor
          · refine h1.trans ?_
            split <;> omega
          · refine le_trans ?_ h2
            split <;> omega
        · exact h3 x hx
      · rcases h4 with heq | hmem
        · rw [heq]
          split
          · exact .inr hfirstMem
          · exact .inl rfl
        · exact .inr hmem
      · rcases h5 with heq | hmem
        · rw [heq]
          split
          · exact .inr hlastMem
          · exact .inl rfl
        · exact .inr hmem

end Shape

namespace Banded

variable {q : ℤ × ℤ}

theorem mem_points_of_pair (h : Banded [] bands) (hmem : (y, segments) ∈ bands)
    (hq : q ∈ pairs segments) : ⟨q.1, y⟩ ∈ pointsOf bands ∧ ⟨q.2 - 1, y⟩ ∈ pointsOf bands := by
  have hrow := h.rows _ hmem
  have hlt := hrow.lt_of_mem_pairs hq
  have hvalue := valueAt_of_mem (d := ([] : List ℤ)) h.canonical.ascending hmem
  rw [mem_pointsOf, mem_pointsOf, hvalue, hrow.inside_iff, hrow.inside_iff]
  exact ⟨⟨q, hq, le_rfl, hlt⟩, ⟨q, hq, by dsimp only; omega, by dsimp only; omega⟩⟩

theorem exists_pair (h : Banded [] bands) (hp : p ∈ pointsOf bands) :
    ∃ y segments, (y, segments) ∈ bands ∧ ∃ q ∈ pairs segments, q.1 ≤ p.x ∧ p.x < q.2 := by
  rw [mem_pointsOf] at hp
  rcases mem_or_eq_valueAt [] bands p.y with heq | ⟨y, hmem⟩
  · rw [heq] at hp
    cases hp
  · exact ⟨y, _, hmem, (h.rows _ hmem).inside_iff.mp hp⟩

theorem mem_flatten (hmem : (y, segments) ∈ bands) (hx : x ∈ segments) : x ∈ flatten bands :=
  mem_flatMap.mpr ⟨_, hmem, hx⟩

theorem exists_points (h : Banded [] bands) (hx : x ∈ flatten bands) :
    ∃ y segments, (y, segments) ∈ bands ∧ ∃ q ∈ pairs segments, x = q.1 ∨ x = q.2 := by
  obtain ⟨⟨y, segments⟩, hmem, hx⟩ := mem_flatMap.mp hx
  exact ⟨y, segments, hmem, exists_mem_pairs (h.rows _ hmem).closed hx⟩

theorem exists_first (h : Banded [] ((y, segments) :: bands)) :
    ∃ x, ⟨x, y⟩ ∈ pointsOf ((y, segments) :: bands) := by
  obtain ⟨x, -, -, hx⟩ := (h.rows _ mem_cons_self).exists_inside h.canonical.changes.1
  refine ⟨x, ?_⟩
  rw [mem_pointsOf, valueAt_key h.canonical.ascending]
  exact hx

theorem exists_last (h : Banded [] (bands ++ [(y, segments)])) :
    ∃ x, ⟨x, y - 1⟩ ∈ pointsOf (bands ++ [(y, segments)]) := by
  have hkeys := h.canonical.ascending
  rw [Ascending, Scanline.keys, map_append, pairwise_append] at hkeys
  have hvalue : valueAt [] (bands ++ [(y, segments)]) (y - 1) = finalValue [] bands := by
    rw [valueAt_append_of_lt (by omega)]
    refine valueAt_of_forall_le fun k hk => ?_
    have := hkeys.2.2 k hk y mem_cons_self
    omega
  have hends := h.ends
  have hne : finalValue [] bands ≠ [] := by
    have hchanges : ∀ (d : List ℤ) (bands : Bands), Changes d (bands ++ [(y, segments)]) →
        segments ≠ finalValue d bands := by
      intro d bands
      induction bands generalizing d with
      | nil => exact fun hc => hc.1
      | cons band bands ih => exact fun hc => ih _ hc.2
    rw [Shape.finalValue_append] at hends
    intro hnil
    exact hchanges [] bands h.canonical.changes (Eq.trans hends hnil.symm)
  have hrow := h.row (y - 1)
  rw [hvalue] at hrow
  obtain ⟨x, -, -, hx⟩ := hrow.exists_inside hne
  refine ⟨x, ?_⟩
  rw [mem_pointsOf, hvalue]
  exact hx

theorem row_bounds (h : Banded [] bands) {first last : ℤ} (hfirst : ∀ k ∈ keys bands, first ≤ k)
    (hlast : ∀ k ∈ keys bands, k ≤ last) (hp : p ∈ pointsOf bands) : first ≤ p.y ∧ p.y < last := by
  rw [mem_pointsOf] at hp
  constructor
  · by_contra hlt
    rw [valueAt_of_forall_lt fun k hk => (not_le.mp hlt).trans_le (hfirst k hk)] at hp
    cases hp
  · by_contra hge
    rw [valueAt_of_forall_le fun k hk => (hlast k hk).trans (not_lt.mp hge), h.ends] at hp
    cases hp

theorem encloses_bounds (h : Banded [] bands)
    (hint : ∀ x ∈ flatten bands, -2 ^ 31 < x ∧ x < 2 ^ 31 - 1) :
    Encloses (ofBands bands).bounds (pointsOf bands) := by
  cases hbands : bands with
  | nil =>
    have hnone : pointsOf [] = ∅ := Set.eq_empty_of_forall_notMem fun p hp => by cases hp
    rw [hnone]
    exact ⟨fun _ => ⟨rfl, rfl⟩, fun hne => absurd hne Set.not_nonempty_empty,
      fun p hp => absurd hp (Set.notMem_empty p), fun hne => absurd hne Set.not_nonempty_empty⟩
  | cons band rest =>
    obtain ⟨minY, firstSegments⟩ := band
    obtain ⟨init, ⟨maxY, lastSegments⟩, hconcat⟩ : ∃ init last, bands = init ++ [last] := by
      rcases eq_nil_or_concat bands with hnil | ⟨init, last, hl⟩
      · rw [hnil] at hbands
        cases hbands
      · exact ⟨init, last, by rw [hl, concat_eq_append]⟩
    rw [← hbands]
    have hfound := boundsFrom_indexed (.ofBands bands) [] rfl h (2 ^ 31 - 1) (-2 ^ 31)
    set found := (ofBands bands).boundsFrom (indexed 0 bands) (2 ^ 31 - 1) (-2 ^ 31) with hfoundDef
    have hbnd : (ofBands bands).bounds = ⟨found.1, minY, found.2 - found.1, maxY - minY⟩ := by
      have hhead : (ofBands bands).spans.head? = some ⟨minY, 0⟩ := by
        rw [hbands]
        rfl
      have hlast : ∃ n, (ofBands bands).spans.getLast? = some ⟨maxY, n⟩ := by
        rw [hconcat, ofBands, indexed_append]
        exact ⟨_, getLast?_concat⟩
      obtain ⟨n, hlast⟩ := hlast
      rw [bounds, hhead, hlast]
      rfl
    obtain ⟨x0, hx0⟩ : ∃ x, ⟨x, minY⟩ ∈ pointsOf bands := by
      rw [hbands] at h ⊢
      exact h.exists_first
    obtain ⟨x1, hx1⟩ : ∃ x, ⟨x, maxY - 1⟩ ∈ pointsOf bands := by
      rw [hconcat] at h ⊢
      exact h.exists_last
    -- the rows of the points
    have hrows : ∀ p ∈ pointsOf bands, minY ≤ p.y ∧ p.y < maxY := by
      have hkeys := h.canonical.ascending
      refine fun p hp => h.row_bounds (fun k hk => ?_) (fun k hk => ?_) hp
      · rw [hbands] at hk hkeys
        rcases mem_cons.mp hk with rfl | hk
        · exact le_rfl
        · exact ((ascending_cons.mp hkeys).1 k hk).le
      · rw [hconcat, Scanline.keys, map_append, mem_append] at hk
        rw [hconcat, Ascending, Scanline.keys, map_append, pairwise_append] at hkeys
        rcases hk with hk | hk
        · exact (hkeys.2.2 k hk maxY mem_cons_self).le
        · rw [map_singleton, mem_singleton] at hk
          exact hk.le
    -- their columns
    have hcolumns : ∀ p ∈ pointsOf bands, found.1 ≤ p.x ∧ p.x < found.2 := by
      intro p hp
      obtain ⟨y, segments, hmem, q, hq, hle, hlt⟩ := h.exists_pair hp
      obtain ⟨hq1, hq2⟩ := mem_of_mem_pairs hq
      exact ⟨(hfound.bounds _ (mem_flatten hmem hq1)).1.trans hle,
        hlt.trans_le (hfound.bounds _ (mem_flatten hmem hq2)).2⟩
    have hmin : found.1 ∈ flatten bands := by
      rcases hfound.min_mem with heq | hmem
      · obtain ⟨y, segments, hmem, q, hq, -⟩ := h.exists_pair hx0
        have hq1 := mem_flatten hmem (mem_of_mem_pairs hq).1
        have hle := (hfound.bounds _ hq1).1
        have hlt := (hint _ hq1).2
        omega
      · exact hmem
    have hmax : found.2 ∈ flatten bands := by
      rcases hfound.max_mem with heq | hmem
      · obtain ⟨y, segments, hmem, q, hq, -⟩ := h.exists_pair hx0
        have hq1 := mem_flatten hmem (mem_of_mem_pairs hq).1
        have hle := (hfound.bounds _ hq1).2
        have hlt := (hint _ hq1).1
        omega
      · exact hmem
    obtain ⟨p2, hp2, hx2⟩ : ∃ p ∈ pointsOf bands, p.x = found.1 := by
      obtain ⟨y, segments, hmem, q, hq, heq⟩ := h.exists_points hmin
      have hpoints := h.mem_points_of_pair hmem hq
      rcases heq with heq | heq
      · exact ⟨_, hpoints.1, heq.symm⟩
      · have hle := (hcolumns _ hpoints.2).1
        dsimp only at hle
        omega
    obtain ⟨p3, hp3, hx3⟩ : ∃ p ∈ pointsOf bands, p.x = found.2 - 1 := by
      obtain ⟨y, segments, hmem, q, hq, heq⟩ := h.exists_points hmax
      have hpoints := h.mem_points_of_pair hmem hq
      rcases heq with heq | heq
      · have hlt := (hcolumns _ hpoints.1).2
        dsimp only at hlt
        omega
      · exact ⟨_, hpoints.2, by rw [heq]⟩
    have hwidth := hcolumns _ hx0
    have hheight := hrows _ hx0
    rw [hbnd]
    refine ⟨fun hnone => ?_, fun _ => ?_, fun p hp => ?_, fun _ other hother => ?_⟩
    · rw [hnone] at hx0
      exact absurd hx0 (Set.notMem_empty _)
    · dsimp only
      omega
    · have := hcolumns p hp
      have := hrows p hp
      rw [IntRect.containsPoint_iff, IntRect.maxX, IntRect.maxY]
      dsimp only
      omega
    · have h0 := containsPoint_iff.mp (hother _ hx0)
      have h1 := containsPoint_iff.mp (hother _ hx1)
      have h2 := containsPoint_iff.mp (hother _ hp2)
      have h3 := IntRect.containsPoint_iff.mp (hother _ hp3)
      rw [IntRect.contains_iff, IntRect.maxX, IntRect.maxY]
      dsimp only at h0 h1 h2 h3 ⊢
      omega

end Banded

/-!
## Regions as sets of points

What it means that a region is a set of points: the shape covers it and is canonical, the
bounds are the smallest rectangle around it, and the rectangles divide it (`Region.Exact`). It is
enough that the shape is made of valid bands with these points (`Region.Represents.exact`).
-/

open Scanline

/-- The difference of two such coordinates does not overflow an `int`. -/
def Coordinate (c : ℤ) : Prop := -2 ^ 30 ≤ c ∧ c < 2 ^ 30

namespace Shape

structure Small (shape : Shape) : Prop where
  segments : ∀ x ∈ shape.segments, Coordinate x
  spans : ∀ span ∈ shape.spans, Coordinate span.y

/-- A point lies between the rows of two spans and between two segments of the first. -/
def Covers (shape : Shape) (p : IntPoint) : Prop :=
  ∃ before y segments maxY next after,
    shape.bands = before ++ (y, segments) :: (maxY, next) :: after ∧ y ≤ p.y ∧ p.y < maxY ∧
      ∃ q ∈ pairs segments, q.1 ≤ p.x ∧ p.x < q.2

structure Canonical (shape : Shape) : Prop where
  indexed : shape.spans = indexed 0 shape.bands ∧ shape.segments = flatten shape.bands
  rows_ascend : (shape.spans.map Span.y).Pairwise (· < ·)
  segments_even : ∀ band ∈ shape.bands, band.2.length % 2 = 0
  segments_ascend : ∀ band ∈ shape.bands, band.2.Pairwise (· < ·)
  spans_differ : shape.bands.IsChain fun band band' => band.2 ≠ band'.2
  first_nonempty : ∀ band, shape.bands.head? = some band → band.2 ≠ []
  last_empty : ∀ band, shape.bands.getLast? = some band → band.2 = []

end Shape

/-- The region is the set of points. -/
structure Region.Exact (region : Region) (points : Set IntPoint) : Prop where
  covers : ∀ p, region.shape.Covers p ↔ p ∈ points
  bounds : Encloses region.bounds points
  isEmpty : region.isEmpty = true ↔ points = ∅
  canonical : region.shape.Canonical
  spans_nil : region.shape.spans = [] ↔ points = ∅
  rects : ∀ p, (∃ r ∈ region.rects, r.containsPoint p = true) ↔ p ∈ points
  rects_nonempty : ∀ r ∈ region.rects, 0 < r.width ∧ 0 < r.height
  rects_disjoint : region.rects.Pairwise fun r r' =>
    ∀ p, r.containsPoint p = true → r'.containsPoint p = false

variable {bands bands' : Bands} {segments : List ℤ} {y : ℤ} {p : IntPoint}
  {region other : Region} {points : Set IntPoint}

theorem spans_ofBands_y (offset : ℕ) : (indexed offset bands).map Span.y = keys bands := by
  induction bands generalizing offset with
  | nil => rfl
  | cons band bands ih =>
    rw [indexed, map_cons, ih, Scanline.keys_cons]

theorem small_ofBands : (ofBands bands).Small ↔
    (∀ x ∈ flatten bands, Coordinate x) ∧ ∀ k ∈ keys bands, Coordinate k := by
  rw [← spans_ofBands_y 0]
  constructor
  · intro h
    refine ⟨h.segments, fun k hk => ?_⟩
    obtain ⟨span, hspan, rfl⟩ := mem_map.mp hk
    exact h.spans span hspan
  · rintro ⟨hsegs, hspans⟩
    exact ⟨hsegs, fun span hspan => hspans _ (mem_map_of_mem hspan)⟩

/-- The region has a shape of these bands, and the right bounds. -/
structure Region.Represents (region : Region) (bands : Bands) : Prop where
  shape_eq : region.shape = .ofBands bands
  banded : Banded [] bands
  small : (ofBands bands).Small
  bounds : Encloses region.bounds (pointsOf bands)

theorem Encloses.isEmpty_iff (h : Encloses r points) : r.isEmpty = true ↔ points = ∅ := by
  rw [IntRect.isEmpty, Bool.or_eq_true, decide_eq_true_eq, decide_eq_true_eq]
  constructor
  · intro hsize
    by_contra hne
    have := h.nonempty (Set.nonempty_iff_ne_empty.mpr hne)
    omega
  · intro hempty
    have := h.empty hempty
    omega

theorem Small.int (h : (ofBands bands).Small) :
    ∀ x ∈ flatten bands, -2 ^ 31 < x ∧ x < 2 ^ 31 - 1 := by
  intro x hx
  have := h.segments x hx
  unfold Coordinate at this
  omega

theorem isChain_of_changes {d : List ℤ} (h : Changes d bands) :
    bands.IsChain fun band band' => band.2 ≠ band'.2 := by
  induction bands generalizing d with
  | nil => exact .nil
  | cons band bands ih =>
    cases bands with
    | nil => exact .singleton _
    | cons band' bands => exact .cons_cons h.2.1.symm (ih h.2)

theorem Banded.canonical_shape (h : Banded [] bands) : (ofBands bands).Canonical where
  indexed := by
    rw [bands_ofBands]
    exact ⟨rfl, rfl⟩
  rows_ascend := by
    rw [ofBands, spans_ofBands_y]
    exact h.canonical.ascending
  segments_even := by
    rw [bands_ofBands]
    exact fun band hband => closed_iff_even.mp (h.rows band hband).closed
  segments_ascend := by
    rw [bands_ofBands]
    exact fun band hband => (h.rows band hband).ascending
  spans_differ := by
    rw [bands_ofBands]
    exact isChain_of_changes h.canonical.changes
  first_nonempty := by
    rw [bands_ofBands]
    intro band hband
    cases bands with
    | nil => cases hband
    | cons band' bands =>
      cases hband
      exact h.canonical.changes.1
  last_empty := by
    rw [bands_ofBands]
    intro band hband
    obtain ⟨before, rfl⟩ := getLast?_eq_some_iff.mp hband
    have hends := h.ends
    rw [finalValue_append] at hends
    exact hends

theorem covers_iff_rects :
    (ofBands bands).Covers p ↔ ∃ r ∈ rectsFrom bands, r.containsPoint p = true := by
  rw [Shape.Covers, bands_ofBands]
  have hcancel : ∀ i j : ℤ, i + (j - i) = j := fun i j => by omega
  induction bands with
  | nil => simp [rectsFrom]
  | cons band bands ih =>
    obtain ⟨y, segments⟩ := band
    cases bands with
    | nil =>
      constructor
      · rintro ⟨before, y, segments, maxY, next, after, heq, -⟩
        have hlen := congrArg length heq
        simp only [length_append, length_cons, length_nil] at hlen
        omega
      · rintro ⟨r, hr, -⟩
        cases hr
    | cons band bands =>
      obtain ⟨maxY, next⟩ := band
      have hsplit : (∃ r ∈ rectsFrom ((y, segments) :: (maxY, next) :: bands),
          r.containsPoint p = true) ↔
          (∃ q ∈ pairs segments, (q.1 ≤ p.x ∧ p.x < q.2) ∧ y ≤ p.y ∧ p.y < maxY) ∨
            ∃ r ∈ Shape.rectsFrom ((maxY, next) :: bands), r.containsPoint p = true := by
        rw [rectsFrom, spanRects_eq]
        simp only [mem_append, or_and_right, exists_or, mem_map,
          exists_exists_and_eq_and, IntRect.containsPoint_iff, IntRect.maxX, IntRect.maxY, hcancel,
          and_assoc]
      rw [hsplit]
      refine Iff.trans ?_ (or_congr_right ih)
      constructor
      · rintro ⟨before, y', segments', maxY', next', after, heq, hy, hmax, q, hq, hx⟩
        cases before with
        | nil =>
          cases heq
          exact .inl ⟨q, hq, hx, hy, hmax⟩
        | cons band before =>
          rw [cons_append, cons.injEq] at heq
          exact .inr ⟨before, y', segments', maxY', next', after, heq.2, hy, hmax, q, hq, hx⟩
      · rintro (⟨q, hq, hx, hy, hmax⟩ | ⟨before, y', segments', maxY', next', after, heq, h⟩)
        · exact ⟨[], y, segments, maxY, next, bands, rfl, hy, hmax, q, hq, hx⟩
        · exact ⟨(y, segments) :: before, y', segments', maxY', next', after,
            by rw [heq, cons_append], h⟩

/-- A region that represents bands is exactly their points. -/
theorem Region.Represents.exact (h : region.Represents bands) : region.Exact (pointsOf bands) where
  covers p := by rw [h.shape_eq, covers_iff_rects, mem_rectsFrom h.banded]
  bounds := h.bounds
  isEmpty := h.bounds.isEmpty_iff
  canonical := h.shape_eq ▸ h.banded.canonical_shape
  spans_nil := by
    rw [h.shape_eq, ofBands, indexed_eq_nil]
    constructor
    · rintro rfl
      exact Set.eq_empty_of_forall_notMem fun p hp => by cases hp
    · intro hempty
      cases hb : bands with
      | nil => rfl
      | cons band rest =>
        have hbanded := h.banded
        rw [hb] at hbanded
        obtain ⟨x, hx⟩ := hbanded.exists_first
        rw [← hb, hempty] at hx
        exact absurd hx (Set.notMem_empty _)
  rects p := by rw [Region.rects, h.shape_eq, bands_ofBands, mem_rectsFrom h.banded]
  rects_nonempty r hr := by
    rw [Region.rects, h.shape_eq, bands_ofBands] at hr
    exact nonempty_of_mem_rectsFrom h.banded hr
  rects_disjoint := by
    rw [Region.rects, h.shape_eq, bands_ofBands]
    exact pairwise_rectsFrom h.banded

theorem Region.Represents.shape_eq_iff (h : region.Represents bands)
    (h' : other.Represents bands') : pointsOf bands = pointsOf bands' ↔ region.shape = other.shape := by
  constructor
  · intro hpoints
    have hbands : bands = bands' := by
      refine h.banded.ext h'.banded fun x y => ?_
      have hp : (⟨x, y⟩ : IntPoint) ∈ pointsOf bands ↔ (⟨x, y⟩ : IntPoint) ∈ pointsOf bands' := by
        rw [hpoints]
      exact Bool.eq_iff_iff.mpr hp
    rw [h.shape_eq, h'.shape_eq, hbands]
  · intro hshape
    rw [h.shape_eq, h'.shape_eq] at hshape
    have hbands := congrArg Shape.bands hshape
    rw [bands_ofBands, bands_ofBands] at hbands
    rw [hbands]

end WebKit.Graphics
