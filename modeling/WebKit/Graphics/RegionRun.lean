import WebKit.Graphics.RegionPoints
import WebKit.Graphics.ShapeCompare
import Mathlib.Order.BooleanAlgebra.Set

/-!
# Runs of region operations

Every region that is made of rectangles by union, intersection, difference and translation
covers the points it should (`built_exact`). Each operation is a merge of the shapes up to
shortcuts that look at the bounds, and these are right because the bounds enclose the points.
-/

namespace WebKit.Graphics

open Scanline List IntRect ShapeOperation Shape Bool Region

/-- The regions made of rectangles, with the sets of points they should be. -/
inductive Built : Region → Set IntPoint → Prop
  | empty : Built .empty ∅
  | rect (r : IntRect) : 0 < r.width → 0 < r.height → (Shape.ofRect r).Small →
      Built (.ofRect r) {p | r.containsPoint p = true}
  | unite {region other : Region} {points points' : Set IntPoint} :
      Built region points → Built other points' → Built (region.unite other) (points ∪ points')
  | intersect {region other : Region} {points points' : Set IntPoint} :
      Built region points → Built other points' → Built (region.intersect other) (points ∩ points')
  | subtract {region other : Region} {points points' : Set IntPoint} :
      Built region points → Built other points' → Built (region.subtract other) (points \ points')
  | translate {region : Region} {points : Set IntPoint} (offset : IntSize) :
      Built region points → (region.shape.translate offset).Small →
      Built (region.translate offset)
        {p | ⟨p.x - offset.width, p.y - offset.height⟩ ∈ points}

variable {bands bands' : Bands} {segments : List ℤ} {y : ℤ} {p : IntPoint} {r r' : IntRect}
  {region other : Region} {points points' : Set IntPoint} {operation : ShapeOperation}

namespace Encloses

theorem nonempty_of_not_isEmpty (h : Encloses r points) (hempty : r.isEmpty ≠ true) :
    points.Nonempty := by
  apply Set.nonempty_iff_ne_empty.mpr
  intro hnone
  exact hempty (h.isEmpty_iff.mpr hnone)

section

variable (h : Encloses r points) (h' : Encloses r' points')
include h h'

theorem disjoint (hinter : r.intersects r' ≠ true) : points ∩ points' = ∅ := by
  apply Set.eq_empty_of_forall_notMem
  rintro p ⟨hp, hp'⟩
  have hin := IntRect.containsPoint_iff.mp (h.contains p hp)
  have hin' := IntRect.containsPoint_iff.mp (h'.contains p hp')
  have hsize := h.nonempty ⟨p, hp⟩
  have hsize' := h'.nonempty ⟨p, hp'⟩
  apply hinter
  simp only [IntRect.intersects, IntRect.isEmpty, Bool.and_eq_true, Bool.not_eq_true',
    Bool.or_eq_false_iff, decide_eq_true_eq, decide_eq_false_iff_not]
  omega

theorem contains_of_subset
    (hne : points'.Nonempty) (hsub : points' ⊆ points) : r.contains r' = true :=
  h'.smallest hne r fun p hp => h.contains p (hsub hp)

/-- The smallest rectangle around two rectangles is around both sets. -/
theorem unite :
    Encloses (r.unite r') (points ∪ points') := by
  rw [IntRect.unite]
  by_cases hempty' : r'.isEmpty = true
  · rw [if_pos hempty', h'.isEmpty_iff.mp hempty', Set.union_empty]
    exact h
  rw [if_neg hempty']
  by_cases hempty : r.isEmpty = true
  · rw [if_pos hempty, h.isEmpty_iff.mp hempty, Set.empty_union]
    exact h'
  rw [if_neg hempty]
  have hne := h.nonempty_of_not_isEmpty hempty
  have hne' := h'.nonempty_of_not_isEmpty hempty'
  have hsize := h.nonempty hne
  constructor
  · intro hnone
    rw [Set.union_empty_iff] at hnone
    exact absurd hnone.1 hne.ne_empty
  · intro _
    dsimp only [maxX, maxY]
    omega
  · intro p hp
    rw [containsPoint_iff, maxX, maxY]
    dsimp only [maxX, maxY]
    rcases hp with hp | hp
    · have hin := containsPoint_iff.mp (h.contains p hp)
      rw [maxX, maxY] at hin
      omega
    · have hin := containsPoint_iff.mp (h'.contains p hp)
      rw [maxX, maxY] at hin
      omega
  · intro _ outer houter
    have hin := contains_iff.mp (h.smallest hne outer fun p hp => houter p (.inl hp))
    have hin' := contains_iff.mp (h'.smallest hne' outer fun p hp => houter p (.inr hp))
    rw [contains_iff, maxX, maxY]
    dsimp only [maxX, maxY] at hin hin' ⊢
    omega

end

theorem move (offset : IntSize) (h : Encloses r points) :
    Encloses (r.move offset) {p | ⟨p.x - offset.width, p.y - offset.height⟩ ∈ points} := by
  have hne : {p : IntPoint | ⟨p.x - offset.width, p.y - offset.height⟩ ∈ points}.Nonempty →
      points.Nonempty := fun ⟨p, hp⟩ => ⟨_, hp⟩
  constructor
  · intro hnone
    apply h.empty
    apply Set.eq_empty_of_forall_notMem
    intro p hp
    have hmoved : (⟨p.x + offset.width, p.y + offset.height⟩ : IntPoint) ∈
        {p : IntPoint | ⟨p.x - offset.width, p.y - offset.height⟩ ∈ points} := by
      have heq : (⟨p.x + offset.width - offset.width, p.y + offset.height - offset.height⟩ :
          IntPoint) = p := by
        rw [Int.add_sub_cancel, Int.add_sub_cancel]
      change (⟨p.x + offset.width - offset.width, p.y + offset.height - offset.height⟩ :
          IntPoint) ∈ points
      rw [heq]
      exact hp
    rw [hnone] at hmoved
    exact hmoved
  · exact fun hmoved => h.nonempty (hne hmoved)
  · intro p hp
    have hin := containsPoint_iff.mp (h.contains _ hp)
    rw [containsPoint_iff]
    dsimp only [IntRect.maxX, IntRect.maxY, IntRect.move] at hin ⊢
    omega
  · intro hmoved outer houter
    have hin := h.smallest (hne hmoved) (outer.move ⟨-offset.width, -offset.height⟩) fun p hp => ?_
    · rw [IntRect.contains_iff] at hin ⊢
      dsimp only [IntRect.maxX, IntRect.maxY, IntRect.move] at hin ⊢
      omega
    · have hmoved := houter ⟨p.x + offset.width, p.y + offset.height⟩ (by
        change (⟨p.x + offset.width - offset.width, p.y + offset.height - offset.height⟩ :
          IntPoint) ∈ points
        rw [Int.add_sub_cancel, Int.add_sub_cancel]
        exact hp)
      rw [containsPoint_iff] at hmoved ⊢
      dsimp only [IntRect.maxX, IntRect.maxY, IntRect.move] at hmoved ⊢
      omega

end Encloses

namespace Region.Represents

theorem isEmpty_iff (h : region.Represents bands) :
    region.isEmpty = true ↔ pointsOf bands = ∅ := h.bounds.isEmpty_iff

/-! ## Rectangles -/

theorem empty : empty.Represents [] where
  shape_eq := rfl
  banded := .nil
  small := ⟨fun _ h => absurd h not_mem_nil, fun _ h => absurd h not_mem_nil⟩
  bounds := Banded.nil.encloses_bounds fun _ h => absurd h not_mem_nil

theorem ofRect_eq (r : IntRect) :
    Shape.ofRect r = .ofBands [(r.y, [r.x, r.maxX]), (r.maxY, [])] := rfl

section

variable (hwidth : 0 < r.width) (hheight : 0 < r.height)
include hwidth hheight

theorem banded_rect :
    Banded [] [(r.y, [r.x, r.maxX]), (r.maxY, [])] := by
  have hx : r.x < r.maxX := by
    rw [maxX]
    omega
  have hy : r.y < r.maxY := by
    rw [maxY]
    omega
  constructor
  · constructor
    · rw [Ascending, Scanline.keys_cons, Scanline.keys_cons, Scanline.keys_nil, pairwise_pair]
      exact hy
    · exact ⟨cons_ne_nil _ _, (cons_ne_nil _ _).symm, trivial⟩
  · rfl
  · intro band hband
    rcases mem_cons.mp hband with rfl | hband
    · exact ⟨pairwise_pair.mpr hx, rfl⟩
    · obtain rfl := mem_singleton.mp hband
      exact intervals_nil
  · exact intervals_nil

theorem pointsOf_rect :
    pointsOf [(r.y, [r.x, r.maxX]), (r.maxY, [])] = {p | r.containsPoint p = true} := by
  ext p
  rw [← mem_rectsFrom (banded_rect hwidth hheight)]
  have hrects : rectsFrom [(r.y, [r.x, r.maxX]), (r.maxY, [])] = [r] := by
    have hcancel : ∀ i j : ℤ, i + j - i = j := fun i j => by omega
    simp only [rectsFrom, spanRects, maxX, maxY, hcancel, append_nil]
  rw [hrects]
  simp

theorem ofRect (hsmall : (Shape.ofRect r).Small) :
    (Region.ofRect r).Represents [(r.y, [r.x, r.maxX]), (r.maxY, [])] where
  shape_eq := rfl
  banded := banded_rect hwidth hheight
  small := hsmall
  bounds := by
    rw [pointsOf_rect hwidth hheight]
    have hmem : ∀ x y, r.x ≤ x → x < r.maxX → r.y ≤ y → y < r.maxY →
        (⟨x, y⟩ : IntPoint) ∈ {p : IntPoint | r.containsPoint p = true} :=
      fun x y h1 h2 h3 h4 => IntRect.containsPoint_iff.mpr ⟨h1, h2, h3, h4⟩
    have hmaxX : r.maxX = r.x + r.width := rfl
    have hmaxY : r.maxY = r.y + r.height := rfl
    constructor
    · intro hnone
      have hin := hmem r.x r.y le_rfl (by omega) le_rfl (by omega)
      rw [hnone] at hin
      exact absurd hin (Set.notMem_empty _)
    · exact fun _ => ⟨hwidth, hheight⟩
    · exact fun p hp => hp
    · intro _ outer houter
      have hfirst := IntRect.containsPoint_iff.mp
        (houter _ (hmem r.x r.y le_rfl (by omega) le_rfl (by omega)))
      have hlast := IntRect.containsPoint_iff.mp
        (houter _ (hmem (r.maxX - 1) (r.maxY - 1) (by omega) (by omega) (by omega) (by omega)))
      apply IntRect.contains_iff.mpr
      change outer.x ≤ r.x ∧ r.maxX ≤ outer.maxX ∧ outer.y ≤ r.y ∧ r.maxY ≤ outer.maxY
      dsimp only at hfirst hlast
      omega

end

theorem mem_of_isRect (h : region.Represents bands) (hrect : region.isRect = true)
    (hne : (pointsOf bands).Nonempty) (hp : region.bounds.containsPoint p = true) :
    p ∈ pointsOf bands := by
  have hcounts : (indexed 0 bands).length ≤ 2 ∧ (flatten bands).length ≤ 2 := by
    rw [Region.isRect, h.shape_eq, Shape.isRect, Bool.and_eq_true, decide_eq_true_eq,
      decide_eq_true_eq] at hrect
    exact hrect
  have hbanded := h.banded
  obtain ⟨x, maxX, y, maxY, hbands⟩ : ∃ x maxX y maxY, bands = [(y, [x, maxX]), (maxY, [])] := by
    rcases bands with _ | ⟨⟨y, segments⟩, _ | ⟨⟨maxY, next⟩, _ | ⟨band, rest⟩⟩⟩
    · obtain ⟨q, hq⟩ := hne
      cases hq
    · exact absurd hbanded.ends hbanded.canonical.changes.1
    · obtain rfl : next = [] := hbanded.ends
      have heven := closed_iff_even.mp (hbanded.rows _ mem_cons_self).closed
      have hsegs : segments ≠ [] := hbanded.canonical.changes.1
      have hlen := hcounts.2
      rcases segments with _ | ⟨x, _ | ⟨maxX, _ | ⟨z, rest⟩⟩⟩
      · exact absurd rfl hsegs
      · simp at heven
      · exact ⟨x, maxX, y, maxY, rfl⟩
      · simp [flatten] at hlen
    · have hlen := hcounts.1
      simp [indexed] at hlen
  subst hbands
  have hrects := mem_rectsFrom (p := p) hbanded
  have houter : ∀ q ∈ pointsOf [(y, [x, maxX]), (maxY, [])],
      containsPoint ⟨x, y, maxX - x, maxY - y⟩ q = true := by
    intro q hq
    obtain ⟨r, hr, hin⟩ := (mem_rectsFrom hbanded).mpr hq
    obtain rfl : r = ⟨x, y, maxX - x, maxY - y⟩ := by
      simpa [rectsFrom, spanRects] using hr
    exact hin
  have hle := contains_iff.mp (h.bounds.smallest hne _ houter)
  have hin := containsPoint_iff.mp hp
  refine hrects.mp ⟨⟨x, y, maxX - x, maxY - y⟩, ?_, ?_⟩
  · simp [rectsFrom, spanRects]
  · rw [containsPoint_iff]
    omega

section

variable (hop : operation.Lawful) (h : region.Represents bands) (h' : other.Represents bands')
include hop h h'

theorem small_merge : (ofBands (merge operation.combine [] [] bands bands')).Small := by
  obtain ⟨hsegs, hkeys⟩ := small_ofBands.mp h.small
  obtain ⟨hsegs', hkeys'⟩ := small_ofBands.mp h'.small
  have hcomb : ∀ s s', (Intervals s ∧ ∀ x ∈ s, Coordinate x) →
      (Intervals s' ∧ ∀ x ∈ s', Coordinate x) → ∀ x ∈ operation.combine s s', Coordinate x := by
    intro s s' hs hs' x hx
    exact (mem_combine hop hs.1 hs'.1 hx).elim (hs.2 x) (hs'.2 x)
  have hnone : Intervals ([] : List ℤ) ∧ ∀ x ∈ ([] : List ℤ), Coordinate x :=
    ⟨intervals_nil, fun _ hx => absurd hx not_mem_nil⟩
  have hcolumns : ∀ band ∈ merge operation.combine [] [] bands bands',
      ∀ x ∈ band.2, Coordinate x := by
    refine forall_mem_merge (Q := fun s => ∀ x ∈ s, Coordinate x) hcomb hnone hnone
      (fun band hband => ⟨h.banded.rows band hband, fun x hx => ?_⟩)
      (fun band hband => ⟨h'.banded.rows band hband, fun x hx => ?_⟩)
    · exact hsegs x (Banded.mem_flatten hband hx)
    · exact hsegs' x (Banded.mem_flatten hband hx)
  refine small_ofBands.mpr ⟨fun x hx => ?_, fun k hk => ?_⟩
  · obtain ⟨band, hband, hx⟩ := mem_flatMap.mp hx
    exact hcolumns band hband x hx
  · exact (mem_keys_merge hk).elim (hkeys k) (hkeys' k)

theorem mem_pointsOf_merge : p ∈ pointsOf (merge operation.combine [] [] bands bands') ↔
      operation.selects (inside false (valueAt [] bands p.y) p.x)
        (inside false (valueAt [] bands' p.y) p.x) = true := by
  rw [mem_pointsOf, h.banded.inside_merge hop h'.banded]

theorem shapeOperation_eq : operation.shapeOperation region.shape other.shape =
      .ofBands (merge operation.combine [] [] bands bands') := by
  rw [h.shape_eq, h'.shape_eq]
  exact shapeOperation_ofBands hop h.banded h'.banded

/-- A region with the merged shape and the bounds of that shape. -/
theorem merge_bounds : (⟨(operation.shapeOperation region.shape other.shape).bounds,
      operation.shapeOperation region.shape other.shape⟩ : Region).Represents
        (merge operation.combine [] [] bands bands') where
  shape_eq := h.shapeOperation_eq hop h'
  banded := h.banded.merge hop h'.banded
  small := h.small_merge hop h'
  bounds := by
    rw [h.shapeOperation_eq hop h']
    exact (h.banded.merge hop h'.banded).encloses_bounds (Small.int (h.small_merge hop h'))

end

section

variable (h : region.Represents bands) (h' : other.Represents bands')
include h h'

theorem intersect : ∃ result, (region.intersect other).Represents result ∧
      pointsOf result = pointsOf bands ∩ pointsOf bands' := by
  rw [Region.intersect]
  by_cases hempty : region.bounds.isEmpty = true
  · refine ⟨bands, ?_, ?_⟩
    · rw [if_pos hempty]
      exact h
    · rw [h.isEmpty_iff.mp hempty, Set.empty_inter]
  rw [if_neg hempty]
  by_cases hinter : region.bounds.intersects other.bounds = true
  · refine ⟨merge intersection.combine [] [] bands bands', ?_, ?_⟩
    · rw [hinter, Bool.not_true, if_neg Bool.false_ne_true]
      exact h.merge_bounds lawful_intersection h'
    · ext p
      rw [h.mem_pointsOf_merge lawful_intersection h', selects_intersection, and_eq_true]
      rfl
  · refine ⟨[], ?_, ?_⟩
    · rw [Bool.eq_false_iff.mpr hinter, Bool.not_false, if_pos rfl]
      exact empty
    · rw [h.bounds.disjoint h'.bounds hinter]
      exact Set.eq_empty_of_forall_notMem fun p hp => by cases hp

theorem subtract : ∃ result, (region.subtract other).Represents result ∧
      pointsOf result = pointsOf bands \ pointsOf bands' := by
  rw [Region.subtract]
  by_cases hempty : region.bounds.isEmpty = true
  · refine ⟨bands, ?_, ?_⟩
    · rw [if_pos hempty]
      exact h
    · rw [h.isEmpty_iff.mp hempty, Set.empty_sdiff]
  rw [if_neg hempty]
  by_cases hempty' : other.isEmpty = true
  · refine ⟨bands, ?_, ?_⟩
    · rw [if_pos hempty']
      exact h
    · rw [h'.isEmpty_iff.mp hempty', Set.sdiff_empty]
  rw [if_neg hempty']
  by_cases hinter : region.bounds.intersects other.bounds = true
  · refine ⟨merge difference.combine [] [] bands bands', ?_, ?_⟩
    · rw [hinter, Bool.not_true, if_neg Bool.false_ne_true]
      exact h.merge_bounds lawful_difference h'
    · ext p
      rw [h.mem_pointsOf_merge lawful_difference h',
        selects_difference, and_eq_true, not_eq_true', ← not_eq_true]
      rfl
  · refine ⟨bands, ?_, ?_⟩
    · rw [Bool.eq_false_iff.mpr hinter, Bool.not_false, if_pos rfl]
      exact h
    · have hdisj := h.bounds.disjoint h'.bounds hinter
      exact (Set.disjoint_iff_inter_eq_empty.mpr hdisj).sdiff_eq_left.symm

/-- `contains` is the inclusion of the points, if there are any. -/
theorem contains_iff (hne : (pointsOf bands').Nonempty) :
    region.contains other = true ↔ pointsOf bands' ⊆ pointsOf bands := by
  have hshapes : CompareOperation.contains.compareShapes region.shape other.shape = true ↔
      pointsOf bands' ⊆ pointsOf bands := by
    rw [h.shape_eq, h'.shape_eq, CompareOperation.compareShapes_contains h.banded h'.banded]
    exact ⟨fun hin p hp => hin p.x p.y hp, fun hsub x y hp => @hsub ⟨x, y⟩ hp⟩
  rw [contains]
  by_cases hbnd : region.bounds.contains other.bounds = true
  · rw [hbnd, Bool.not_true, if_neg Bool.false_ne_true]
    exact hshapes
  · rw [Bool.eq_false_iff.mpr hbnd, Bool.not_false, if_pos rfl]
    constructor
    · intro hfalse
      cases hfalse
    · intro hsub
      exact absurd (h.bounds.contains_of_subset h'.bounds hne hsub) hbnd

/-- A rectangle whose bounds contain the bounds of a region contains the region. -/
theorem subset_of_isRect
    (hrect : region.isRect = true) (hbnd : region.bounds.contains other.bounds = true)
    (hne : (pointsOf bands).Nonempty) : pointsOf bands' ⊆ pointsOf bands := by
  intro p hp
  apply h.mem_of_isRect hrect hne
  have hin := IntRect.containsPoint_iff.mp (h'.bounds.contains p hp)
  have hle := IntRect.contains_iff.mp hbnd
  rw [containsPoint_iff]
  omega

theorem unite : ∃ result, (region.unite other).Represents result ∧
      pointsOf result = pointsOf bands ∪ pointsOf bands' := by
  rw [Region.unite]
  by_cases hempty' : other.isEmpty = true
  · refine ⟨bands, ?_, ?_⟩
    · rw [if_pos hempty']
      exact h
    · rw [h'.isEmpty_iff.mp hempty', Set.union_empty]
  rw [if_neg hempty']
  have hne' := h'.bounds.nonempty_of_not_isEmpty hempty'
  by_cases hrect : (region.isRect && region.bounds.contains other.bounds) = true
  · refine ⟨bands, ?_, ?_⟩
    · rw [if_pos hrect]
      exact h
    · obtain ⟨hrect, hbnd⟩ := and_eq_true_iff.mp hrect
      have hne : (pointsOf bands).Nonempty := by
        -- bounds that contain others with a size have a size
        apply h.bounds.nonempty_of_not_isEmpty
        intro hempty
        have hnone := h.bounds.empty (h.isEmpty_iff.mp hempty)
        have hsize := h'.bounds.nonempty hne'
        have hle := IntRect.contains_iff.mp hbnd
        rw [maxX, maxX, maxY, maxY] at hle
        omega
      exact (Set.union_eq_self_of_subset_right (h.subset_of_isRect h' hrect hbnd hne)).symm
  rw [if_neg hrect]
  by_cases hrect' : (other.isRect && other.bounds.contains region.bounds) = true
  · refine ⟨bands', ?_, ?_⟩
    · rw [if_pos hrect']
      exact h'
    · obtain ⟨hrect', hbnd'⟩ := and_eq_true_iff.mp hrect'
      exact (Set.union_eq_self_of_subset_left (h'.subset_of_isRect h hrect' hbnd' hne')).symm
  rw [if_neg hrect']
  by_cases hcont : (!region.isRect && region.contains other) = true
  · refine ⟨bands, ?_, ?_⟩
    · rw [if_pos hcont]
      exact h
    · have hsub := (h.contains_iff h' hne').mp (and_eq_true_iff.mp hcont).2
      exact (Set.union_eq_self_of_subset_right hsub).symm
  rw [if_neg hcont]
  have hpoints : pointsOf (merge union.combine [] [] bands bands') =
      pointsOf bands ∪ pointsOf bands' := by
    ext p
    rw [h.mem_pointsOf_merge lawful_union h', selects_union, or_eq_true]
    rfl
  refine ⟨merge union.combine [] [] bands bands', ?_, hpoints⟩
  constructor
  · exact h.shapeOperation_eq lawful_union h'
  · exact h.banded.merge lawful_union h'.banded
  · exact h.small_merge lawful_union h'
  · rw [hpoints]
    exact h.bounds.unite h'.bounds

end

/-! ## Translation -/

/-- The bands of a translated shape. -/
def move (offset : IntSize) (bands : Bands) : Bands :=
  bands.map (Prod.map (· + offset.height) (List.map (· + offset.width)))

variable {offset : IntSize}

theorem flatten_move : flatten (move offset bands) = (flatten bands).map (· + offset.width) := by
  rw [flatten, move, flatMap_map, flatten, map_flatMap]
  rfl

theorem indexed_move (index : ℕ) : indexed index (move offset bands) =
      (indexed index bands).map fun span => { span with y := span.y + offset.height } := by
  induction bands generalizing index with
  | nil => rfl
  | cons band bands ih =>
    rw [move, map_cons, Prod.map_apply, indexed, indexed, map_cons, length_map]
    exact congrArg _ (ih _)

theorem translate_ofBands : (ofBands bands).translate offset = .ofBands (move offset bands) := by
  rw [Shape.translate, Shape.ofBands, Shape.ofBands, flatten_move, indexed_move]

theorem intervals_move (h : Intervals segments) : Intervals (segments.map (· + offset.width)) := by
  constructor
  · rw [pairwise_map]
    exact h.ascending.imp fun hlt => Int.add_lt_add_right hlt _
  · rw [closed_iff_even, length_map]
    exact closed_iff_even.mp h.closed

theorem banded_move (h : Banded [] bands) : Banded [] (move offset bands) := by
  constructor
  · constructor
    · rw [Ascending, move, keys_map, pairwise_map]
      exact h.canonical.ascending.imp fun hlt => Int.add_lt_add_right hlt _
    · have hinjective : Function.Injective fun x => x + offset.width := by
        intro x x' (heq : x + offset.width = x' + offset.width)
        omega
      exact h.canonical.changes.map (map_injective_iff.mpr hinjective)
  · have hfinal : finalValue (map (· + offset.width) []) (move offset bands) =
        map (· + offset.width) (finalValue [] bands) := finalValue_map
    rw [h.ends] at hfinal
    exact hfinal
  · intro band hband
    obtain ⟨before, hbef, rfl⟩ := mem_map.mp hband
    exact intervals_move (h.rows before hbef)
  · exact intervals_nil

theorem pointsOf_move : pointsOf (move offset bands) =
    {p | ⟨p.x - offset.width, p.y - offset.height⟩ ∈ pointsOf bands} := by
  ext p
  have hrow : valueAt (map (· + offset.width) []) (move offset bands) p.y =
      (valueAt [] bands (p.y - offset.height)).map (· + offset.width) :=
    valueAt_map fun k => by omega
  have hcolumn : ∀ segments : List ℤ, inside false (segments.map (· + offset.width)) p.x =
      inside false segments (p.x - offset.width) :=
    fun segments => inside_map fun k => by omega
  rw [map_nil] at hrow
  rw [mem_pointsOf, hrow, hcolumn]
  rfl

theorem translate (h : region.Represents bands) (hsmall : (region.shape.translate offset).Small) :
    (region.translate offset).Represents (move offset bands) where
  shape_eq := by rw [Region.translate, h.shape_eq, translate_ofBands]
  banded := banded_move h.banded
  small := by
    rw [h.shape_eq, translate_ofBands] at hsmall
    exact hsmall
  bounds := by
    rw [pointsOf_move]
    exact h.bounds.move offset

end Region.Represents

theorem Built.represents (h : Built region points) :
    ∃ bands, region.Represents bands ∧ pointsOf bands = points := by
  induction h with
  | empty => exact ⟨[], .empty, Set.eq_empty_of_forall_notMem fun p hp => by cases hp⟩
  | rect r hwidth hheight hsmall =>
    exact ⟨_, .ofRect hwidth hheight hsmall, Region.Represents.pointsOf_rect hwidth hheight⟩
  | unite _ _ ih ih' =>
    obtain ⟨bands, h, rfl⟩ := ih
    obtain ⟨bands', h', rfl⟩ := ih'
    exact h.unite h'
  | intersect _ _ ih ih' =>
    obtain ⟨bands, h, rfl⟩ := ih
    obtain ⟨bands', h', rfl⟩ := ih'
    exact h.intersect h'
  | subtract _ _ ih ih' =>
    obtain ⟨bands, h, rfl⟩ := ih
    obtain ⟨bands', h', rfl⟩ := ih'
    exact h.subtract h'
  | translate offset _ hsmall ih =>
    obtain ⟨bands, h, rfl⟩ := ih
    exact ⟨_, h.translate hsmall, Region.Represents.pointsOf_move⟩

/-- A region made by any operations is exactly its set of points, and two regions are the same
set just if their shapes are equal. -/
theorem built_exact (h : Built region points) (h' : Built other points') :
    region.Exact points ∧ (points = points' ↔ region.shape = other.shape) := by
  obtain ⟨bands, hregion, rfl⟩ := h.represents
  obtain ⟨bands', hother, rfl⟩ := h'.represents
  exact ⟨hregion.exact, hregion.shape_eq_iff hother⟩

theorem small_rect {x y width height : ℤ} (hx : Coordinate x) (hy : Coordinate y)
    (hmaxX : Coordinate (x + width)) (hmaxY : Coordinate (y + height)) :
    (Shape.ofRect ⟨x, y, width, height⟩).Small := by
  rw [Region.Represents.ofRect_eq, small_ofBands]
  simp [flatten, maxX, maxY, hx, hy, hmaxX, hmaxY]

/-- A corner is cut off a square: in one way, and then another. -/
theorem built_exact_corner :
    let square := Region.ofRect ⟨0, 0, 4, 4⟩
    let corner := Region.ofRect ⟨2, 2, 4, 4⟩
    let lower := Region.ofRect ⟨0, 2, 2, 2⟩
    let upper := Region.ofRect ⟨0, 0, 4, 2⟩
    (square.subtract corner).rects = [⟨0, 0, 4, 2⟩, ⟨0, 2, 2, 2⟩] ∧
      (square.subtract corner).Exact ({p | IntRect.containsPoint ⟨0, 0, 4, 4⟩ p = true} \
        {p | IntRect.containsPoint ⟨2, 2, 4, 4⟩ p = true}) ∧
      (lower.unite upper).shape = (square.subtract corner).shape := by
  have hsmall : ∀ c : ℤ, 0 ≤ c → c ≤ 6 → Coordinate c := by
    intro c h₀ h₆
    unfold Coordinate
    omega
  have hrect : ∀ x y width height : ℤ, 0 ≤ x ∧ 0 ≤ y ∧ x + width ≤ 6 ∧ y + height ≤ 6 →
      0 < width → 0 < height → Built (.ofRect ⟨x, y, width, height⟩)
        {p | IntRect.containsPoint ⟨x, y, width, height⟩ p = true} := by
    intro x y width height hcoordinates hwidth hheight
    apply Built.rect _ hwidth hheight
    apply small_rect <;> apply hsmall <;> omega
  have hcut := (hrect 0 0 4 4 (by omega) (by omega) (by omega)).subtract
    (hrect 2 2 4 4 (by omega) (by omega) (by omega))
  have hunion := (hrect 0 2 2 2 (by omega) (by omega) (by omega)).unite
    (hrect 0 0 4 2 (by omega) (by omega) (by omega))
  refine ⟨by decide +kernel, (built_exact hcut hunion).1, ?_⟩
  apply ((built_exact hunion hcut).2.mp _)
  ext p
  simp only [Set.mem_union, Set.mem_sdiff, Set.mem_ofPred_eq, IntRect.containsPoint_iff]
  dsimp only [IntRect.maxX, IntRect.maxY]
  omega

end WebKit.Graphics
