import WebKit.Graphics.Region
import WebKit.Scanline.Toggles

/-!
# Shapes as step functions

A shape is a list of bands, each a row and the segments from that row on (`Shape.ofBands`).
Read this way a shape is a step function from rows to segments, and the segments of a row are
a set of intervals. Both loops of `shapeOperation` are the merge of two step functions: the
inner one merges truth values (`toggles_mergeSegments`), the outer one segments
(`shapeOperation_ofBands`).
-/

namespace WebKit.Graphics

open Scanline List

abbrev Bands := List (ℤ × List ℤ)

/-! ## Bands in two vectors -/

/-- The segments of all bands. -/
def flatten (bands : Bands) : List ℤ := bands.flatMap Prod.snd

/-- The spans of bands whose segments begin at an index. -/
def indexed : ℕ → Bands → List Span
  | _, [] => []
  | offset, (y, segments) :: bands => ⟨y, offset⟩ :: indexed (offset + segments.length) bands

def Shape.ofBands (bands : Bands) : Shape := ⟨flatten bands, indexed 0 bands⟩

variable {bands bands' : Bands} {segments : List ℤ} {y : ℤ}

theorem flatten_append : flatten (bands ++ bands') = flatten bands ++ flatten bands' :=
  flatMap_append

theorem flatten_cons : flatten ((y, segments) :: bands) = segments ++ flatten bands := flatMap_cons

theorem indexed_append (offset : ℕ) : indexed offset (bands ++ bands') =
      indexed offset bands ++ indexed (offset + (flatten bands).length) bands' := by
  induction bands generalizing offset with
  | nil => rfl
  | cons band bands ih =>
    rw [cons_append, indexed, indexed, ih, flatten_cons, length_append, Nat.add_assoc, cons_append]

theorem indexed_eq_nil {offset : ℕ} : indexed offset bands = [] ↔ bands = [] := by
  cases bands with
  | nil => simp [indexed]
  | cons band bands =>
    simp [indexed]

namespace Shape

theorem isEmpty_ofBands : (ofBands bands).isEmpty = true ↔ bands = [] := by
  rw [isEmpty, ofBands, List.isEmpty_iff, indexed_eq_nil]

theorem segmentsOf_indexed {shape : Shape} {before : List ℤ}
    (h : shape.segments = before ++ flatten ((y, segments) :: bands)) :
    shape.segmentsOf (indexed before.length ((y, segments) :: bands)) = segments := by
  rw [flatten_cons] at h
  have hlen : shape.segments.length =
      before.length + (segments.length + (flatten bands).length) := by
    rw [h, length_append, length_append]
  simp only [segmentsOf, indexed, segmentsBegin, segmentsEnd]
  by_cases hempty : before.length = shape.segments.length
  · rw [if_pos hempty]
    exact (length_eq_zero_iff.mp (by omega)).symm
  · rw [if_neg hempty, if_neg hempty]
    have hstop : (((indexed (before.length + segments.length) bands).head?.map
        Span.segmentIndex).getD shape.segments.length) = before.length + segments.length := by
      cases bands with
      | nil =>
        rw [indexed, hlen]
        rfl
      | cons band bands => rfl
    dsimp only
    rw [hstop, h, ← append_assoc, ← length_append, take_left, drop_left]

theorem bandsFrom_indexed {shape : Shape} {before : List ℤ}
    (h : shape.segments = before ++ flatten bands) :
    shape.bandsFrom (indexed before.length bands) = bands := by
  induction bands generalizing before with
  | nil => rfl
  | cons band bands ih =>
    have hsegs := segmentsOf_indexed h
    rw [indexed] at hsegs ⊢
    rw [bandsFrom, hsegs, ← length_append, ih]
    rw [h, flatten_cons, append_assoc]

@[simp] theorem bands_ofBands : (ofBands bands).bands = bands :=
  @bandsFrom_indexed bands (ofBands bands) [] rfl

/-! ## Appending -/

theorem canCoalesce_ofBands : (ofBands bands).canCoalesce segments = true ↔
      bands ≠ [] ∧ segments = finalValue [] bands := by
  rcases eq_nil_or_concat bands with rfl | ⟨bands, ⟨y, last⟩, rfl⟩
  · simp [canCoalesce, ofBands, indexed]
  · have hfinal : finalValue [] (bands ++ [(y, last)]) = last := by
      have happ : ∀ d : List ℤ, finalValue d (bands ++ [(y, last)]) = last := by
        induction bands with
        | nil => exact fun _ => rfl
        | cons band bands ih => exact fun _ => ih _
      exact happ []
    have hdrop : (flatten (bands ++ [(y, last)])).drop (flatten bands).length = last := by
      simp [flatten]
    rw [concat_eq_append, hfinal, canCoalesce, ofBands, indexed_append]
    dsimp only [indexed]
    rw [List.getLast?_concat]
    dsimp only
    rw [Nat.zero_add, hdrop, decide_eq_true_eq]
    exact ⟨fun h => ⟨by simp, h.symm⟩, fun h => h.2.symm⟩

theorem finalValue_append (d : List ℤ) (bands bands' : Bands) :
    finalValue d (bands ++ bands') = finalValue (finalValue d bands) bands' := by
  induction bands generalizing d with
  | nil => rfl
  | cons band bands ih => exact ih _

theorem appendSpan_ofBands (y : ℤ) (segments : List ℤ) : (ofBands bands).appendSpan y segments =
      if bands ≠ [] ∧ segments = finalValue [] bands then ofBands bands
      else ofBands (bands ++ [(y, segments)]) := by
  rw [appendSpan]
  by_cases h : (ofBands bands).canCoalesce segments = true
  · rw [if_pos h, if_pos (canCoalesce_ofBands.mp h)]
  · rw [if_neg h, if_neg (mt canCoalesce_ofBands.mpr h)]
    rw [ofBands, ofBands, flatten_append, indexed_append, appendSpanAt]
    simp [flatten, indexed]

theorem appendSpans_ofBands (h : Changes (finalValue [] bands) bands') :
    (ofBands bands).appendSpans bands' = ofBands (bands ++ bands') := by
  induction bands' generalizing bands with
  | nil => rw [appendSpans, append_nil]
  | cons band bands' ih =>
    rw [appendSpans, appendSpan_ofBands, if_neg fun hsame => h.1 hsame.2, ih, append_assoc,
      singleton_append]
    rw [finalValue_append]
    exact h.2

/-- A row of the result of a merge: it is left out if it repeats the last one, and also if
nothing has been appended and it is empty. -/
theorem appendRow_ofBands (bands : Bands) (y : ℤ) (segments : List ℤ) (m : Bands) :
    ∃ bands', (if segments ≠ [] || !(ofBands bands).isEmpty then
        (ofBands bands).appendSpan y segments else ofBands bands) = ofBands bands' ∧
      finalValue [] bands' = segments ∧
      bands' ++ m = bands ++ emit (finalValue [] bands) y segments m := by
  rw [appendSpan_ofBands]
  by_cases hsame : segments = finalValue [] bands
  · refine ⟨bands, ?_, hsame.symm, ?_⟩
    · split
      · rename_i hcond
        by_cases hb : bands = []
        · subst hb
          rw [hsame] at hcond
          simp [finalValue, ofBands, isEmpty, indexed] at hcond
        · rw [if_pos ⟨hb, hsame⟩]
      · rfl
    · rw [emit, if_pos hsame]
  · refine ⟨bands ++ [(y, segments)], ?_, ?_, ?_⟩
    · have hcond : (segments ≠ [] || !(ofBands bands).isEmpty) = true := by
        by_cases hb : bands = []
        · subst hb
          simp only [finalValue] at hsame
          simp [hsame]
        · have hne : ¬ (ofBands bands).isEmpty = true := mt isEmpty_ofBands.mp hb
          simp [hne]
      rw [if_pos hcond, if_neg fun h => hsame h.2]
    · rw [finalValue_append]
      rfl
    · rw [emit, if_neg hsame, append_assoc, singleton_append]

end Shape

end WebKit.Graphics

/-!
## The scanline merge

`selects` is the set operation that the opcode stands for. The inner loop merges the truth
values of two sets of intervals with it (`toggles_mergeSegments`), and the outer loop merges
the segments of two shapes with the inner loop (`shapeOperation_ofBands`). What the constants
say about segments and spans that are left agrees with the set operation (`Lawful`).
-/

namespace WebKit.Graphics

open Scanline

namespace ShapeOperation

variable {operation : ShapeOperation} {b₁ b₂ : Bool} {s₁ s₂ : List ℤ} {x : ℤ}

/-- The flag of a place that is in the first or in the second span. -/
def flagOf : Bool → Bool → ℕ
  | false, false => 0
  | true, false => 1
  | false, true => 2
  | true, true => 3

/-- Whether a place is in the result. -/
def selects (operation : ShapeOperation) (b₁ b₂ : Bool) : Bool :=
  decide (flagOf b₁ b₂ = operation.opCode) != decide (0 = operation.opCode)

/-- Segments and spans are left over from a shape just if the result has the places that are
in this shape only. -/
structure Lawful (operation : ShapeOperation) : Prop where
  segments₁ : operation.shouldAddRemainingSegmentsFromSpan1 = operation.selects true false
  segments₂ : operation.shouldAddRemainingSegmentsFromSpan2 = operation.selects false true
  spans₁ : operation.shouldAddRemainingSpansFromShape1 = operation.selects true false
  spans₂ : operation.shouldAddRemainingSpansFromShape2 = operation.selects false true
  copies : operation.copiesIfFirstIsEmpty = true → operation.selects false true = true

theorem lawful_union : union.Lawful := by constructor <;> decide

theorem lawful_intersection : intersection.Lawful := by constructor <;> decide

theorem lawful_difference : difference.Lawful := by constructor <;> decide

theorem selects_union : union.selects b₁ b₂ = (b₁ || b₂) := by
  cases b₁ <;> cases b₂ <;> decide

theorem selects_intersection : intersection.selects b₁ b₂ = (b₁ && b₂) := by
  cases b₁ <;> cases b₂ <;> decide

theorem selects_difference : difference.selects b₁ b₂ = (b₁ && !b₂) := by
  cases b₁ <;> cases b₂ <;> decide

theorem selects_false_false : operation.selects false false = false := by
  rw [selects, flagOf, bne_self_eq_false]

theorem flagOf_xor_one : flagOf b₁ b₂ ^^^ 1 = flagOf (!b₁) b₂ := by
  cases b₁ <;> cases b₂ <;> rfl

theorem flagOf_xor_two : flagOf b₁ b₂ ^^^ 2 = flagOf b₁ (!b₂) := by
  cases b₁ <;> cases b₂ <;> rfl

theorem selects_ne_iff {c1 c2 : Bool} (h : flagOf c1 c2 ≠ flagOf b₁ b₂) :
    operation.selects c1 c2 ≠ operation.selects b₁ b₂ ↔
      flagOf c1 c2 = operation.opCode ∨ flagOf b₁ b₂ = operation.opCode := by
  unfold selects
  by_cases hc : flagOf c1 c2 = operation.opCode
  · have hb : flagOf b₁ b₂ ≠ operation.opCode := fun hb => h (hc.trans hb.symm)
    simp [hc, hb]
  · by_cases hb : flagOf b₁ b₂ = operation.opCode <;> simp [hc, hb]

theorem emit_toggles {c d : Bool} {m : List ℤ} :
    emit c x d (toggles d m) = toggles c (if d ≠ c then x :: m else m) := by
  unfold emit
  by_cases h : d = c
  · rw [if_pos h, if_neg (not_not.mpr h), h]
  · obtain rfl : d = !c := Bool.eq_not_of_ne h
    rw [if_neg h, if_pos h, toggles]

theorem mergeSegments_nil_right (flag : ℕ) : operation.mergeSegments flag s₁ [] =
      if operation.shouldAddRemainingSegmentsFromSpan1 then s₁ else [] := by
  cases s₁ with
  | nil | cons =>
    rw [mergeSegments.eq_def]
    simp

theorem mergeSegments_nil_left (flag : ℕ) : operation.mergeSegments flag [] s₂ =
      if operation.shouldAddRemainingSegmentsFromSpan2 then s₂ else [] := by
  cases s₂ with
  | nil | cons =>
    rw [mergeSegments.eq_def]
    simp

theorem finalValue_toggles_of_nil {b : Bool} (h : finalValue b (toggles b ([] : List ℤ)) = false) :
    b = false := h

theorem toggles_mergeSegments (hop : operation.Lawful) :
    ∀ {s₁ s₂ : List ℤ} {b₁ b₂ : Bool}, finalValue b₁ (toggles b₁ s₁) = false →
      finalValue b₂ (toggles b₂ s₂) = false →
      toggles (operation.selects b₁ b₂) (operation.mergeSegments (flagOf b₁ b₂) s₁ s₂) =
        merge operation.selects b₁ b₂ (toggles b₁ s₁) (toggles b₂ s₂)
  | s₁, [], b₁, b₂, h₁, h₂ => by
    obtain rfl := finalValue_toggles_of_nil h₂
    rw [mergeSegments_nil_right, hop.segments₁]
    cases hs : operation.selects true false with
    | true =>
      have hid : ∀ b, operation.selects b false = b := by
        intro b
        cases b
        · exact selects_false_false
        · exact hs
      rw [if_pos rfl, hid]
      exact (merge_nil_right_of_id hid changes_toggles).symm
    | false =>
      have hconst : ∀ b, operation.selects b false = false := by
        intro b
        cases b
        · exact selects_false_false
        · exact hs
      exact (merge_nil_right_of_const hconst).symm
  | [], x2 :: s₂, b₁, b₂, h₁, h₂ => by
    obtain rfl := finalValue_toggles_of_nil h₁
    rw [mergeSegments_nil_left, hop.segments₂]
    cases hs : operation.selects false true with
    | true =>
      have hid : ∀ b, operation.selects false b = b := by
        intro b
        cases b
        · exact selects_false_false
        · exact hs
      rw [if_pos rfl, hid]
      exact (merge_nil_left_of_id hid changes_toggles).symm
    | false =>
      have hconst : ∀ b, operation.selects false b = false := by
        intro b
        cases b
        · exact selects_false_false
        · exact hs
      exact (merge_nil_left_of_const hconst).symm
  | x1 :: s₁, x2 :: s₂, b₁, b₂, h₁, h₂ => by
    rw [mergeSegments]
    rw [finalValue_toggles_cons] at h₁ h₂
    rcases lt_trichotomy x1 x2 with hlt | rfl | hlt
    · rw [if_pos (show x1 - x2 ≤ 0 by omega), if_pos (show x1 - x2 ≤ 0 by omega),
        if_neg (show ¬ x1 - x2 ≥ 0 by omega), if_neg (show ¬ x1 - x2 ≥ 0 by omega),
        if_neg (show ¬ x1 - x2 ≥ 0 by omega), flagOf_xor_one]
      have hne : flagOf (!b₁) b₂ ≠ flagOf b₁ b₂ := by cases b₁ <;> cases b₂ <;> decide
      have ih := toggles_mergeSegments hop h₁
        (show finalValue b₂ (toggles b₂ (x2 :: s₂)) = false from h₂)
      rw [toggles, toggles, merge, if_pos hlt]
      rw [toggles] at ih
      rw [← ih, emit_toggles]
      simp only [Bool.or_eq_true, decide_eq_true_eq, ← selects_ne_iff hne]
    · rw [if_pos (show x1 - x1 ≤ 0 by omega), if_pos (show x1 - x1 ≤ 0 by omega),
        if_pos (show x1 - x1 ≥ 0 by omega), if_pos (show x1 - x1 ≥ 0 by omega),
        if_pos (show x1 - x1 ≥ 0 by omega), flagOf_xor_one, flagOf_xor_two]
      have hne : flagOf (!b₁) (!b₂) ≠ flagOf b₁ b₂ := by cases b₁ <;> cases b₂ <;> decide
      have ih := toggles_mergeSegments hop h₁ h₂
      rw [toggles, toggles, merge, if_neg (lt_irrefl x1), if_neg (lt_irrefl x1), ← ih, emit_toggles]
      simp only [Bool.or_eq_true, decide_eq_true_eq, ← selects_ne_iff hne]
    · rw [if_neg (show ¬ x1 - x2 ≤ 0 by omega), if_neg (show ¬ x1 - x2 ≤ 0 by omega),
        if_pos (show x1 - x2 ≥ 0 by omega), if_pos (show x1 - x2 ≥ 0 by omega),
        if_pos (show x1 - x2 ≥ 0 by omega), flagOf_xor_two]
      have hne : flagOf b₁ (!b₂) ≠ flagOf b₁ b₂ := by cases b₁ <;> cases b₂ <;> decide
      have ih := toggles_mergeSegments hop
        (show finalValue b₁ (toggles b₁ (x1 :: s₁)) = false from h₁) h₂
      rw [toggles, toggles, merge, if_neg (not_lt.mpr hlt.le), if_pos hlt]
      rw [toggles] at ih
      rw [← ih, emit_toggles]
      simp only [Bool.or_eq_true, decide_eq_true_eq, ← selects_ne_iff hne]
  termination_by s₁ s₂ => s₁.length + s₂.length

/-- The segments of a row of the result. -/
def combine (operation : ShapeOperation) (s₁ s₂ : List ℤ) : List ℤ :=
  operation.mergeSegments 0 s₁ s₂

theorem toggles_combine (hop : operation.Lawful) (h₁ : Closed s₁) (h₂ : Closed s₂) :
    toggles false (operation.combine s₁ s₂) =
      merge operation.selects false false (toggles false s₁) (toggles false s₂) := by
  have h := toggles_mergeSegments hop h₁ h₂
  rwa [selects_false_false] at h

section

variable (hop : operation.Lawful) (h₁ : Intervals s₁) (h₂ : Intervals s₂)
include hop h₁ h₂

theorem intervals_combine : Intervals (operation.combine s₁ s₂) := by
  have htoggles := toggles_combine hop h₁.closed h₂.closed
  have hcanon := Canonical.merge operation.selects false false
    h₁.canonical.ascending h₂.canonical.ascending
  rw [selects_false_false, ← htoggles] at hcanon
  refine ⟨?_, ?_⟩
  · have := hcanon.ascending
    rwa [Ascending, keys_toggles] at this
  · have hfinal := finalValue_merge operation.selects false false (toggles false s₁)
      (toggles false s₂)
    rw [selects_false_false, ← htoggles, h₁.closed, h₂.closed, selects_false_false] at hfinal
    exact hfinal

theorem inside_combine (x : ℤ) : inside false (operation.combine s₁ s₂) x =
      operation.selects (inside false s₁ x) (inside false s₂ x) := by
  have hvalue := valueAt_merge operation.selects false false
    h₁.canonical.ascending h₂.canonical.ascending x
  rw [selects_false_false, ← toggles_combine hop h₁.closed h₂.closed] at hvalue
  exact hvalue

theorem mem_combine (h : x ∈ operation.combine s₁ s₂) : x ∈ s₁ ∨ x ∈ s₂ := by
  rw [← @keys_toggles _ (operation.combine s₁ s₂) false,
    toggles_combine hop h₁.closed h₂.closed] at h
  have hkeys := mem_keys_merge h
  rwa [keys_toggles, keys_toggles] at hkeys

end

theorem combine_nil_right (hop : operation.Lawful) :
    operation.combine s₁ [] = if operation.selects true false then s₁ else [] := by
  rw [combine, mergeSegments_nil_right, hop.segments₁]

theorem combine_nil_left (hop : operation.Lawful) :
    operation.combine [] s₂ = if operation.selects false true then s₂ else [] := by
  rw [combine, mergeSegments_nil_left, hop.segments₂]

theorem mergeSpans_ofBands (hop : operation.Lawful) :
    ∀ {spans₁ spans₂ acc : Bands} {s₁ s₂ : List ℤ}, Changes s₁ spans₁ → Changes s₂ spans₂ →
      finalValue s₁ spans₁ = [] → finalValue s₂ spans₂ = [] →
      finalValue [] acc = operation.combine s₁ s₂ →
      operation.mergeSpans spans₁ spans₂ s₁ s₂ (.ofBands acc) =
        .ofBands (acc ++ merge operation.combine s₁ s₂ spans₁ spans₂)
  | spans₁, [], acc, s₁, s₂, hc1, _, _, h₂, hacc => by
    obtain rfl : s₂ = [] := h₂
    have hcode : operation.mergeSpans spans₁ [] s₁ [] (.ofBands acc) =
        if operation.selects true false then (Shape.ofBands acc).appendSpans spans₁
        else .ofBands acc := by
      rw [mergeSpans.eq_def, ← hop.spans₁]
      cases spans₁ <;> cases operation.shouldAddRemainingSpansFromShape1 <;>
        simp [Shape.appendSpans]
    rw [hcode]
    cases hs : operation.selects true false with
    | true =>
      have hid : ∀ s, operation.combine s [] = s := by
        intro s
        rw [combine_nil_right hop, if_pos hs]
      rw [hid] at hacc
      rw [if_pos rfl, merge_nil_right_of_id hid hc1]
      exact Shape.appendSpans_ofBands (hacc ▸ hc1)
    | false =>
      have hconst : ∀ s, operation.combine s [] = [] := by
        intro s
        rw [combine_nil_right hop, hs, if_neg Bool.false_ne_true]
      rw [if_neg Bool.false_ne_true, merge_nil_right_of_const hconst, List.append_nil]
  | [], (y2, new2) :: spans₂, acc, s₁, s₂, _, hc2, h₁, _, hacc => by
    obtain rfl : s₁ = [] := h₁
    have hcode : operation.mergeSpans [] ((y2, new2) :: spans₂) [] s₂ (.ofBands acc) =
        if operation.selects false true then
          (Shape.ofBands acc).appendSpans ((y2, new2) :: spans₂)
        else .ofBands acc := by
      rw [mergeSpans.eq_def, ← hop.spans₂]
      simp
    rw [hcode]
    cases hs : operation.selects false true with
    | true =>
      have hid : ∀ s, operation.combine [] s = s := by
        intro s
        rw [combine_nil_left hop, if_pos hs]
      rw [hid] at hacc
      rw [if_pos rfl, merge_nil_left_of_id hid hc2]
      exact Shape.appendSpans_ofBands (hacc ▸ hc2)
    | false =>
      have hconst : ∀ s, operation.combine [] s = [] := by
        intro s
        rw [combine_nil_left hop, hs, if_neg Bool.false_ne_true]
      rw [if_neg Bool.false_ne_true, merge_nil_left_of_const hconst, List.append_nil]
  | (y1, new1) :: spans₁, (y2, new2) :: spans₂, acc, s₁, s₂, hc1, hc2, h₁, h₂, hacc => by
    rw [mergeSpans]
    rcases lt_trichotomy y1 y2 with hlt | rfl | hlt
    · simp only [show y1 - y2 ≤ 0 by omega, show ¬ y1 - y2 ≥ 0 by omega, if_true, if_false]
      obtain ⟨acc', hrow, hfinal, happ⟩ := Shape.appendRow_ofBands acc y1
        (operation.mergeSegments 0 new1 s₂)
        (merge operation.combine new1 s₂ spans₁ ((y2, new2) :: spans₂))
      rw [hrow, mergeSpans_ofBands hop hc1.2 hc2 h₁ h₂ hfinal, happ, hacc, merge, if_pos hlt]
      rfl
    · simp only [Int.sub_self, le_refl, if_true]
      obtain ⟨acc', hrow, hfinal, happ⟩ := Shape.appendRow_ofBands acc y1
        (operation.mergeSegments 0 new1 new2) (merge operation.combine new1 new2 spans₁ spans₂)
      rw [hrow, mergeSpans_ofBands hop hc1.2 hc2.2 h₁ h₂ hfinal, happ, hacc, merge,
        if_neg (lt_irrefl y1), if_neg (lt_irrefl y1)]
      rfl
    · simp only [show ¬ y1 - y2 ≤ 0 by omega, show y1 - y2 ≥ 0 by omega, if_true, if_false]
      obtain ⟨acc', hrow, hfinal, happ⟩ := Shape.appendRow_ofBands acc y2
        (operation.mergeSegments 0 s₁ new2)
        (merge operation.combine s₁ new2 ((y1, new1) :: spans₁) spans₂)
      rw [hrow, mergeSpans_ofBands hop hc1 hc2.2 h₁ h₂ hfinal, happ, hacc, merge,
        if_neg (not_lt.mpr hlt.le), if_pos hlt]
      rfl
  termination_by spans₁ spans₂ => spans₁.length + spans₂.length

end ShapeOperation

/-- Bands after a row: they are canonical, every row is a set of intervals, and the last one is
empty. -/
structure Banded (before : List ℤ) (bands : Bands) : Prop where
  canonical : Canonical before bands
  ends : finalValue before bands = []
  rows : ∀ band ∈ bands, Intervals band.2
  before_intervals : Intervals before

namespace Banded

variable {before segments : List ℤ} {bands bands' : Bands} {operation : ShapeOperation} {x y : ℤ}

theorem nil : Banded [] [] :=
  ⟨⟨List.Pairwise.nil, trivial⟩, rfl, fun _ h => absurd h List.not_mem_nil, intervals_nil⟩

theorem tail (h : Banded before ((y, segments) :: bands)) : Banded segments bands :=
  ⟨h.canonical.tail, h.ends, fun band hband => h.rows band (List.mem_cons_of_mem _ hband),
    h.rows _ List.mem_cons_self⟩

theorem lt_of_mem_keys (h : Banded before ((y, segments) :: bands)) {z : ℤ} (hz : z ∈ keys bands) :
    y < z := (ascending_cons.mp h.canonical.ascending).1 z hz

theorem row (h : Banded before bands) (y : ℤ) : Intervals (valueAt before bands y) :=
  forall_valueAt h.before_intervals h.rows y

theorem ext (h : Banded [] bands) (h' : Banded [] bands')
    (heq : ∀ x y, inside false (valueAt [] bands y) x = inside false (valueAt [] bands' y) x) :
    bands = bands' :=
  h.canonical.ext h'.canonical fun y => (h.row y).ext (h'.row y) fun x => heq x y

theorem merge (hop : operation.Lawful) (h : Banded [] bands) (h' : Banded [] bands') :
    Banded [] (merge operation.combine [] [] bands bands') := by
  have hnil : operation.combine [] [] = [] := by
    rw [ShapeOperation.combine_nil_right hop]
    split <;> rfl
  have hcanon := Canonical.merge operation.combine [] []
    h.canonical.ascending h'.canonical.ascending
  have hfinal := finalValue_merge operation.combine [] [] bands bands'
  rw [hnil] at hcanon
  rw [hnil, h.ends, h'.ends, hnil] at hfinal
  refine ⟨hcanon, hfinal, ?_, intervals_nil⟩
  exact forall_mem_merge (fun _ _ hs hs' => ShapeOperation.intervals_combine hop hs hs')
    intervals_nil intervals_nil h.rows h'.rows

theorem inside_merge (hop : operation.Lawful) (h : Banded [] bands) (h' : Banded [] bands')
    (x y : ℤ) :
    inside false (valueAt [] (Scanline.merge operation.combine [] [] bands bands') y) x =
      operation.selects (inside false (valueAt [] bands y) x)
        (inside false (valueAt [] bands' y) x) := by
  have hnil : operation.combine [] [] = [] := by
    rw [ShapeOperation.combine_nil_right hop]
    split <;> rfl
  have hvalue := valueAt_merge operation.combine [] []
    h.canonical.ascending h'.canonical.ascending y
  rw [hnil] at hvalue
  rw [hvalue, ShapeOperation.inside_combine hop (h.row y) (h'.row y)]

end Banded

theorem ShapeOperation.shapeOperation_ofBands {operation : ShapeOperation} {bands bands' : Bands}
    (hop : operation.Lawful) (h : Banded [] bands) (h' : Banded [] bands') :
    operation.shapeOperation (.ofBands bands) (.ofBands bands') =
      .ofBands (merge operation.combine [] [] bands bands') := by
  rw [shapeOperation]
  by_cases hcopy : (operation.copiesIfFirstIsEmpty && (Shape.ofBands bands).isEmpty) = true
  · rw [if_pos hcopy]
    obtain ⟨hcopies, hempty⟩ := Bool.and_eq_true_iff.mp hcopy
    obtain rfl := Shape.isEmpty_ofBands.mp hempty
    have hid : ∀ s, operation.combine [] s = s := by
      intro s
      rw [combine_nil_left hop, if_pos (hop.copies hcopies)]
    rw [merge_nil_left_of_id hid h'.canonical.changes]
  · rw [if_neg hcopy, Shape.bands_ofBands, Shape.bands_ofBands]
    have hnil : operation.combine [] [] = [] := by
      rw [combine_nil_right hop]
      split <;> rfl
    exact @mergeSpans_ofBands _ hop _ _ [] _ _ h.canonical.changes h'.canonical.changes h.ends h'.ends
      hnil.symm

end WebKit.Graphics
