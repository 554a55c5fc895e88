import WebKit.Graphics.ShapeMerge

/-!
# Containment of shapes

`compareShapes` with the containment operation walks over two shapes at once and stops at the
first place where the second one has something that the first one has not
(`compareShapes_contains`). The walk knows of the rows above only whether the first shape had
a segment there (`aHadSegmentInPreviousSpan`). This is enough: the invariant `Walk` says that a
span of the second shape that began above the current span of the first one has been compared
with the span before, unless that was empty.
-/

namespace WebKit.Graphics

open Scanline List Bool

/-- Every place of the second row is in the first. -/
def Within (b a : List ℤ) : Prop := ∀ x, inside false b x = true → inside false a x = true

variable {a b s : List ℤ} {aX aMaxX bX bMaxX x : ℤ}

theorem within_nil : Within [] a := by
  intro x hx
  cases hx

theorem not_within_nil (h : Intervals b) (hne : b ≠ []) : ¬ Within b [] := by
  intro hw
  obtain ⟨x, -, -, hx⟩ := h.exists_inside hne
  cases hw x hx

namespace CompareOperation

theorem inside_lt {y : ℤ} (h : ∀ z ∈ s, y < z) (hx : inside false s x = true) : y < x := by
  by_contra hle
  have hnone : inside false s x = false := by
    refine valueAt_of_forall_lt fun k hk => ?_
    rw [keys_toggles] at hk
    exact (not_lt.mp hle).trans_lt (h k hk)
  rw [hnone] at hx
  cases hx

section

variable (ha : Intervals (aX :: aMaxX :: a))
include ha

/-- The first interval of the second row ends after the first one of the first row. -/
theorem within_skip (hb : Intervals (bX :: bMaxX :: b))
    (hlt : aMaxX < bMaxX) :
    Within (bX :: bMaxX :: b) (aX :: aMaxX :: a) ↔ Within (bX :: bMaxX :: b) a := by
  obtain ⟨-, hrest, -⟩ := intervals_cons_cons.mp ha
  obtain ⟨-, hbrest, -⟩ := intervals_cons_cons.mp hb
  constructor
  · intro h x hx
    rcases (inside_cons_cons ha).mp (h x hx) with ⟨hx1, hx2⟩ | hin
    · -- the place where the first interval ends would have to be in a later one
      have hbx : bX ≤ x := by
        rcases (inside_cons_cons hb).mp hx with ⟨hbx, -⟩ | hin
        · exact hbx
        · have hmax := inside_lt hbrest hin
          omega
      have hend := h aMaxX ((inside_cons_cons hb).mpr (.inl ⟨by omega, hlt⟩))
      rcases (inside_cons_cons ha).mp hend with ⟨-, hself⟩ | hin
      · exact absurd hself (lt_irrefl _)
      · exact absurd (inside_lt hrest hin) (lt_irrefl _)
    · exact hin
  · intro h x hx
    exact (inside_cons_cons ha).mpr (.inr (h x hx))

theorem within_drop (hb : Intervals (bX :: bMaxX :: b))
    (hle : aX ≤ bX) (hge : bMaxX ≤ aMaxX) :
    Within (bX :: bMaxX :: b) (aX :: aMaxX :: a) ↔ Within b (aX :: aMaxX :: a) := by
  constructor
  · intro h x hx
    exact h x ((inside_cons_cons hb).mpr (.inr hx))
  · intro h x hx
    rcases (inside_cons_cons hb).mp hx with ⟨hx1, hx2⟩ | hin
    · exact (inside_cons_cons ha).mpr (.inl ⟨by omega, by omega⟩)
    · exact h x hin

theorem within_drop_both (hb : ∀ z ∈ b, aMaxX < z) :
    Within b (aX :: aMaxX :: a) ↔ Within b a := by
  constructor
  · intro h x hx
    have hlt := inside_lt hb hx
    rcases (inside_cons_cons ha).mp (h x hx) with ⟨-, hx2⟩ | hin
    · omega
    · exact hin
  · intro h x hx
    exact (inside_cons_cons ha).mpr (.inr (h x hx))

end

theorem compareSegments_contains : ∀ {a b : List ℤ}, Intervals a → Intervals b →
    (contains.compareSegments a b = none ∧ Within b a ∨
      contains.compareSegments a b = some false ∧ ¬ Within b a)
  | [], [], _, _ => by
    refine .inl ⟨?_, within_nil⟩
    rw [compareSegments.eq_def]
    rfl
  | _ :: a, [], _, _ => by
    refine .inl ⟨?_, within_nil⟩
    rw [compareSegments.eq_def]
    cases a <;> rfl
  | [], _ :: _, _, hb => by
    refine .inr ⟨?_, not_within_nil hb (cons_ne_nil _ _)⟩
    rw [compareSegments.eq_def]
    rfl
  | [_], _ :: _, ha, _ => absurd ha not_intervals_singleton
  | _ :: _, [_], _, hb => absurd hb not_intervals_singleton
  | aX :: aMaxX :: a, bX :: bMaxX :: b, ha, hb => by
    have ha' := (intervals_cons_cons.mp ha).2.2
    obtain ⟨hbX, hbrest, hb'⟩ := intervals_cons_cons.mp hb
    rw [compareSegments]
    by_cases hlt : bX < aX
    · refine .inr ⟨?_, fun h => ?_⟩
      · simp [contains, check, hlt]
      · -- the second row goes in first
        have hin := h bX ((inside_cons_cons hb).mpr (.inl ⟨le_rfl, hbX⟩))
        have hout : inside false (aX :: aMaxX :: a) bX = false := inside_of_lt hlt
        rw [hout] at hin
        cases hin
    · have hle := not_lt.mp hlt
      have hgo : (check (bMaxX > aX && bX < aMaxX) contains.aOverlapsB <|>
          check (aX < bX) contains.aOutsideB <|> check (bX < aX) contains.bOutsideA) = none := by
        simp [contains, check, hlt]
      rw [hgo]
      rcases lt_trichotomy aMaxX bMaxX with hmax | rfl | hmax
      · rw [if_pos hmax, within_skip ha hb hmax]
        exact compareSegments_contains ha' hb
      · rw [if_neg (lt_irrefl _), if_neg (lt_irrefl _), within_drop ha hb hle le_rfl,
          within_drop_both ha hbrest]
        exact compareSegments_contains ha' hb'
      · rw [if_neg (not_lt.mpr hmax.le), if_pos hmax, within_drop ha hb hle hmax.le]
        exact compareSegments_contains ha hb'
  termination_by a b => a.length + b.length

/-- Every row of the second shape is within that of the first. -/
def Contained (before : List ℤ) (aSpan bSpan : Bands) : Prop :=
  ∀ y, Within (valueAt [] bSpan y) (valueAt before aSpan y)

/-- What the loop knows at two spans: the first one began before the second one ends, except at
the start, and the row before the first one has been compared with the second one. -/
structure Walk (before : List ℤ) (aHad : Bool) (aY bY bMaxY : ℤ) (b : List ℤ) : Prop where
  began : aY < bMaxY ∨ before = [] ∧ aHad = false ∧ b ≠ []
  had : bY < aY → (aHad = true ↔ before ≠ [])
  compared : bY < aY → aHad = true → Within b before

variable {before : List ℤ} {aSpan bSpan : Bands} {aY aMaxY bY bMaxY : ℤ} {aNext bNext : List ℤ}
  {d : List ℤ}

theorem exists_row_ne_nil (h : Banded d ((bY, b) :: (bMaxY, bNext) :: bSpan)) :
    (b ≠ [] ∧ valueAt [] ((bY, b) :: (bMaxY, bNext) :: bSpan) bY = b) ∨
      (bNext ≠ [] ∧ valueAt [] ((bY, b) :: (bMaxY, bNext) :: bSpan) bMaxY = bNext) := by
  by_cases hb : b = []
  · refine .inr ⟨fun hnext => h.tail.canonical.changes.1 (hnext.trans hb.symm), ?_⟩
    exact valueAt_of_mem h.canonical.ascending (mem_cons_of_mem _ mem_cons_self)
  · exact .inl ⟨hb, valueAt_of_mem h.canonical.ascending mem_cons_self⟩

theorem not_contained_of_ended {aHad : Bool} (ha : Banded before [(aY, a)])
    (hb : Banded d ((bY, b) :: (bMaxY, bNext) :: bSpan)) (hw : Walk before aHad aY bY bMaxY b) :
    ¬ Contained before [(aY, a)] ((bY, b) :: (bMaxY, bNext) :: bSpan) := by
  intro h
  obtain rfl : a = [] := ha.ends
  have hbI : Intervals b := hb.rows _ mem_cons_self
  have hnextI : Intervals bNext := hb.rows _ (mem_cons_of_mem _ mem_cons_self)
  have hbm : bY < bMaxY := hb.lt_of_mem_keys mem_cons_self
  have hafter : ∀ y, aY ≤ y → valueAt before [(aY, [])] y = [] := fun y hy => valueAt_of_le hy
  rcases hw.began with hlt | ⟨rfl, -, hne⟩
  · by_cases hne : b = []
    · rcases exists_row_ne_nil hb with ⟨hb', -⟩ | ⟨hnext, hrow⟩
      · exact hb' hne
      · have hrows := h bMaxY
        rw [hrow, hafter bMaxY hlt.le] at hrows
        exact not_within_nil hnextI hnext hrows
    · have hrows := h (max aY bY)
      rw [hafter _ (le_max_left _ _), valueAt_of_le (le_max_right _ _),
        valueAt_of_lt (max_lt hlt hbm)] at hrows
      exact not_within_nil hbI hne hrows
  · have hrows := h bY
    have hall : valueAt [] [(aY, ([] : List ℤ))] bY = [] := by
      rcases lt_or_ge bY aY with hy | hy
      · exact valueAt_of_lt hy
      · exact hafter bY hy
    rw [hall, valueAt_of_le le_rfl, valueAt_of_lt hbm] at hrows
    exact not_within_nil hbI hne hrows

theorem Contained.compared (ha : Banded before ((aY, a) :: (aMaxY, aNext) :: aSpan))
    (hb : Banded d ((bY, b) :: (bMaxY, bNext) :: bSpan)) (ho : bMaxY > aY) (ho' : bY < aMaxY)
    (h : Contained before ((aY, a) :: (aMaxY, aNext) :: aSpan)
      ((bY, b) :: (bMaxY, bNext) :: bSpan)) : Within b a := by
  have hrow := h (max aY bY)
  have haM : aY < aMaxY := ha.lt_of_mem_keys mem_cons_self
  have hbM : bY < bMaxY := hb.lt_of_mem_keys mem_cons_self
  rwa [valueAt_of_le (le_max_right _ _), valueAt_of_lt (max_lt ho hbM),
    valueAt_of_le (le_max_left _ _), valueAt_of_lt (max_lt haM ho')] at hrow

/-- The rows of the second shape above a row of the first one that has been read. -/
theorem row_above {y : ℤ} (hy : y < bMaxY) :
    valueAt [] ((bY, b) :: (bMaxY, bNext) :: bSpan) y = if y < bY then [] else b := by
  rw [valueAt]
  split
  · rfl
  · exact valueAt_of_lt hy

theorem contained_advance_first (ha : Banded before ((aY, a) :: (aMaxY, aNext) :: aSpan))
    (hlt : aMaxY < bMaxY)
    (hbef : bY < aY → Within b before) (hnow : bY < aMaxY → Within b a) :
    Contained before ((aY, a) :: (aMaxY, aNext) :: aSpan) ((bY, b) :: (bMaxY, bNext) :: bSpan) ↔
      Contained a ((aMaxY, aNext) :: aSpan) ((bY, b) :: (bMaxY, bNext) :: bSpan) := by
  have haM : aY < aMaxY := ha.lt_of_mem_keys mem_cons_self
  refine forall_congr' fun y => ?_
  rcases lt_or_ge y aY with hy | hy
  · rw [valueAt_of_lt hy, valueAt_of_lt (hy.trans haM), row_above (by omega)]
    by_cases hyb : y < bY
    · rw [if_pos hyb]
      exact ⟨fun _ => within_nil, fun _ => within_nil⟩
    · rw [if_neg hyb]
      exact ⟨fun _ => hnow (by omega), fun _ => hbef (by omega)⟩
  · rw [valueAt_of_le hy]

theorem contained_advance_second
    (hb : Banded d ((bY, b) :: (bMaxY, bNext) :: bSpan)) (hlt : bMaxY < aMaxY)
    (hbef : bY < aY → Within b before) (hnow : Within b a) :
    Contained before ((aY, a) :: (aMaxY, aNext) :: aSpan) ((bY, b) :: (bMaxY, bNext) :: bSpan) ↔
      Contained before ((aY, a) :: (aMaxY, aNext) :: aSpan) ((bMaxY, bNext) :: bSpan) := by
  refine forall_congr' fun y => ?_
  rcases lt_or_ge y bMaxY with hy | hy
  · rw [row_above hy, valueAt_of_lt hy]
    refine ⟨fun _ => within_nil, fun _ => ?_⟩
    by_cases hyb : y < bY
    · rw [if_pos hyb]
      exact within_nil
    · rw [if_neg hyb]
      rcases lt_or_ge y aY with hya | hya
      · rw [valueAt_of_lt hya]
        exact hbef (by omega)
      · rw [valueAt_of_le hya, valueAt_of_lt (hy.trans hlt)]
        exact hnow
  · have hbM : bY < bMaxY := hb.lt_of_mem_keys mem_cons_self
    rw [valueAt_of_le (hbM.le.trans hy), valueAt_of_le hy, valueAt_of_le hy]

theorem contained_advance_both {y : ℤ} (ha : Banded before ((aY, a) :: (y, aNext) :: aSpan))
    (hb : Banded d ((bY, b) :: (y, bNext) :: bSpan)) (hbef : bY < aY → Within b before)
    (hnow : Within b a) :
    Contained before ((aY, a) :: (y, aNext) :: aSpan) ((bY, b) :: (y, bNext) :: bSpan) ↔
      Contained a ((y, aNext) :: aSpan) ((y, bNext) :: bSpan) := by
  have haM : aY < y := ha.lt_of_mem_keys mem_cons_self
  have hbM : bY < y := hb.lt_of_mem_keys mem_cons_self
  refine forall_congr' fun z => ?_
  rcases lt_or_ge z y with hz | hz
  · rw [row_above hz, valueAt_of_lt hz]
    refine ⟨fun _ => within_nil, fun _ => ?_⟩
    by_cases hzb : z < bY
    · rw [if_pos hzb]
      exact within_nil
    · rw [if_neg hzb]
      rcases lt_or_ge z aY with hza | hza
      · rw [valueAt_of_lt hza]
        exact hbef (by omega)
      · rw [valueAt_of_le hza, valueAt_of_lt hz]
        exact hnow
  · rw [valueAt_of_le (hbM.le.trans hz), valueAt_of_le (haM.le.trans hz)]
    simp only [valueAt_of_le hz]

/-- The walk over two shapes finds whether the second one is contained in the first. -/
theorem compareSpans_contains : ∀ {aSpan bSpan : Bands} {before d : List ℤ} {aHad bHad : Bool},
    Banded before aSpan → Banded d bSpan →
    (∀ aY a bY b bMaxY, aSpan.head? = some (aY, a) → bSpan.head? = some (bY, b) →
      (bSpan.tail.head?.map Prod.fst) = some bMaxY → Walk before aHad aY bY bMaxY b) →
    (contains.compareSpans aSpan bSpan aHad bHad = true ↔ Contained before aSpan bSpan)
  | aSpan, [], before, d, aHad, bHad, _, _, _ => by
    have htrue : contains.compareSpans aSpan [] aHad bHad = true := by
      rw [compareSpans.eq_def]
      simp [contains, check]
    exact ⟨fun _ y => within_nil, fun _ => htrue⟩
  | aSpan, [(bY, b)], before, d, aHad, bHad, _, hb, _ => by
    obtain rfl : b = [] := hb.ends
    have htrue : contains.compareSpans aSpan [(bY, [])] aHad bHad = true := by
      rw [compareSpans.eq_def]
      simp [contains, check]
    refine ⟨fun _ y => ?_, fun _ => htrue⟩
    have hrow : valueAt [] [(bY, ([] : List ℤ))] y = [] := by
      rw [valueAt]
      split <;> rfl
    rw [hrow]
    exact within_nil
  | [], (bY, b) :: (bMaxY, bNext) :: bSpan, before, d, aHad, bHad, ha, hb, _ => by
    obtain rfl : before = [] := ha.ends
    have hfalse : contains.compareSpans [] ((bY, b) :: (bMaxY, bNext) :: bSpan) aHad bHad =
        false := by
      rw [compareSpans.eq_def]
      simp [contains, check]
    rw [hfalse]
    refine ⟨fun h => absurd h false_ne_true, fun h => ?_⟩
    exfalso
    rcases exists_row_ne_nil hb with ⟨hne, hrow⟩ | ⟨hne, hrow⟩
    · have hrows := h bY
      rw [hrow] at hrows
      exact not_within_nil (hb.rows _ mem_cons_self) hne hrows
    · have hrows := h bMaxY
      rw [hrow] at hrows
      exact not_within_nil (hb.rows _ (mem_cons_of_mem _ mem_cons_self)) hne hrows
  | [(aY, a)], (bY, b) :: (bMaxY, bNext) :: bSpan, before, d, aHad, bHad, ha, hb, hw => by
    have hfalse : contains.compareSpans [(aY, a)] ((bY, b) :: (bMaxY, bNext) :: bSpan) aHad bHad =
        false := by
      rw [compareSpans.eq_def]
      simp [contains, check]
    rw [hfalse]
    refine ⟨fun h => absurd h false_ne_true, fun h => ?_⟩
    exact absurd h (not_contained_of_ended ha hb (hw aY a bY b bMaxY rfl rfl rfl))
  | (aY, a) :: (aMaxY, aNext) :: aSpan, (bY, b) :: (bMaxY, bNext) :: bSpan, before, d, aHad, bHad,
      ha, hb, hw => by
    have hwalk := hw aY a bY b bMaxY rfl rfl rfl
    have hbM : bY < bMaxY := hb.lt_of_mem_keys mem_cons_self
    have haI : Intervals a := ha.rows _ mem_cons_self
    have hbI : Intervals b := hb.rows _ mem_cons_self
    rw [compareSpans]
    by_cases hout : bY < aY ∧ aHad = false ∧ b ≠ []
    · -- the second shape has a segment where the first one has none
      obtain ⟨hlt, hhad, hne⟩ := hout
      have hreturn : (check (bY < aY && !aHad && decide (b ≠ [])) contains.bOutsideA) =
          some false := by
        simp [contains, check, hlt, hhad, hne]
      rw [hreturn]
      have hnone : ∀ c, check c contains.aOutsideB = none := by
        intro c
        cases c <;> rfl
      rw [hnone]
      refine ⟨fun h => absurd h false_ne_true, fun h => ?_⟩
      exfalso
      obtain rfl : before = [] := by
        by_contra hne'
        rw [(hwalk.had hlt).mpr hne'] at hhad
        cases hhad
      have hrow := h bY
      rw [valueAt_of_le le_rfl, valueAt_of_lt hbM, valueAt_of_lt hlt] at hrow
      exact not_within_nil hbI hne hrow
    · have hgo : check (bY < aY && !aHad && decide (b ≠ [])) contains.bOutsideA = none := by
        rw [check, if_neg]
        simp only [and_eq_true, decide_eq_true_eq, not_eq_true']
        rintro ⟨⟨hlt, hhad⟩, hne⟩
        exact hout ⟨hlt, hhad, hne⟩
      have hnone : ∀ c, check c contains.aOutsideB = none := by
        intro c
        cases c <;> rfl
      have hbef : bY < aY → Within b before := by
        intro hlt
        cases hhad : aHad with
        | true => exact hwalk.compared hlt hhad
        | false =>
          by_cases hne : b = []
          · rw [hne]
            exact within_nil
          · exact absurd ⟨hlt, hhad, hne⟩ hout
      have hbegan : aY < bMaxY := by
        rcases hwalk.began with hlt | ⟨-, hhad, hne⟩
        · exact hlt
        · by_contra hge
          exact hout ⟨by omega, hhad, hne⟩
      rw [hgo, hnone]
      have hsegs : (if bMaxY > aY && bY < aMaxY then contains.compareSegments a b else none) =
          if bY < aMaxY then contains.compareSegments a b else none := by
        simp [hbegan]
      by_cases hdiff : bY < aMaxY ∧ ¬ Within b a
      · -- the second shape has more in a row that both have
        obtain ⟨ho, hnot⟩ := hdiff
        rcases compareSegments_contains haI hbI with ⟨-, hwithin⟩ | ⟨heq, -⟩
        · exact absurd hwithin hnot
        · rw [hsegs, if_pos ho, heq]
          refine ⟨fun h => absurd h false_ne_true, fun h => ?_⟩
          exact absurd (h.compared ha hb hbegan ho) hnot
      · have hnow : bY < aMaxY → Within b a := by
          intro ho
          by_contra hnot
          exact hdiff ⟨ho, hnot⟩
        have hnil : (if bY < aMaxY then contains.compareSegments a b else none) = none := by
          by_cases ho : bY < aMaxY
          · rw [if_pos ho]
            rcases compareSegments_contains haI hbI with ⟨heq, -⟩ | ⟨-, hnot⟩
            · exact heq
            · exact absurd (hnow ho) hnot
          · rw [if_neg ho]
        rw [hsegs, hnil]
        have hhad' : ∀ s : List ℤ, decide (s ≠ []) = true ↔ s ≠ [] := fun s => decide_eq_true_iff
        rcases lt_trichotomy aMaxY bMaxY with hlt | rfl | hlt
        · rw [if_pos hlt, contained_advance_first ha hlt hbef hnow]
          refine compareSpans_contains ha.tail hb ?_
          rintro _ _ _ _ _ ⟨⟩ ⟨⟩ ⟨⟩
          exact ⟨.inl hlt, fun _ => hhad' a, fun ho _ => hnow ho⟩
        · rw [if_neg (lt_irrefl _), if_neg (lt_irrefl _),
            contained_advance_both ha hb hbef (hnow hbM)]
          refine compareSpans_contains ha.tail hb.tail ?_
          rintro _ _ _ _ bM ⟨⟩ ⟨⟩ hbm
          have hmem : bM ∈ keys bSpan := by
            cases bSpan with
            | nil => cases hbm
            | cons band bSpan =>
              cases hbm
              exact mem_cons_self
          exact ⟨.inl (hb.tail.lt_of_mem_keys hmem), fun h => absurd h (lt_irrefl _),
            fun h => absurd h (lt_irrefl _)⟩
        · rw [if_neg (not_lt.mpr hlt.le), if_pos hlt,
            contained_advance_second hb hlt hbef (hnow (hbM.trans hlt))]
          refine compareSpans_contains ha hb.tail ?_
          rintro _ _ _ _ bM ⟨⟩ ⟨⟩ hbm
          have hmem : bM ∈ keys bSpan := by
            cases bSpan with
            | nil => cases hbm
            | cons band bSpan =>
              cases hbm
              exact mem_cons_self
          exact ⟨.inl (hbegan.trans (hb.tail.lt_of_mem_keys hmem)),
            fun h => absurd h (not_lt.mpr hbegan.le), fun h => absurd h (not_lt.mpr hbegan.le)⟩
  termination_by aSpan bSpan => aSpan.length + bSpan.length

theorem compareShapes_contains {bands bands' : Bands} (h : Banded [] bands)
    (h' : Banded [] bands') :
    contains.compareShapes (.ofBands bands) (.ofBands bands') = true ↔
      ∀ x y, inside false (valueAt [] bands' y) x = true →
        inside false (valueAt [] bands y) x = true := by
  rw [compareShapes, Shape.bands_ofBands, Shape.bands_ofBands, compareSpans_contains h h']
  · exact forall_comm
  · intro aY a bY b bMaxY _ hb _
    -- the first span of the second shape is not empty
    have hne : b ≠ [] := by
      cases bands' with
      | nil => cases hb
      | cons band bands' =>
        cases hb
        exact h'.canonical.changes.1
    exact ⟨.inr ⟨rfl, rfl, hne⟩, fun _ => by simp, fun _ hhad => absurd hhad false_ne_true⟩

end CompareOperation

end WebKit.Graphics
