import Mathlib
import WebKit.Intervals.Joins

/-!
# `PlatformTimeRanges`

The buffered and played ranges of a media element. A `MediaTime` is a point of a linear
order with the infinite times as its ends, and a `Range` is an interval `[start, stop)`.
The methods that change the ranges are the functions below, on the vector `m_ranges`.

The copy constructor adds the ranges of the other object one by one (`copy` from the empty
object). The assignment operator calls the same function on the object as it is.
-/

open List

namespace WebKit.Graphics

open Intervals Apart

variable {MediaTime : Type*} [LinearOrder MediaTime]

abbrev Range (MediaTime : Type*) := Interval MediaTime

namespace Range

def isPointInRange (range : Range MediaTime) (point : MediaTime) : Bool :=
  range.start ≤ point ∧ point < range.stop

def isOverlappingRange (self range : Range MediaTime) : Bool :=
  isPointInRange self range.start || isPointInRange self range.stop ||
    isPointInRange range self.start

def isContiguousWithRange (self range : Range MediaTime) : Bool :=
  range.start = self.stop ∨ range.stop = self.start

def unionWithOverlappingOrContiguousRange (self range : Range MediaTime) : Range MediaTime :=
  ⟨min self.start range.start, max self.stop range.stop⟩

def isBeforeRange (self range : Range MediaTime) : Bool := self.stop ≤ range.start

end Range

/-- `m_ranges`. -/
abbrev PlatformTimeRanges (MediaTime : Type*) := List (Range MediaTime)

namespace PlatformTimeRanges

/-- What the loop of `add` leaves: the ranges, the insertion point and the range to insert. -/
structure AddState (MediaTime : Type*) where
  ranges : PlatformTimeRanges MediaTime
  overlappingArcIndex : ℕ
  addedRange : Range MediaTime

/-- The loop of `add`. An index that is decremented for a removal, below 0 included, is
incremented again before it is next used. -/
def addLoop (ranges : PlatformTimeRanges MediaTime) (overlappingArcIndex : ℕ)
    (addedRange : Range MediaTime) : AddState MediaTime :=
  if h : overlappingArcIndex < ranges.length then
    let range := ranges[overlappingArcIndex]
    if Range.isOverlappingRange addedRange range ||
        Range.isContiguousWithRange addedRange range then
      addLoop (ranges.eraseIdx overlappingArcIndex) overlappingArcIndex
        (Range.unionWithOverlappingOrContiguousRange addedRange range)
    else if overlappingArcIndex = 0 then
      if Range.isBeforeRange addedRange range then ⟨ranges, overlappingArcIndex, addedRange⟩
      else addLoop ranges (overlappingArcIndex + 1) addedRange
    else if Range.isBeforeRange ranges[overlappingArcIndex - 1] addedRange &&
        Range.isBeforeRange addedRange range then
      ⟨ranges, overlappingArcIndex, addedRange⟩
    else addLoop ranges (overlappingArcIndex + 1) addedRange
  else ⟨ranges, overlappingArcIndex, addedRange⟩
termination_by ranges.length - overlappingArcIndex
decreasing_by
  · rw [length_eraseIdx_of_lt h]
    omega
  · omega
  · omega

def add (ranges : PlatformTimeRanges MediaTime) (start stop : MediaTime) :
    PlatformTimeRanges MediaTime :=
  let state := addLoop ranges 0 ⟨start, stop⟩
  state.ranges.insertIdx state.overlappingArcIndex state.addedRange

def copy (ranges other : PlatformTimeRanges MediaTime) : PlatformTimeRanges MediaTime :=
  other.foldl (fun ranges range => add ranges range.start range.stop) ranges

def unionWith (ranges other : PlatformTimeRanges MediaTime) : PlatformTimeRanges MediaTime :=
  let unioned := copy [] ranges
  other.foldl (fun unioned range => add unioned range.start range.stop) unioned

section Invert

variable [BoundedOrder MediaTime]

/-- The loop of `invert` over neighbouring ranges. -/
def addGaps (inverted : PlatformTimeRanges MediaTime) :
    PlatformTimeRanges MediaTime → PlatformTimeRanges MediaTime
  | range :: next :: rest => addGaps (add inverted range.stop next.start) (next :: rest)
  | _ => inverted

def invert (ranges : PlatformTimeRanges MediaTime) : PlatformTimeRanges MediaTime :=
  match ranges with
  | [] => add [] ⊥ ⊤
  | first :: rest =>
    let inverted := if first.start ≠ ⊥ then add [] ⊥ first.start else []
    let inverted := addGaps inverted (first :: rest)
    let last := (first :: rest).getLast (cons_ne_nil first rest)
    if last.stop ≠ ⊤ then add inverted last.stop ⊤ else inverted

def intersectWith (ranges other : PlatformTimeRanges MediaTime) : PlatformTimeRanges MediaTime :=
  let invertedOther := invert (copy [] other)
  invert (unionWith (invert ranges) invertedOther)

end Invert

/-!
## The ranges are sets of times in normal form

Every object that the methods can build is separated, and the methods are the operations
on the sets it covers: `add` a union with an interval, `unionWith` and `intersectWith`
union and intersection, `invert` the complement. No half-open interval has a last time, so
the complement is taken in the times before the positive infinite one.
-/

section Add

variable {pre post : PlatformTimeRanges MediaTime} {range added : Range MediaTime}

theorem apart_iff (hadded : added.start ≤ added.stop) (hrange : range.start ≤ range.stop) :
    (Range.isOverlappingRange added range || Range.isContiguousWithRange added range) = false ↔
      added.stop < range.start ∨ range.stop < added.start := by
  simp only [Range.isOverlappingRange, Range.isContiguousWithRange, Range.isPointInRange,
    Bool.or_eq_false_iff, decide_eq_false_iff_not, not_and, not_lt, not_or]
  constructor
  · rintro ⟨⟨⟨h1, h2⟩, h3⟩, h4, h5⟩
    rcases lt_or_ge added.stop range.start with h | h
    · exact .inl h
    · refine .inr (lt_of_not_ge fun hle => ?_)
      have hstart : range.start < added.start := by
        by_contra hge
        exact h4 (le_antisymm (h1 (not_lt.mp hge)) h).symm
      exact h5 (le_antisymm (h3 hstart.le) hle)
  · rintro (h | h)
    · have hlt := hadded.trans_lt h
      refine ⟨⟨⟨fun _ => h.le, fun _ => h.le.trans hrange⟩, fun h' => ?_⟩, h.ne', fun h' => ?_⟩
      · exact absurd hlt (not_lt.mpr h')
      · exact absurd (hlt.trans_le hrange) (not_lt.mpr h'.le)
    · have hlt := hrange.trans_lt h
      refine ⟨⟨⟨fun h' => ?_, fun h' => ?_⟩, fun _ => h.le⟩, fun h' => ?_, h.ne⟩
      · exact absurd hlt (not_lt.mpr h')
      · exact absurd h (not_lt.mpr h')
      · exact absurd (hlt.trans_le hadded) (not_lt.mpr h'.ge)

theorem points_union (hadded : added.start ≤ added.stop) (hrange : range.start ≤ range.stop)
    (h : (Range.isOverlappingRange added range || Range.isContiguousWithRange added range) = true) :
    (Range.unionWithOverlappingOrContiguousRange added range).points =
      added.points ∪ range.points := by
  have hnot := mt (apart_iff hadded hrange).mpr (by rw [h]; exact Bool.noConfusion)
  push Not at hnot
  exact (Set.Ico_union_Ico' hnot.1 hnot.2).symm

theorem addLoop_nil : addLoop pre pre.length added = ⟨pre, pre.length, added⟩ := by
  rw [addLoop, dif_neg (lt_irrefl _)]

/-- Where the ranges in front all stop before the added one, the two ways to find the
insertion point are one. -/
theorem addLoop_cons (hpre : ∀ r ∈ pre, r.stop < added.start) :
    addLoop (pre ++ range :: post) pre.length added =
      if (Range.isOverlappingRange added range || Range.isContiguousWithRange added range) then
        addLoop (pre ++ post) pre.length (Range.unionWithOverlappingOrContiguousRange added range)
      else if Range.isBeforeRange added range then ⟨pre ++ range :: post, pre.length, added⟩
      else addLoop (pre ++ range :: post) (pre.length + 1) added := by
  have hlt : pre.length < (pre ++ range :: post).length := by simp
  have hget : (pre ++ range :: post)[pre.length] = range := by simp
  have herase : (pre ++ range :: post).eraseIdx pre.length = pre ++ post := by
    rw [eraseIdx_append_of_length_le le_rfl, Nat.sub_self, eraseIdx_cons_zero]
  rw [addLoop, dif_pos hlt]
  rw [hget, herase]
  by_cases hmerge :
      (Range.isOverlappingRange added range || Range.isContiguousWithRange added range) = true
  · rw [if_pos hmerge, if_pos hmerge]
  rw [if_neg hmerge, if_neg hmerge]
  rcases pre.eq_nil_or_concat with rfl | ⟨init, last, rfl⟩
  · rfl
  · have hlast : (init.concat last ++ range :: post)[(init.concat last).length - 1] = last := by
      simp
    have hbef : Range.isBeforeRange last added = true := decide_eq_true (hpre last (by simp)).le
    rw [if_neg (by simp), hlast, hbef, Bool.true_and]

/-- Where ranges are merged, a list that both refine is refined by the merged range. -/
theorem refines_merge {k : List (Range MediaTime)} (hk : Apart k)
    (hadded : added.start ≤ added.stop) (hrange : range.start ≤ range.stop)
    (h : (Range.isOverlappingRange added range || Range.isContiguousWithRange added range) = true) :
    (∃ s ∈ k, (Range.unionWithOverlappingOrContiguousRange added range).Within s) ↔
      (∃ s ∈ k, added.Within s) ∧ ∃ s ∈ k, range.Within s := by
  have hmeet : ¬ (added.stop < range.start ∨ range.stop < added.start) := by
    rw [← apart_iff hadded hrange, h]
    exact Bool.noConfusion
  rw [hk.exists_of_within hmeet]
  refine exists_congr fun s => and_congr_right fun _ => ?_
  exact Interval.hull_within_iff

/-- The loop merges what meets or touches the added range and finds the place of the result. -/
theorem addLoop_isJoin (hapart : Apart (pre ++ post)) (hadded : added.start ≤ added.stop)
    (hpre : ∀ r ∈ pre, r.stop < added.start) :
    ∃ pre' post' merged, addLoop (pre ++ post) pre.length added =
        ⟨pre' ++ post', pre'.length, merged⟩ ∧
      IsJoin (pre ++ post) [added] (pre' ++ merged :: post') ∧
      covers (pre' ++ merged :: post') = covers (pre ++ post) ∪ added.points := by
  induction post generalizing pre added with
  | nil =>
    refine ⟨pre, [], added, by simpa using addLoop_nil, ⟨?_, fun k _ => ?_⟩, by simp⟩
    · rw [append_nil] at hapart
      refine append_iff.mpr ⟨hapart, cons_iff.mpr ⟨hadded, by simp, .nil⟩, ?_⟩
      simpa using hpre
    · rw [append_nil, refines_append]
  | cons range post ih =>
    obtain ⟨hl, hr, hlr⟩ := append_iff.mp hapart
    obtain ⟨hrange, hhead, hpost⟩ := cons_iff.mp hr
    rw [addLoop_cons hpre]
    split
    · next hmerge =>
      have hrest : Apart (pre ++ post) := append_iff.mpr
        ⟨hl, hpost, fun r hr s hs => hlr r hr s (mem_cons_of_mem range hs)⟩
      obtain ⟨pre', post', merged, heq, hjoin, hcov⟩ :=
        @ih pre (Range.unionWithOverlappingOrContiguousRange added range) hrest
          ((min_le_left added.start range.start).trans (hadded.trans (le_max_left _ _)))
          (fun r hr => lt_min (hpre r hr) (hlr r hr range mem_cons_self))
      refine ⟨pre', post', merged, heq, ⟨hjoin.apart, fun k hk => ?_⟩, ?_⟩
      · rw [hjoin.refines_iff k hk, refines_singleton, refines_merge hk hadded hrange hmerge,
          refines_append, refines_append, refines_cons, refines_singleton]
        constructor
        · rintro ⟨⟨hprek, hpostk⟩, haddedk, hrangek⟩
          exact ⟨⟨hprek, hrangek, hpostk⟩, haddedk⟩
        · rintro ⟨⟨hprek, hrangek, hpostk⟩, haddedk⟩
          exact ⟨⟨hprek, hpostk⟩, haddedk, hrangek⟩
      · rw [hcov, points_union hadded hrange hmerge, covers_append, covers_append, covers_cons]
        ext t
        simp only [Set.mem_union]
        tauto
    · next hmerge =>
      rw [Bool.not_eq_true, apart_iff hadded hrange] at hmerge
      split
      · next hbef =>
        have hlt : added.stop < range.start := by
          refine hmerge.resolve_right fun h => ?_
          have hle : added.stop ≤ range.start := by simpa [Range.isBeforeRange] using hbef
          exact absurd (hrange.trans_lt (h.trans_le hadded)) (not_lt.mpr hle)
        refine ⟨pre, range :: post, added, rfl, ⟨?_, fun k _ => ?_⟩, ?_⟩
        · refine append_iff.mpr ⟨hl, cons_iff.mpr ⟨hadded, ?_, hr⟩, ?_⟩
          · refine forall_mem_cons.mpr ⟨hlt, fun s hs => ?_⟩
            exact hlt.trans (hrange.trans_lt (hhead s hs))
          · exact fun r hr => forall_mem_cons.mpr ⟨hpre r hr, hlr r hr⟩
        · rw [refines_append, refines_append, refines_cons, refines_cons, refines_singleton]
          constructor
          · rintro ⟨hprek, haddedk, hpostk⟩
            exact ⟨⟨hprek, hpostk⟩, haddedk⟩
          · rintro ⟨⟨hprek, hpostk⟩, haddedk⟩
            exact ⟨hprek, haddedk, hpostk⟩
        · rw [covers_append, covers_cons (r := added), covers_append, Set.union_assoc,
            Set.union_comm added.points]
      · next hbef =>
        have hlt : range.stop < added.start := by
          refine hmerge.resolve_left fun h => hbef ?_
          simpa [Range.isBeforeRange] using h.le
        have hpre' : ∀ r ∈ pre ++ [range], r.stop < added.start := by
          intro r hr
          rcases mem_append.mp hr with hr | hr
          · exact hpre r hr
          · rw [mem_singleton.mp hr]
            exact hlt
        simpa using @ih (pre ++ [range]) added (by simpa using hapart) hadded hpre'

end Add

variable {ranges other : PlatformTimeRanges MediaTime} {start stop : MediaTime}

theorem insertIdx_length_append {α : Type*} (pre post : List α) (a : α) :
    (pre ++ post).insertIdx pre.length a = pre ++ a :: post := by
  induction pre with
  | nil => rfl
  | cons b pre ih => simpa using ih

theorem add_isJoin (hranges : Apart ranges) (h : start ≤ stop) :
    IsJoin ranges [⟨start, stop⟩] (add ranges start stop) ∧
      covers (add ranges start stop) = covers ranges ∪ Set.Ico start stop := by
  obtain ⟨pre, post, merged, heq, hjoin⟩ :=
    @addLoop_isJoin _ _ [] ranges ⟨start, stop⟩ hranges h (by simp)
  have hadd : add ranges start stop = pre ++ merged :: post := by
    rw [nil_append, length_nil] at heq
    rw [add, heq]
    exact insertIdx_length_append pre post merged
  rw [hadd]
  exact hjoin

theorem copy_isJoin (hranges : Apart ranges) (hother : ∀ range ∈ other, range.start ≤ range.stop) :
    IsJoin ranges other (copy ranges other) ∧
      covers (copy ranges other) = covers ranges ∪ covers other := by
  induction other generalizing ranges with
  | nil => exact ⟨.nil_right hranges, by rw [covers_nil, Set.union_empty]; rfl⟩
  | cons range other ih =>
    obtain ⟨hrange, hrest⟩ := forall_mem_cons.mp hother
    obtain ⟨hadd, hpoints⟩ := add_isJoin hranges hrange
    obtain ⟨hcopy, hcov⟩ := ih hadd.apart hrest
    refine ⟨hadd.append hcopy, hcov.trans ?_⟩
    rw [hpoints, covers_cons, Set.union_assoc]
    rfl

theorem add_spec (hranges : Separated ranges) (h : start < stop) :
    Separated (add ranges start stop) ∧
      covers (add ranges start stop) = covers ranges ∪ Set.Ico start stop := by
  obtain ⟨hjoin, hcov⟩ := add_isJoin hranges.toApart h.le
  exact ⟨hjoin.separated hranges.nonempty (forall_mem_singleton.mpr h), hcov⟩

theorem foldl_add_spec (hranges : Separated ranges) (hother : Separated other) :
    Separated (other.foldl (fun ranges range => add ranges range.start range.stop) ranges) ∧
      covers (other.foldl (fun ranges range => add ranges range.start range.stop) ranges) =
        covers ranges ∪ covers other := by
  obtain ⟨hjoin, hcov⟩ := copy_isJoin hranges.toApart hother.toApart.start_le_stop
  exact ⟨hjoin.separated hranges.nonempty hother.nonempty, hcov⟩

theorem copy_nil (hother : Separated other) : copy [] other = other := by
  obtain ⟨hsep, hcov⟩ := foldl_add_spec .nil hother
  exact hsep.ext hother (by simpa using hcov)

theorem unionWith_spec (hranges : Separated ranges) (hother : Separated other) :
    Separated (unionWith ranges other) ∧
      covers (unionWith ranges other) = covers ranges ∪ covers other := by
  rw [unionWith, copy_nil hranges]
  exact foldl_add_spec hranges hother

section Invert

variable {inverted : PlatformTimeRanges MediaTime} {first : Range MediaTime}
  {rest : PlatformTimeRanges MediaTime} {t : MediaTime}

/-- The last range of the vector. -/
abbrev lastRange (first : Range MediaTime) (rest : PlatformTimeRanges MediaTime) :
    Range MediaTime :=
  (first :: rest).getLast (cons_ne_nil first rest)

theorem stop_le_lastRange (h : Separated (first :: rest)) :
    first.stop ≤ (lastRange first rest).stop := by
  obtain ⟨-, hhead, hrest⟩ := Separated.cons_iff.mp h
  rcases mem_cons.mp (getLast_mem (cons_ne_nil first rest)) with hlast | hlast
  · rw [lastRange, hlast]
  · exact ((hhead _ hlast).trans (hrest.nonempty _ hlast)).le

theorem lt_lastRange (h : Separated (first :: rest)) (ht : t ∈ covers (first :: rest)) :
    t < (lastRange first rest).stop := by
  induction rest generalizing first with
  | nil => exact (by simpa using ht : t ∈ first.points).2
  | cons next rest ih =>
    obtain ⟨-, hhead, hrest⟩ := Separated.cons_iff.mp h
    rw [covers_cons] at ht
    rcases ht with ht | ht
    · exact ht.2.trans ((hhead next mem_cons_self).trans
        ((hrest.nonempty next mem_cons_self).trans_le (stop_le_lastRange hrest)))
    · exact ih hrest ht

theorem addGaps_spec (hinv : Separated inverted) (hranges : Separated (first :: rest)) :
    Separated (addGaps inverted (first :: rest)) ∧
      ∀ t, t ∈ covers (addGaps inverted (first :: rest)) ↔ t ∈ covers inverted ∨
        (first.stop ≤ t ∧ t < (lastRange first rest).stop ∧ t ∉ covers rest) := by
  induction rest generalizing inverted first with
  | nil =>
    refine ⟨hinv, fun t => ⟨.inl, ?_⟩⟩
    rintro (h | ⟨h, h', -⟩)
    · exact h
    · exact absurd h' (not_lt.mpr h)
  | cons next rest ih =>
    obtain ⟨-, hhead, hrest⟩ := Separated.cons_iff.mp hranges
    have hgap := hhead next mem_cons_self
    have hnext := hrest.nonempty next mem_cons_self
    have hlast := stop_le_lastRange hrest
    obtain ⟨hsep, hcov⟩ := add_spec hinv hgap
    obtain ⟨hsep', hcov'⟩ := ih hsep hrest
    refine ⟨hsep', fun t => ?_⟩
    have hlastRange : lastRange first (next :: rest) = lastRange next rest := getLast_cons_cons
    rw [addGaps, hcov', hcov, hlastRange, covers_cons, Set.mem_union, Set.mem_union,
      Set.mem_Ico, mem_points]
    -- a time in a later range is behind the stop of this one
    have htail : t ∈ covers rest → next.stop < t := fun ht => hrest.lt_of_mem_tail ht
    grind

section Bounded

variable [BoundedOrder MediaTime]

theorem addStart_spec (start : MediaTime) : Separated (if start ≠ ⊥ then add [] ⊥ start else []) ∧
      covers (if start ≠ ⊥ then add [] ⊥ start else []) = Set.Iio start := by
  split
  · next h =>
    obtain ⟨hsep, hcov⟩ := add_spec .nil (bot_lt_iff_ne_bot.mpr h)
    exact ⟨hsep, by rw [hcov, covers_nil, Set.empty_union, Set.Ico_bot]⟩
  · next h =>
    rw [not_not] at h
    exact ⟨.nil, by rw [h, covers_nil, Set.Iio_bot]⟩

theorem addStop_spec (hinv : Separated inverted) (stop : MediaTime) :
    Separated (if stop ≠ ⊤ then add inverted stop ⊤ else inverted) ∧
      covers (if stop ≠ ⊤ then add inverted stop ⊤ else inverted) =
        covers inverted ∪ Set.Ico stop ⊤ := by
  split
  · next h => exact add_spec hinv (lt_top_iff_ne_top.mpr h)
  · next h =>
    rw [not_not] at h
    exact ⟨hinv, by rw [h, Set.Ico_self, Set.union_empty]⟩

theorem invert_spec [Nontrivial MediaTime] (hranges : Separated ranges) :
    Separated (invert ranges) ∧ covers (invert ranges) = Set.Iio ⊤ \ covers ranges := by
  cases ranges with
  | nil =>
    obtain ⟨hsep, hcov⟩ := add_spec (.nil : Separated ([] : PlatformTimeRanges MediaTime))
      bot_lt_top
    refine ⟨hsep, ?_⟩
    rw [invert, hcov, covers_nil, Set.empty_union, Set.Ico_bot, Set.sdiff_empty]
  | cons first rest =>
    obtain ⟨hstart, hcstart⟩ := addStart_spec first.start
    obtain ⟨hgaps, hcgaps⟩ := addGaps_spec hstart hranges
    obtain ⟨hsep, hcov⟩ := addStop_spec hgaps (lastRange first rest).stop
    refine ⟨hsep, ?_⟩
    ext t
    have hsplit := (hcgaps t)
    have hfirst := hranges.nonempty first mem_cons_self
    have hlast := stop_le_lastRange hranges
    have hbef : t ∈ covers rest → first.stop < t := fun ht => hranges.lt_of_mem_tail ht
    have hbehind : t ∈ covers (first :: rest) → t < (lastRange first rest).stop :=
      lt_lastRange hranges
    change t ∈ covers (if (lastRange first rest).stop ≠ ⊤ then _ else _) ↔ _
    rw [hcov, Set.mem_union, hsplit, hcstart]
    rw [covers_cons] at hbehind ⊢
    simp only [Set.mem_union, Set.mem_sdiff, Set.mem_Iio, Set.mem_Ico, mem_points] at hbehind ⊢
    grind

theorem intersectWith_spec [Nontrivial MediaTime] (hranges : Separated ranges)
    (hother : Separated other) :
    Separated (intersectWith ranges other) ∧
      covers (intersectWith ranges other) = covers ranges ∩ covers other := by
  obtain ⟨hr, hcr⟩ := invert_spec hranges
  obtain ⟨ho, hco⟩ := invert_spec hother
  obtain ⟨hu, hcu⟩ := unionWith_spec hr ho
  obtain ⟨hi, hci⟩ := invert_spec hu
  rw [intersectWith, copy_nil hother]
  refine ⟨hi, ?_⟩
  have hlt : ∀ t ∈ covers ranges, t < ⊤ := fun t ⟨r, _, ht⟩ => ht.2.trans_le le_top
  ext t
  grind

end Bounded

end Invert

section Reachable

variable [BoundedOrder MediaTime]

/-- The objects that the methods build from the empty one. -/
inductive Reachable : PlatformTimeRanges MediaTime → Prop
  | empty : Reachable []
  | add {ranges : PlatformTimeRanges MediaTime} {start stop : MediaTime} :
      Reachable ranges → start < stop → Reachable (add ranges start stop)
  | unionWith {ranges other : PlatformTimeRanges MediaTime} :
      Reachable ranges → Reachable other → Reachable (unionWith ranges other)
  | intersectWith {ranges other : PlatformTimeRanges MediaTime} :
      Reachable ranges → Reachable other → Reachable (intersectWith ranges other)
  | invert {ranges : PlatformTimeRanges MediaTime} :
      Reachable ranges → Reachable (invert ranges)

variable [Nontrivial MediaTime]

theorem Reachable.separated (h : Reachable ranges) : Separated ranges := by
  induction h with
  | empty => exact .nil
  | add _ hlt ih => exact (add_spec ih hlt).1
  | unionWith _ _ ih1 ih2 => exact (unionWith_spec ih1 ih2).1
  | intersectWith _ _ ih1 ih2 => exact (intersectWith_spec ih1 ih2).1
  | invert _ ih => exact (invert_spec ih).1

theorem invert_invert (h : Separated ranges) : invert (invert ranges) = ranges := by
  obtain ⟨hsep, hcov⟩ := invert_spec h
  obtain ⟨hsep', hcov'⟩ := invert_spec hsep
  refine hsep'.ext h ?_
  have hlt : ∀ t ∈ covers ranges, t < ⊤ := fun t ⟨r, _, ht⟩ => ht.2.trans_le le_top
  ext t
  grind

omit [BoundedOrder MediaTime] [Nontrivial MediaTime] in
theorem add_comm (h : Separated ranges) {start' stop' : MediaTime} (hlt : start < stop)
    (hlt' : start' < stop') :
    add (add ranges start stop) start' stop' = add (add ranges start' stop') start stop := by
  obtain ⟨hs, hc⟩ := add_spec h hlt
  obtain ⟨hs', hc'⟩ := add_spec h hlt'
  obtain ⟨hs1, hc1⟩ := add_spec hs hlt'
  obtain ⟨hs2, hc2⟩ := add_spec hs' hlt
  refine hs1.ext hs2 ?_
  rw [hc1, hc2, hc, hc', Set.union_right_comm]

omit [BoundedOrder MediaTime] [Nontrivial MediaTime] in
theorem add_idem (h : Separated ranges) (hlt : start < stop) :
    add (add ranges start stop) start stop = add ranges start stop := by
  obtain ⟨hs, hc⟩ := add_spec h hlt
  obtain ⟨hs', hc'⟩ := add_spec hs hlt
  refine hs'.ext hs ?_
  rw [hc', hc, Set.union_assoc, Set.union_self]

/-- Every object that can be built is in normal form, and the methods are the operations
on the sets of times that the objects cover. -/
theorem reachable_sound (h : Reachable ranges) : Separated ranges ∧ (∀ start stop, start < stop →
        covers (add ranges start stop) = covers ranges ∪ Set.Ico start stop) ∧
      (∀ other, Reachable other → covers (unionWith ranges other) = covers ranges ∪ covers other) ∧
      (∀ other, Reachable other →
        covers (intersectWith ranges other) = covers ranges ∩ covers other) ∧
      covers (invert ranges) = Set.Iio ⊤ \ covers ranges ∧
      invert (invert ranges) = ranges ∧
      (∀ start stop start' stop', start < stop → start' < stop' →
        add (add ranges start stop) start' stop' = add (add ranges start' stop') start stop) ∧
      (∀ start stop, start < stop →
        add (add ranges start stop) start stop = add ranges start stop) := by
  have hsep := h.separated
  refine ⟨hsep, fun _ _ hlt => (add_spec hsep hlt).2, fun _ ho => ?_, fun _ ho => ?_,
    (invert_spec hsep).2, invert_invert hsep, fun _ _ _ _ hlt hlt' => ?_, fun _ _ hlt => ?_⟩
  · exact (unionWith_spec hsep ho.separated).2
  · exact (intersectWith_spec hsep ho.separated).2
  · exact add_comm hsep hlt hlt'
  · exact add_idem hsep hlt

/-- The object with one range `[0, 1)`, with infinite times around the naturals. -/
theorem reachable_sound_singleton :
    let ranges : PlatformTimeRanges (WithBot (WithTop ℕ)) :=
      add [] ((0 : ℕ) : WithTop ℕ) ((1 : ℕ) : WithTop ℕ)
    Separated ranges ∧ invert (invert ranges) = ranges := by
  have hlt : (((0 : ℕ) : WithTop ℕ) : WithBot (WithTop ℕ)) < ((1 : ℕ) : WithTop ℕ) :=
    WithBot.coe_lt_coe.mpr (WithTop.coe_lt_coe.mpr Nat.zero_lt_one)
  have h := reachable_sound (.add .empty hlt)
  exact ⟨h.1, h.2.2.2.2.2.1⟩

end Reachable

end PlatformTimeRanges

end WebKit.Graphics
