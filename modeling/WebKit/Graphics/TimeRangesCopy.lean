import WebKit.Graphics.PlatformTimeRanges

/-!
# Copies of `PlatformTimeRanges`

The constructor and the assignment operator both add the ranges of the other object one by one.
`add` takes ranges that start where they stop, and these stay in the vector where nothing
touches them. So the vectors that `add` builds are lists of intervals that are apart (`Built`),
and `add` makes the join with one more interval (`add_isJoin`). An assignment is a join with
what was there before (`copy_isJoin`): the destination is not cleared.
-/

namespace WebKit.Graphics.PlatformTimeRanges

open Intervals List

variable {MediaTime : Type*} [LinearOrder MediaTime]

/-- `PlatformTimeRanges(const PlatformTimeRanges&)` -/
def copyConstruct (other : PlatformTimeRanges MediaTime) : PlatformTimeRanges MediaTime :=
  copy [] other

/-- `operator=` with another object. -/
def assign (ranges other : PlatformTimeRanges MediaTime) : PlatformTimeRanges MediaTime :=
  copy ranges other

/-- `operator=` of an object with itself: the ranges are read while they change. The index is
checked against the vector, and `none` is an index out of it. -/
def assignSelf (ranges : PlatformTimeRanges MediaTime) : Option (PlatformTimeRanges MediaTime) :=
  (List.range ranges.length).foldlM
    (fun ranges i => ranges[i]?.map fun range => add ranges range.start range.stop) ranges

/-- The objects that `add` builds from the empty one. -/
inductive Built : PlatformTimeRanges MediaTime → Prop
  | empty : Built []
  | add {ranges : PlatformTimeRanges MediaTime} {start stop : MediaTime} :
      Built ranges → start ≤ stop → Built (add ranges start stop)

variable {ranges other : PlatformTimeRanges MediaTime} {range : Range MediaTime}
  {start stop : MediaTime}

theorem add_nil (start stop : MediaTime) : add [] start stop = [⟨start, stop⟩] := by
  have hloop : addLoop [] 0 (⟨start, stop⟩ : Range MediaTime) = ⟨[], 0, ⟨start, stop⟩⟩ :=
    addLoop_nil
  rw [add, hloop]
  rfl

theorem Built.single (h : start ≤ stop) : Built [(⟨start, stop⟩ : Range MediaTime)] :=
  add_nil start stop ▸ .add .empty h

theorem Built.apart (h : Built ranges) : Apart ranges := by
  induction h with
  | empty => exact .nil
  | add _ hle ih => exact (add_isJoin ih hle).1.apart

theorem copyConstruct_eq (hother : Apart other) : copyConstruct other = other :=
  ((copy_isJoin .nil hother.start_le_stop).1.eq_right_iff hother).mpr refines_nil

theorem add_of_mem (hranges : Apart ranges) (hrange : range ∈ ranges) :
    add ranges range.start range.stop = ranges := by
  have hjoin := (add_isJoin hranges (hranges.start_le_stop range hrange)).1
  refine hjoin.apart.antisymm hranges ?_ hjoin.left
  rw [hjoin.refines_iff ranges hranges, refines_singleton]
  exact ⟨.refl ranges, range, hrange, .refl range⟩

theorem assignSelf_eq (hranges : Apart ranges) : assignSelf ranges = some ranges := by
  have hloop : ∀ n ≤ ranges.length, (range n).foldlM
      (fun ranges i => ranges[i]?.map fun range : Range MediaTime =>
        add ranges range.start range.stop) ranges = some ranges := by
    intro n hn
    induction n with
    | zero => rfl
    | succ n ih =>
      have hlt : n < ranges.length := hn
      rw [range_succ, foldlM_append, ih hlt.le]
      change ((ranges[n]?.map _) >>= some) = some ranges
      rw [getElem?_eq_getElem hlt, Option.map_some, add_of_mem hranges (getElem_mem hlt)]
      rfl
  exact hloop ranges.length le_rfl

/-- An assignment leaves the points and the ranges of the other object just if each range that
was there lies within one of its ranges, and the points just if the points that were there are
among its points. A copy has the ranges of the other object, and an assignment to itself
changes nothing. -/
theorem assign_iff (hranges : Built ranges) (hother : Built other) :
    ((covers (assign ranges other) = covers other ∧ assign ranges other = copyConstruct other) ↔
      Refines ranges other) ∧
    (covers (assign ranges other) = covers other ↔ covers ranges ⊆ covers other) ∧
    copyConstruct other = other ∧ assignSelf other = some other := by
  have hapart := hother.apart
  obtain ⟨hjoin, hcovers⟩ := copy_isJoin hranges.apart hapart.start_le_stop
  have hcopy := copyConstruct_eq hapart
  refine ⟨?_, ?_, hcopy, assignSelf_eq hapart⟩
  · rw [hcopy, ← hjoin.eq_right_iff hapart]
    refine ⟨fun h => h.2, fun h => ⟨?_, h⟩⟩
    rw [assign, h]
  · rw [assign, hcovers, Set.union_eq_right]

/-- An object that starts with a range and ends with one of twice its length. -/
theorem assign_iff_double :
    assign [⟨0, 1⟩] [⟨0, 2⟩] = copyConstruct ([⟨0, 2⟩] : PlatformTimeRanges ℕ) := by
  have hbuilt : ∀ stop : ℕ, Built [(⟨0, stop⟩ : Range ℕ)] := fun stop =>
    .single (Nat.zero_le stop)
  have hrefines : Refines [(⟨0, 1⟩ : Range ℕ)] [⟨0, 2⟩] := by
    rw [refines_singleton]
    exact ⟨_, mem_cons_self, le_rfl, by decide⟩
  exact ((assign_iff (hbuilt 1) (hbuilt 2)).1.mpr hrefines).2

/-- What the destination held is still there. -/
theorem assign_keeps : Built [(⟨0, 1⟩ : Range ℕ)] ∧ Built [(⟨5, 6⟩ : Range ℕ)] ∧
      assign [⟨0, 1⟩] [⟨5, 6⟩] = ([⟨0, 1⟩, ⟨5, 6⟩] : PlatformTimeRanges ℕ) ∧
      ¬ (covers (assign [⟨0, 1⟩] [⟨5, 6⟩]) = covers ([⟨5, 6⟩] : PlatformTimeRanges ℕ) ∧
        assign [⟨0, 1⟩] [⟨5, 6⟩] = copyConstruct ([⟨5, 6⟩] : PlatformTimeRanges ℕ)) := by
  have hassign : assign [⟨0, 1⟩] [⟨5, 6⟩] = ([⟨0, 1⟩, ⟨5, 6⟩] : PlatformTimeRanges ℕ) := by
    decide +kernel
  refine ⟨.single (by decide), .single (by decide), hassign, fun h => ?_⟩
  have hcopy : copyConstruct ([⟨5, 6⟩] : PlatformTimeRanges ℕ) = [⟨5, 6⟩] := by
    decide +kernel
  rw [hassign, hcopy] at h
  exact absurd h.2 (by decide)

end WebKit.Graphics.PlatformTimeRanges
