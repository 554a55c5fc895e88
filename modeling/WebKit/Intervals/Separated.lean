import Mathlib.Order.Interval.Set.Basic
import Mathlib.Data.List.Pairwise

/-!
# Lists of half-open intervals

A list of intervals `[start, stop)` stands for the set of points it covers. A list is
separated when its intervals are not empty and each of them stops before the next one
starts, so that no two of them touch. A separated list is determined by the set it covers
(`Separated.ext`): it is a normal form for the finite unions of intervals.
-/

namespace Intervals

open List

structure Interval (α : Type*) where
  start : α
  stop : α
  deriving DecidableEq, Repr

variable {α : Type*} [LinearOrder α]

/-- The points of the interval. -/
def Interval.points (r : Interval α) : Set α := Set.Ico r.start r.stop

/-- The points of all the intervals. -/
def covers (l : List (Interval α)) : Set α := {t | ∃ r ∈ l, t ∈ r.points}

structure Separated (l : List (Interval α)) : Prop where
  nonempty : ∀ r ∈ l, r.start < r.stop
  apart : l.Pairwise fun r s => r.stop < s.start

variable {l m : List (Interval α)} {r s : Interval α} {t : α}

@[simp] theorem covers_nil : covers ([] : List (Interval α)) = ∅ := by
  ext t
  simp [covers]

@[simp] theorem covers_cons : covers (r :: l) = r.points ∪ covers l := by
  ext t
  simp [covers]

@[simp] theorem covers_append : covers (l ++ m) = covers l ∪ covers m := by
  ext t
  simp only [covers, mem_append, Set.mem_ofPred_eq, Set.mem_union]
  constructor
  · rintro ⟨r, hr | hr, ht⟩
    · exact .inl ⟨r, hr, ht⟩
    · exact .inr ⟨r, hr, ht⟩
  · rintro (⟨r, hr, ht⟩ | ⟨r, hr, ht⟩)
    · exact ⟨r, .inl hr, ht⟩
    · exact ⟨r, .inr hr, ht⟩

theorem mem_points : t ∈ r.points ↔ r.start ≤ t ∧ t < r.stop := .rfl

namespace Separated

theorem nil : Separated ([] : List (Interval α)) := ⟨fun _ h => absurd h not_mem_nil, .nil⟩

theorem cons_iff : Separated (r :: l) ↔
    r.start < r.stop ∧ (∀ s ∈ l, r.stop < s.start) ∧ Separated l := by
  constructor
  · intro h
    obtain ⟨hhead, htail⟩ := pairwise_cons.mp h.apart
    exact ⟨h.nonempty r mem_cons_self, hhead,
      fun s hs => h.nonempty s (mem_cons_of_mem r hs), htail⟩
  · rintro ⟨hr, hhead, hl⟩
    exact ⟨forall_mem_cons.mpr ⟨hr, hl.nonempty⟩, pairwise_cons.mpr ⟨hhead, hl.apart⟩⟩

section

variable (h : Separated (r :: l))
include h

theorem lt_of_mem_tail (ht : t ∈ covers l) : r.stop < t := by
  obtain ⟨s, hs, hst⟩ := ht
  exact ((cons_iff.mp h).2.1 s hs).trans_le hst.1

theorem start_le (ht : t ∈ covers (r :: l)) : r.start ≤ t := by
  rw [covers_cons] at ht
  rcases ht with ht | ht
  · exact ht.1
  · exact ((cons_iff.mp h).1.trans (h.lt_of_mem_tail ht)).le

theorem start_mem : r.start ∈ covers (r :: l) := by
  rw [covers_cons]
  exact .inl ⟨le_rfl, (cons_iff.mp h).1⟩

theorem stop_not_mem : r.stop ∉ covers (r :: l) := by
  rw [covers_cons]
  rintro (ht | ht)
  · exact lt_irrefl _ ht.2
  · exact lt_irrefl _ (h.lt_of_mem_tail ht)

end

theorem stop_le (hr : Separated (r :: l)) (hstart : r.start = s.start)
    (h : covers (r :: l) = covers (s :: m)) : s.stop ≤ r.stop := by
  by_contra hlt
  apply hr.stop_not_mem
  rw [h, covers_cons]
  exact .inl ⟨hstart ▸ (cons_iff.mp hr).1.le, not_le.mp hlt⟩

theorem tail_eq (h : Separated (r :: l)) : covers l = covers (r :: l) \ r.points := by
  rw [covers_cons]
  ext t
  constructor
  · intro ht
    exact ⟨.inr ht, fun hr => lt_asymm hr.2 (h.lt_of_mem_tail ht)⟩
  · rintro ⟨ht | ht, hr⟩
    · exact absurd ht hr
    · exact ht

theorem ext (hl : Separated l) (hm : Separated m) (h : covers l = covers m) : l = m := by
  induction l generalizing m with
  | nil =>
    cases m with
    | nil => rfl
    | cons s m => exact absurd (h ▸ hm.start_mem) (by simp)
  | cons r l ih =>
    cases m with
    | nil => exact absurd (h ▸ hl.start_mem) (by simp)
    | cons s m =>
      have hstart : r.start = s.start :=
        le_antisymm (hl.start_le (h ▸ hm.start_mem)) (hm.start_le (h ▸ hl.start_mem))
      have hstop : r.stop = s.stop :=
        le_antisymm (hm.stop_le hstart.symm h.symm) (hl.stop_le hstart h)
      have hrs : r = s := by
        cases r
        cases s
        cases hstart
        cases hstop
        rfl
      subst hrs
      have htail : covers l = covers m := by rw [hl.tail_eq, hm.tail_eq, h]
      rw [ih (cons_iff.mp hl).2.2 (cons_iff.mp hm).2.2 htail]

end Separated

end Intervals
