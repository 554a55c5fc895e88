import Mathlib.Data.List.Nodup
import Mathlib.Order.MinMax
import WebKit.Intervals.Separated

/-!
# Joins of lists of intervals

A list of intervals refines another one when each of its intervals lies within one of the
other's. Where intervals may be empty, a list stands for more than the points it covers; the
lists whose intervals are apart are ordered by refinement (`Apart.antisymm`). A list that is
refined just by what refines two lists is their join (`IsJoin`).
-/

namespace Intervals

open List

variable {α : Type*} [LinearOrder α]

def Interval.Within (r s : Interval α) : Prop := s.start ≤ r.start ∧ r.stop ≤ s.stop

def Refines (l m : List (Interval α)) : Prop := ∀ r ∈ l, ∃ s ∈ m, r.Within s

/-- Each interval stops before the next one starts. -/
structure Apart (l : List (Interval α)) : Prop where
  start_le_stop : ∀ r ∈ l, r.start ≤ r.stop
  pairwise : l.Pairwise fun r s => r.stop < s.start

/-- Of the lists that are apart, `j` is the first one that both lists refine. -/
structure IsJoin (l m j : List (Interval α)) : Prop where
  apart : Apart j
  refines_iff : ∀ k, Apart k → (Refines j k ↔ Refines l k ∧ Refines m k)

variable {l m k j : List (Interval α)} {r s t : Interval α}

theorem Interval.Within.refl (r : Interval α) : r.Within r := ⟨le_rfl, le_rfl⟩

theorem Interval.Within.trans (h : r.Within s) (h' : s.Within t) : r.Within t :=
  ⟨h'.1.trans h.1, h.2.trans h'.2⟩

theorem Interval.Within.antisymm (h : r.Within s) (h' : s.Within r) : r = s := by
  cases r
  cases s
  obtain rfl := le_antisymm h'.1 h.1
  obtain rfl := le_antisymm h.2 h'.2
  rfl

theorem Interval.hull_within_iff :
    (⟨min r.start s.start, max r.stop s.stop⟩ : Interval α).Within t ↔ r.Within t ∧ s.Within t := by
  simp only [Interval.Within, le_min_iff, max_le_iff]
  tauto

theorem Refines.refl (l : List (Interval α)) : Refines l l := fun r hr => ⟨r, hr, .refl r⟩

theorem refines_nil : Refines [] m := fun _ hr => absurd hr not_mem_nil

theorem refines_cons : Refines (r :: l) m ↔ (∃ s ∈ m, r.Within s) ∧ Refines l m := forall_mem_cons

theorem refines_append : Refines (l ++ m) k ↔ Refines l k ∧ Refines m k := forall_mem_append

theorem refines_singleton : Refines [r] m ↔ ∃ s ∈ m, r.Within s := forall_mem_singleton

theorem Separated.toApart (h : Separated l) : Apart l := ⟨fun r hr => (h.nonempty r hr).le, h.apart⟩

namespace Apart

theorem nil : Apart ([] : List (Interval α)) := ⟨fun _ h => absurd h not_mem_nil, .nil⟩

theorem append_iff : Apart (l ++ m) ↔ Apart l ∧ Apart m ∧ ∀ r ∈ l, ∀ s ∈ m, r.stop < s.start := by
  constructor
  · intro h
    obtain ⟨hl, hm, hlm⟩ := pairwise_append.mp h.pairwise
    obtain ⟨hl', hm'⟩ := forall_mem_append.mp h.start_le_stop
    exact ⟨⟨hl', hl⟩, ⟨hm', hm⟩, hlm⟩
  · rintro ⟨hl, hm, hlm⟩
    exact ⟨forall_mem_append.mpr ⟨hl.start_le_stop, hm.start_le_stop⟩,
      pairwise_append.mpr ⟨hl.pairwise, hm.pairwise, hlm⟩⟩

theorem cons_iff : Apart (r :: l) ↔ r.start ≤ r.stop ∧ (∀ s ∈ l, r.stop < s.start) ∧ Apart l := by
  constructor
  · intro h
    obtain ⟨hhead, htail⟩ := pairwise_cons.mp h.pairwise
    obtain ⟨hr, hl⟩ := forall_mem_cons.mp h.start_le_stop
    exact ⟨hr, hhead, hl, htail⟩
  · rintro ⟨hr, hhead, hl⟩
    exact ⟨forall_mem_cons.mpr ⟨hr, hl.start_le_stop⟩, pairwise_cons.mpr ⟨hhead, hl.pairwise⟩⟩

theorem lt_or_lt (h : Apart l) (hr : r ∈ l) (hs : s ∈ l) (hne : r ≠ s) :
    r.stop < s.start ∨ s.stop < r.start := by
  have : Std.Symm fun r s : Interval α => r.stop < s.start ∨ s.stop < r.start :=
    ⟨fun _ _ => Or.symm⟩
  exact (h.pairwise.imp (S := fun r s => r.stop < s.start ∨ s.stop < r.start) .inl).forall hr hs hne

theorem eq_of_within (h : Apart l) (hr : r ∈ l) (hs : s ∈ l) (hrs : r.Within s) : r = s := by
  by_contra hne
  have hr' := h.start_le_stop r hr
  rcases h.lt_or_lt hr hs hne with hlt | hlt
  · exact absurd (hlt.trans_le hrs.1) (not_lt.mpr hr')
  · exact absurd (hrs.2.trans_lt hlt) (not_lt.mpr hr')

/-- Two intervals that meet or touch lie within one interval of the list. -/
theorem exists_of_within (h : Apart k) (hmeet : ¬ (r.stop < s.start ∨ s.stop < r.start)) :
    (∃ t ∈ k, r.Within t) ∧ (∃ t ∈ k, s.Within t) ↔ ∃ t ∈ k, r.Within t ∧ s.Within t := by
  constructor
  · rintro ⟨⟨t, ht, hr⟩, t', ht', hs⟩
    have heq : t = t' := by
      by_contra hne
      apply hmeet
      rcases h.lt_or_lt ht ht' hne with hlt | hlt
      · exact .inl ((hr.2.trans_lt hlt).trans_le hs.1)
      · exact .inr ((hs.2.trans_lt hlt).trans_le hr.1)
    exact ⟨t, ht, hr, heq ▸ hs⟩
  · rintro ⟨t, ht, hr, hs⟩
    exact ⟨⟨t, ht, hr⟩, t, ht, hs⟩

theorem nodup (h : Apart l) : l.Nodup := by
  induction l with
  | nil => exact .nil
  | cons r l ih =>
    obtain ⟨hr, hhead, hl⟩ := cons_iff.mp h
    refine nodup_cons.mpr ⟨fun hmem => ?_, ih hl⟩
    exact absurd (hhead r hmem) (not_lt.mpr hr)

theorem antisymm (hl : Apart l) (hm : Apart m) (h : Refines l m) (h' : Refines m l) : l = m := by
  have hsub : ∀ {l m : List (Interval α)}, Apart l → Refines l m → Refines m l →
      ∀ r ∈ l, r ∈ m := by
    intro l m hl h h' r hr
    obtain ⟨s, hs, hrs⟩ := h r hr
    obtain ⟨t, ht, hst⟩ := h' s hs
    obtain rfl := hl.eq_of_within hr ht (hrs.trans hst)
    rwa [hrs.antisymm hst]
  have hperm : l.Perm m := (perm_ext_iff_of_nodup hl.nodup hm.nodup).mpr fun r =>
    ⟨hsub hl h h' r, hsub hm h' h r⟩
  refine hperm.eq_of_pairwise (fun r s hr hs hlt hlt' => ?_) hl.pairwise hm.pairwise
  have hle := (hl.start_le_stop r hr).trans_lt (hlt.trans_le (hm.start_le_stop s hs))
  exact absurd hlt' (not_lt.mpr hle.le)

end Apart

namespace IsJoin

theorem left (h : IsJoin l m j) : Refines l j := ((h.refines_iff j h.apart).mp (.refl j)).1

theorem right (h : IsJoin l m j) : Refines m j := ((h.refines_iff j h.apart).mp (.refl j)).2

theorem eq_right_iff (h : IsJoin l m j) (hm : Apart m) : j = m ↔ Refines l m := by
  constructor
  · rintro rfl
    exact h.left
  · intro hrefines
    exact h.apart.antisymm hm ((h.refines_iff m hm).mpr ⟨hrefines, .refl m⟩) h.right

theorem nil_right (hl : Apart l) : IsJoin l [] l where
  apart := hl
  refines_iff _ _ := (and_iff_left refines_nil).symm

theorem append (h : IsJoin l m j) {m' j' : List (Interval α)} (h' : IsJoin j m' j') :
    IsJoin l (m ++ m') j' where
  apart := h'.apart
  refines_iff k hk := by
    rw [h'.refines_iff k hk, h.refines_iff k hk, refines_append, and_assoc]

/-- An interval of the join without points would not be needed. -/
theorem separated (h : IsJoin l m j) (hl : ∀ r ∈ l, r.start < r.stop)
    (hm : ∀ r ∈ m, r.start < r.stop) : Separated j := by
  have hk : Apart (j.filter fun r => r.start < r.stop) :=
    ⟨fun r hr => h.apart.start_le_stop r (mem_of_mem_filter hr), h.apart.pairwise.filter _⟩
  have hkept : ∀ {n : List (Interval α)}, Refines n j → (∀ r ∈ n, r.start < r.stop) →
      Refines n (j.filter fun r => r.start < r.stop) := by
    intro n hn hpos r hr
    obtain ⟨s, hs, hrs⟩ := hn r hr
    have hlt : s.start < s.stop := hrs.1.trans_lt ((hpos r hr).trans_le hrs.2)
    exact ⟨s, mem_filter.mpr ⟨hs, decide_eq_true hlt⟩, hrs⟩
  refine ⟨fun r hr => ?_, h.apart.pairwise⟩
  obtain ⟨s, hs, hrs⟩ := (h.refines_iff _ hk).mpr ⟨hkept h.left hl, hkept h.right hm⟩ r hr
  obtain ⟨hs', hlt⟩ := mem_filter.mp hs
  obtain rfl := h.apart.eq_of_within hr hs' hrs
  exact of_decide_eq_true hlt

end IsJoin

end Intervals
