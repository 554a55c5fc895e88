import Mathlib

/-!
# Regions of addresses and how often they cover an address

A region is an interval of addresses given by its start and its size. A list of regions
covers an address as often as the address lies in one of them, so a list of pairwise
disjoint regions is one that covers no address twice (`pairwise_disjoint`), and two lists
cover the same set when they cover every address equally often. Cutting a region in two
changes nothing (`coverage_cut`).
-/

open List

namespace Tiling

/-- The addresses from `start` on, `size` of them. -/
structure Region where
  start : Nat
  size : Nat
  deriving DecidableEq, Repr

namespace Region

variable {r r' : Region} {a : Nat}

/-- The first address after the region. -/
def stop (r : Region) : Nat := r.start + r.size

def Contains (r : Region) (a : Nat) : Prop := r.start ≤ a ∧ a < r.stop

instance (r : Region) : DecidablePred r.Contains := fun _ => inferInstanceAs (Decidable (_ ∧ _))

/-- No address lies in both regions. -/
def Apart (r r' : Region) : Prop := ∀ a, r.Contains a → ¬ r'.Contains a

theorem contains_start (h : 0 < r.size) : r.Contains r.start :=
  ⟨le_refl _, Nat.lt_add_of_pos_right h⟩

theorem contains_last (h : 0 < r.size) : r.Contains (r.stop - 1) := by
  unfold Contains stop
  omega

end Region

/-- How many of the regions contain the address. -/
def coverage (rs : List Region) (a : Nat) : Nat := rs.countP fun r => decide (r.Contains a)

variable {r : Region} {rs rs' : List Region} {a : Nat}

@[simp] theorem coverage_nil : coverage [] a = 0 := rfl

theorem coverage_cons : coverage (r :: rs) a = coverage rs a + if r.Contains a then 1 else 0 := by
  simp [coverage, countP_cons]

theorem coverage_cons_of_contains (h : r.Contains a) :
    coverage (r :: rs) a = coverage rs a + 1 := by
  rw [coverage_cons, if_pos h]

theorem coverage_append : coverage (rs ++ rs') a = coverage rs a + coverage rs' a := countP_append

theorem coverage_perm (h : rs.Perm rs') : coverage rs a = coverage rs' a := h.countP_eq _

theorem coverage_eq_zero : coverage rs a = 0 ↔ ∀ r ∈ rs, ¬ r.Contains a := by
  simp [coverage]

theorem coverage_pos : 0 < coverage rs a ↔ ∃ r ∈ rs, r.Contains a := by
  simp [coverage]

theorem coverage_pos_of_mem (hr : r ∈ rs) (ha : r.Contains a) : 0 < coverage rs a :=
  coverage_pos.mpr ⟨r, hr, ha⟩

theorem coverage_cut (s n k a : Nat) :
    coverage [⟨s, n + k⟩] a = coverage [⟨s, n⟩] a + coverage [⟨s + n, k⟩] a := by
  by_cases h1 : (⟨s, n⟩ : Region).Contains a <;>
    by_cases h2 : (⟨s + n, k⟩ : Region).Contains a <;>
    by_cases h : (⟨s, n + k⟩ : Region).Contains a <;>
    simp only [coverage_cons, coverage_nil, h1, h2, h, if_true, if_false] <;>
    unfold Region.Contains Region.stop at h1 h2 h <;> dsimp only at h1 h2 h <;> omega

theorem coverage_singleton : coverage [r] a = if r.Contains a then 1 else 0 := by
  rw [coverage_cons, coverage_nil, zero_add]

theorem coverage_cons' (r : Region) (rs : List Region) : coverage (r :: rs) a = coverage [r] a + coverage rs a := by
  rw [← singleton_append, coverage_append]

@[simp] theorem coverage_empty (s : Nat) : coverage [⟨s, 0⟩] a = 0 := by
  rw [coverage_singleton, if_neg]
  unfold Region.Contains Region.stop
  dsimp only
  omega

theorem pairwise_apart (h : ∀ a, coverage rs a ≤ 1) : rs.Pairwise Region.Apart := by
  induction rs with
  | nil => exact List.Pairwise.nil
  | cons r rs ih =>
    refine List.Pairwise.cons ?_ (ih fun a => ?_)
    · intro r' hr' a ha ha'
      have hpos := coverage_pos_of_mem hr' ha'
      have hle := h a
      rw [coverage_cons_of_contains ha] at hle
      omega
    · have hle := h a
      rw [coverage_cons'] at hle
      omega

/-!
## Blocks laid out one after the other

A list of blocks tiles an interval of addresses when each starts where the one before it
ends. `located b xs` gives the blocks of `xs` their addresses, the first at `b`. Blocks of
different positions are disjoint (`located_pairwise`, `located_unique`), every address of the interval lies
in one (`exists_covering`), and replacing some blocks by others of the same total length
moves no other block (`mem_located_replace`).
-/

variable {α : Type*} {len : α → Nat} {a b : Nat} {x y : α} {xs ys : List α}

/-- The addresses that a list of blocks takes up. -/
def total (len : α → Nat) (xs : List α) : Nat := (xs.map len).sum

/-- The blocks with the addresses they start at. -/
def located (len : α → Nat) : Nat → List α → List (Nat × α)
  | _, [] => []
  | b, x :: xs => (b, x) :: located len (b + len x) xs

@[simp] theorem total_nil : total len [] = 0 := rfl

@[simp] theorem total_cons : total len (x :: xs) = len x + total len xs := by
  simp [total]

@[simp] theorem total_append : total len (xs ++ ys) = total len xs + total len ys := by
  simp [total]

@[simp] theorem located_nil : located len b [] = [] := rfl

theorem located_append :
    located len b (xs ++ ys) = located len b xs ++ located len (b + total len xs) ys := by
  induction xs generalizing b with
  | nil => simp
  | cons x xs ih =>
    simp only [cons_append, located, ih, total_cons, add_assoc]

theorem mem_located : (a, x) ∈ located len b xs ↔
    ∃ before after, xs = before ++ x :: after ∧ a = b + total len before := by
  induction xs generalizing b with
  | nil => simp
  | cons y xs ih =>
    simp only [located, mem_cons, Prod.mk.injEq, ih]
    constructor
    · rintro (⟨rfl, rfl⟩ | ⟨before, after, rfl, rfl⟩)
      · exact ⟨[], xs, rfl, rfl⟩
      · exact ⟨y :: before, after, rfl, by simp [add_assoc]⟩
    · rintro ⟨before, after, hxs, rfl⟩
      cases before with
      | nil =>
        obtain ⟨rfl, rfl⟩ := cons.inj hxs
        exact .inl ⟨rfl, rfl⟩
      | cons z before =>
        obtain ⟨rfl, rfl⟩ := cons.inj hxs
        exact .inr ⟨before, after, rfl, by simp [add_assoc]⟩

theorem located_bounds (h : (a, x) ∈ located len b xs) : b ≤ a ∧ a + len x ≤ b + total len xs := by
  obtain ⟨before, after, rfl, rfl⟩ := mem_located.mp h
  simp only [total_append, total_cons]
  omega

theorem located_unique {c d e : Nat} (hx : (c, x) ∈ located len b xs)
    (hy : (d, y) ∈ located len b xs) (hcx : c ≤ e ∧ e < c + len x)
    (hdy : d ≤ e ∧ e < d + len y) : c = d ∧ x = y := by
  induction xs generalizing b with
  | nil => simp at hx
  | cons z xs ih =>
    simp only [located, mem_cons, Prod.mk.injEq] at hx hy
    rcases hx with ⟨rfl, rfl⟩ | hx <;> rcases hy with ⟨rfl, rfl⟩ | hy
    · exact ⟨rfl, rfl⟩
    · have := (located_bounds hy).1
      omega
    · have := (located_bounds hx).1
      omega
    · exact ih hx hy

theorem exists_covering (hlow : b ≤ a) (hhigh : a < b + total len xs) :
    ∃ c x, (c, x) ∈ located len b xs ∧ c ≤ a ∧ a < c + len x := by
  induction xs generalizing b with
  | nil =>
    simp only [total_nil] at hhigh
    omega
  | cons y xs ih =>
    by_cases hy : a < b + len y
    · exact ⟨b, y, mem_cons_self, hlow, hy⟩
    · simp only [total_cons] at hhigh
      obtain ⟨c, x, hmem, hc⟩ := ih (by omega : b + len y ≤ a) (by omega)
      exact ⟨c, x, mem_cons_of_mem _ hmem, hc⟩

theorem mem_located_replace {mid mid' : List α} (htotal : total len mid' = total len mid)
    {p : Nat × α} :
    p ∈ located len b (xs ++ mid' ++ ys) ↔
      p ∈ located len b xs ∨ p ∈ located len (b + total len xs) mid' ∨
        p ∈ located len (b + total len xs + total len mid) ys := by
  rw [located_append, located_append, mem_append, mem_append, or_assoc, total_append,
    htotal, add_assoc]

end Tiling
