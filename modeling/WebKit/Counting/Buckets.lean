import Mathlib.Data.List.Nodup
import Mathlib.Data.List.Range

/-!
# Sorting into buckets

The three loops of a counting sort: `counts` counts the items of each key, `accumulate`
replaces the counts by the offsets of the buckets in a table, and `place` writes each item
to the next free place of its bucket. The table then lists the items by their keys, the
items of one key in the order they were given (`bucketed`).
-/

open List Function

namespace Buckets

variable {ε δ : Type*}

/-- The items of one key. -/
def bucket (key : ε → ℕ) (items : List ε) (k : ℕ) : List ε := items.filter (key · = k)

/-- The items of the keys below `n`, by their keys. -/
def bucketed (key : ε → ℕ) (items : List ε) (n : ℕ) : List ε :=
  (List.range n).flatMap (bucket key items)

def counts (key : ε → ℕ) (items : List ε) : ℕ → ℕ :=
  items.foldl (fun counters x => update counters (key x) (counters (key x) + 1)) fun _ => 0

/-- The offsets of the keys below `n` in place of their counts, and the sum of the counts. -/
def accumulate (n : ℕ) (counters : ℕ → ℕ) : (ℕ → ℕ) × ℕ :=
  (List.range n).foldl (fun s i => (update s.1 i s.2, s.2 + s.1 i)) (counters, 0)

/-- The number of items in each bucket and the table, after an item was written. -/
def placeItem (key : ε → ℕ) (value : ε → δ) (offset : ℕ → ℕ) (s : (ℕ → ℕ) × (ℕ → δ)) (x : ε) :
    (ℕ → ℕ) × (ℕ → δ) :=
  (update s.1 (key x) (s.1 (key x) + 1), update s.2 (offset (key x) + s.1 (key x)) (value x))

def place (key : ε → ℕ) (value : ε → δ) (offset : ℕ → ℕ) (table : ℕ → δ) (items : List ε) :
    (ℕ → ℕ) × (ℕ → δ) :=
  items.foldl (placeItem key value offset) (fun _ => 0, table)

variable {key : ε → ℕ} {value : ε → δ} {items : List ε} {n k : ℕ}

theorem bucket_append (key : ε → ℕ) (items items' : List ε) (k : ℕ) :
    bucket key (items ++ items') k = bucket key items k ++ bucket key items' k :=
  filter_append _ _

theorem bucketed_succ (key : ε → ℕ) (items : List ε) (n : ℕ) :
    bucketed key items (n + 1) = bucketed key items n ++ bucket key items n := by
  rw [bucketed, range_succ, flatMap_append, flatMap_singleton]
  rfl

theorem length_bucketed_succ (key : ε → ℕ) (items : List ε) (n : ℕ) :
    (bucketed key items (n + 1)).length =
      (bucketed key items n).length + (bucket key items n).length := by
  rw [bucketed_succ, length_append]

theorem length_bucketed_mono (hkn : k ≤ n) :
    (bucketed key items k).length ≤ (bucketed key items n).length := by
  induction n, hkn using Nat.le_induction with
  | base => rfl
  | succ n _ ih =>
    rw [length_bucketed_succ]
    omega

theorem length_bucketed_add_le (key : ε → ℕ) (items : List ε) (hlt : k < n) :
    (bucketed key items k).length + (bucket key items k).length ≤
      (bucketed key items n).length := by
  rw [← length_bucketed_succ]
  exact length_bucketed_mono (Nat.succ_le_of_lt hlt)

theorem mem_bucketed {x : ε} : x ∈ bucketed key items n ↔ x ∈ items ∧ key x < n := by
  simp only [bucketed, bucket, mem_flatMap, mem_range, mem_filter, decide_eq_true_eq]
  constructor
  · rintro ⟨k, hk, hx, rfl⟩
    exact ⟨hx, hk⟩
  · rintro ⟨hx, hk⟩
    exact ⟨key x, hk, hx, rfl⟩

theorem nodup_bucketed (h : items.Nodup) (n : ℕ) : (bucketed key items n).Nodup := by
  induction n with
  | zero => exact nodup_nil
  | succ n ih =>
    rw [bucketed_succ]
    refine List.Nodup.append ih (h.filter _) fun x hx hx' => ?_
    have hlt := (mem_bucketed.mp hx).2
    have heq : key x = n := by simpa using (mem_filter.mp hx').2
    omega

theorem key_eq_iff (hk : k < n) {e : ℕ} {x : ε} (hx : (bucketed key items n)[e]? = some x) :
    key x = k ↔ (bucketed key items k).length ≤ e ∧
      e < (bucketed key items k).length + (bucket key items k).length := by
  induction n with
  | zero => omega
  | succ n ih =>
    rw [bucketed_succ] at hx
    by_cases he : e < (bucketed key items n).length
    · rw [getElem?_append_left he] at hx
      rcases Nat.lt_succ_iff_lt_or_eq.mp hk with hlt | rfl
      · exact ih hlt hx
      · have hkey := (mem_bucketed.mp (mem_of_getElem? hx)).2
        omega
    · rw [getElem?_append_right (by omega)] at hx
      have hlast := (List.getElem?_eq_some_iff.mp hx).1
      have hkey : key x = n := by
        simpa using (mem_filter.mp (mem_of_getElem? hx)).2
      rcases Nat.lt_succ_iff_lt_or_eq.mp hk with hlt | rfl
      · have hmono := length_bucketed_add_le key items hlt
        omega
      · omega

theorem getElem?_bucketed (hk : k < n) {j : ℕ} (hj : j < (bucket key items k).length) :
    (bucketed key items n)[(bucketed key items k).length + j]? = (bucket key items k)[j]? := by
  induction n with
  | zero => omega
  | succ n ih =>
    rw [bucketed_succ]
    rcases Nat.lt_succ_iff_lt_or_eq.mp hk with hlt | rfl
    · have hmono := length_bucketed_add_le key items hlt
      rw [getElem?_append_left (by omega)]
      exact ih hlt
    · rw [getElem?_append_right (by omega), Nat.add_sub_cancel_left]

theorem counts_apply (key : ε → ℕ) (items : List ε) (k : ℕ) :
    counts key items k = (bucket key items k).length := by
  suffices h : ∀ counters : ℕ → ℕ,
      items.foldl (fun counters x => update counters (key x) (counters (key x) + 1))
        counters k = counters k + (bucket key items k).length by
    exact (h _).trans (Nat.zero_add _)
  induction items with
  | nil => exact fun _ => rfl
  | cons x rest ih =>
    intro counters
    rw [foldl_cons, ih, update_apply]
    by_cases hx : k = key x
    · subst hx
      have hcons : bucket key (x :: rest) (key x) = x :: bucket key rest (key x) :=
        filter_cons_of_pos (by simp)
      rw [if_pos rfl, hcons, length_cons]
      omega
    · have hcons : bucket key (x :: rest) k = bucket key rest k :=
        filter_cons_of_neg (by simpa using Ne.symm hx)
      rw [if_neg hx, hcons]

theorem accumulate_spec (key : ε → ℕ) (items : List ε) (n : ℕ) :
    (∀ k, (accumulate n (counts key items)).1 k =
      if k < n then (bucketed key items k).length else (bucket key items k).length) ∧
      (accumulate n (counts key items)).2 = (bucketed key items n).length := by
  induction n with
  | zero => exact ⟨fun k => counts_apply key items k, rfl⟩
  | succ n ih =>
    obtain ⟨hoffset, htotal⟩ := ih
    rw [accumulate, range_succ, foldl_append, foldl_cons, foldl_nil]
    refine ⟨fun k => ?_, ?_⟩
    · change update (accumulate n (counts key items)).1 n (accumulate n (counts key items)).2 k = _
      rw [update_apply, htotal, hoffset]
      split_ifs <;> first | omega | simp_all
    · change (accumulate n (counts key items)).2 + (accumulate n (counts key items)).1 n = _
      rw [htotal, hoffset, if_neg (lt_irrefl n), length_bucketed_succ]

theorem place_spec (value : ε → δ) (hkey : ∀ x ∈ items, key x < n) {offset : ℕ → ℕ}
    (hoffset : ∀ k < n, offset k = (bucketed key items k).length) (table : ℕ → δ) :
    (∀ k, (place key value offset table items).1 k = (bucket key items k).length) ∧
      ∀ k < n, ∀ j x, (bucket key items k)[j]? = some x →
        (place key value offset table items).2 (offset k + j) = value x := by
  suffices h : ∀ rest done s, items = done ++ rest → (∀ k, s.1 k = (bucket key done k).length) →
      (∀ k < n, ∀ j x, (bucket key done k)[j]? = some x → s.2 (offset k + j) = value x) →
      (∀ k, (rest.foldl (placeItem key value offset) s).1 k = (bucket key items k).length) ∧
        ∀ k < n, ∀ j x, (bucket key items k)[j]? = some x →
          (rest.foldl (placeItem key value offset) s).2 (offset k + j) = value x by
    exact h items [] _ rfl (fun _ => rfl) (by simp [bucket])
  intro rest
  induction rest with
  | nil =>
    intro done s hitems hsize htable
    rw [append_nil] at hitems
    rw [hitems]
    exact ⟨hsize, htable⟩
  | cons y rest ih =>
    intro done s hitems hsize htable
    have hy : key y < n := hkey y (by simp [hitems])
    have hitems' : items = (done ++ [y]) ++ rest := by rw [hitems, append_assoc]; rfl
    have hbucketY : bucket key [y] (key y) = [y] := by simp [bucket]
    have hbucketNe : ∀ k, k ≠ key y → bucket key [y] k = [] := by
      intro k hk
      simp [bucket, Ne.symm hk]
    -- The places of the items written before are not written again.
    have hroom : ∀ k < n, (bucket key done k).length ≤ (bucket key items k).length := by
      intro k _
      rw [hitems, bucket_append, length_append]
      omega
    have hroomY : (bucket key done (key y)).length < (bucket key items (key y)).length := by
      rw [hitems', bucket_append, bucket_append, hbucketY]
      simp only [length_append, length_singleton]
      omega
    have hapart : ∀ k < n, ∀ j < (bucket key done k).length,
        offset k + j ≠ offset (key y) + (bucket key done (key y)).length := by
      intro k hk j hj heq
      have hle := hroom k hk
      rw [hoffset k hk, hoffset (key y) hy] at heq
      rcases Nat.lt_trichotomy k (key y) with hlt | rfl | hlt
      · have hmono := length_bucketed_add_le key items hlt
        omega
      · omega
      · have hmono := length_bucketed_add_le key items hlt
        omega
    refine ih (done ++ [y]) (placeItem key value offset s y) hitems' ?_ ?_
    · intro k
      dsimp only [placeItem]
      rw [update_apply, bucket_append, length_append]
      by_cases hk : k = key y
      · subst hk
        rw [if_pos rfl, hbucketY, hsize]
        rfl
      · rw [if_neg hk, hbucketNe k hk, hsize]
        rfl
    · intro k hk j x hx
      dsimp only [placeItem]
      rw [update_apply, hsize]
      rw [bucket_append] at hx
      by_cases hj : j < (bucket key done k).length
      · rw [if_neg (hapart k hk j hj)]
        rw [List.getElem?_append_left hj] at hx
        exact htable k hk j x hx
      · rw [List.getElem?_append_right (by omega)] at hx
        by_cases hky : k = key y
        · subst hky
          rw [hbucketY] at hx
          obtain ⟨hlast, hxy⟩ := List.getElem?_eq_some_iff.mp hx
          have hjLen : j = (bucket key done (key y)).length := by
            rw [length_singleton] at hlast
            omega
          rw [if_pos (by rw [hjLen])]
          simp only [hjLen, Nat.sub_self, getElem_cons_zero] at hxy
          rw [hxy]
        · rw [hbucketNe k hky] at hx
          simp at hx

theorem place_table (hkey : ∀ x ∈ items, key x < n) {offset : ℕ → ℕ}
    (hoffset : ∀ k < n, offset k = (bucketed key items k).length) (table : ℕ → δ) {e : ℕ} {x : ε}
    (hx : (bucketed key items n)[e]? = some x) :
    (place key value offset table items).2 e = value x := by
  have hk : key x < n := (mem_bucketed.mp (mem_of_getElem? hx)).2
  obtain ⟨hle, hlt⟩ := (key_eq_iff hk hx).mp rfl
  obtain ⟨j, rfl⟩ := Nat.exists_eq_add_of_le hle
  rw [getElem?_bucketed hk (by omega)] at hx
  have hplace := (place_spec value hkey hoffset table).2 (key x) hk j x hx
  rwa [hoffset _ hk] at hplace

end Buckets
