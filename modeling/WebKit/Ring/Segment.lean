import Mathlib.Data.List.Basic

/-!
# Segments of circular buffers

A buffer is a list of slots, and a slot is empty or has one element. `Holds slots start l`
says that the elements of `l` are in the slots from `start` on, around the end of the
buffer, that all other slots are empty and that at least one of them is left. The changes of
a buffer are described slot by slot, so that any way to move elements can be used.
-/

open List

namespace Ring

variable {T : Type*}

/-- The slot that is `n` places after `start`. -/
def position (capacity start n : ℕ) : ℕ :=
  if start + n < capacity then start + n else start + n - capacity

/-- How many places the slot `i` is after `start`. -/
def offset (capacity start i : ℕ) : ℕ :=
  if start ≤ i then i - start else i + capacity - start

structure Holds (slots : List (Option T)) (start : ℕ) (l : List T) : Prop where
  start_lt : start < slots.length
  room : l.length < slots.length
  slot : ∀ i < slots.length, slots[i]? = some l[offset slots.length start i]?

section Index

variable {capacity start n m : ℕ}

theorem position_zero (h : start < capacity) : position capacity start 0 = start := by
  rw [position, if_pos (by omega), Nat.add_zero]

section

variable (hstart : start < capacity) (hn : n < capacity)
include hstart hn

theorem position_lt : position capacity start n < capacity := by
  unfold position
  split <;> omega

theorem offset_position : offset capacity start (position capacity start n) = n := by
  unfold offset position
  split <;> split <;> omega

theorem position_injective (hm : m < capacity)
    (h : position capacity start n = position capacity start m) : n = m := by
  rw [← offset_position hstart hn, h, offset_position hstart hm]

theorem position_succ : position capacity start (n + 1) =
      if position capacity start n = capacity - 1 then 0
      else position capacity start n + 1 := by
  unfold position
  split <;> split <;> split <;> omega

theorem position_eq_start : position capacity start n = start ↔ n = 0 := by
  unfold position
  split <;> omega

end

end Index

namespace Holds

variable {slots slots' : List (Option T)} {start n p : ℕ} {l : List T} {v : T}

theorem at_position (h : Holds slots start l) (hn : n < slots.length) :
    slots[position slots.length start n]? = some l[n]? := by
  rw [h.slot _ (position_lt h.start_lt hn), offset_position h.start_lt hn]

theorem live (h : Holds slots start l) {i : ℕ} (hi : i < slots.length)
    (hlt : offset slots.length start i < l.length) : ∃ value, slots[i]? = some (some value) :=
  ⟨l[offset slots.length start i], by rw [h.slot i hi, getElem?_eq_getElem hlt]⟩

theorem free (h : Holds slots start l) {i : ℕ} (hi : i < slots.length)
    (hle : l.length ≤ offset slots.length start i) : slots[i]? = some none := by
  rw [h.slot i hi, getElem?_eq_none hle]

theorem empty (hstart : start < slots.length) (hslots : ∀ i < slots.length, slots[i]? = some none) :
    Holds slots start ([] : List T) :=
  ⟨hstart, by simp only [length_nil]; omega, by simpa using hslots⟩

theorem replicate (hstart : start < n) : Holds (replicate n none) start ([] : List T) := by
  refine .empty (by simpa using hstart) fun i hi => ?_
  rw [length_replicate] at hi
  rw [getElem?_replicate, if_pos hi]

theorem push_back (h : Holds slots start l) (hroom : l.length + 1 < slots.length) :
    Holds (slots.set (position slots.length start l.length) (some v)) start (l ++ [v]) := by
  have hstart := h.start_lt
  refine ⟨by simpa using hstart, by simpa using hroom, fun i hi => ?_⟩
  rw [length_set] at hi ⊢
  rw [getElem?_set, getElem?_append]
  by_cases hp : position slots.length start l.length = i
  · rw [if_pos hp, if_pos (hp ▸ hi), ← hp, offset_position hstart h.room, if_neg (Nat.lt_irrefl _),
      Nat.sub_self, getElem?_cons_zero]
  · rw [if_neg hp, h.slot i hi]
    split
    · rfl
    · next hle =>
      have hne : offset slots.length start i ≠ l.length := by
        unfold position at hp
        unfold offset
        split at hp <;> split <;> omega
      rw [getElem?_eq_none (by omega), getElem?_eq_none (by simp; omega)]

theorem push_front (h : Holds slots start l) (hroom : l.length + 1 < slots.length)
    (hp : p = if start = 0 then slots.length - 1 else start - 1) :
    Holds (slots.set p (some v)) p (v :: l) := by
  have hstart := h.start_lt
  have hlt : p < slots.length := by split at hp <;> omega
  refine ⟨by simpa using hlt, by simpa using hroom, fun i hi => ?_⟩
  rw [length_set] at hi ⊢
  rw [getElem?_set, getElem?_cons]
  by_cases hpi : p = i
  · have hzero : offset slots.length p i = 0 := by
      unfold offset
      split <;> omega
    rw [if_pos hpi, if_pos hlt, if_pos hzero]
  · have hsucc : offset slots.length p i = offset slots.length start i + 1 ∨
        l.length ≤ offset slots.length start i ∧ l.length < offset slots.length p i := by
      unfold offset
      split at hp <;> split <;> split <;> omega
    rw [if_neg hpi, h.slot i hi]
    rcases hsucc with hsucc | ⟨hle, hlt⟩
    · rw [if_neg (by omega), hsucc, Nat.add_sub_cancel]
    · rw [if_neg (by omega), getElem?_eq_none hle, getElem?_eq_none (by omega)]

theorem pop_front (h : Holds slots start (v :: l)) :
    Holds (slots.set start none) (if start = slots.length - 1 then 0 else start + 1) l := by
  have hstart := h.start_lt
  have hroom := h.room
  rw [length_cons] at hroom
  refine ⟨?_, ?_, fun i hi => ?_⟩
  · rw [length_set]
    split <;> omega
  · rw [length_set]
    omega
  rw [length_set] at hi ⊢
  rw [getElem?_set]
  by_cases hpi : start = i
  · have hle : l.length ≤
        offset slots.length (if start = slots.length - 1 then 0 else start + 1) i := by
      unfold offset
      split <;> split <;> omega
    rw [if_pos hpi, if_pos hstart, getElem?_eq_none hle]
  · have hsucc : offset slots.length start i =
        offset slots.length (if start = slots.length - 1 then 0 else start + 1) i + 1 := by
      unfold offset
      split <;> split <;> split <;> omega
    rw [if_neg hpi, h.slot i hi, hsucc, getElem?_cons_succ]

theorem pop_back (h : Holds slots start (l ++ [v])) :
    Holds (slots.set (position slots.length start l.length) none) start l := by
  have hstart := h.start_lt
  have hroom := h.room
  rw [length_append, length_singleton] at hroom
  refine ⟨by simpa using hstart, by rw [length_set]; omega, fun i hi => ?_⟩
  rw [length_set] at hi ⊢
  rw [getElem?_set]
  by_cases hp : position slots.length start l.length = i
  · rw [if_pos hp, if_pos (hp ▸ hi), ← hp, offset_position hstart (by omega),
      getElem?_eq_none (Nat.le_refl _)]
  · have hne : offset slots.length start i ≠ l.length := by
      unfold position at hp
      unfold offset
      split at hp <;> split <;> omega
    rw [if_neg hp, h.slot i hi, getElem?_append]
    split
    · rfl
    · rw [getElem?_eq_none (by simp; omega), getElem?_eq_none (by omega)]

theorem erase_up (h : Holds slots start l) (hn : n < l.length)
    (hlt : start + n < slots.length) (hlength : slots'.length = slots.length)
    (hslot : ∀ i, slots'[i]? = if start < i ∧ i ≤ start + n then slots[i - 1]?
      else if i = start then some none else slots[i]?) :
    Holds slots' ((start + 1) % slots.length) (l.eraseIdx n) := by
  have hroom := h.room
  have hlen : (l.eraseIdx n).length = l.length - 1 := by
    rw [length_eraseIdx, if_pos hn]
  obtain ⟨next, hnext, hcases⟩ : ∃ next, (start + 1) % slots.length = next ∧
      (start + 1 < slots.length ∧ next = start + 1 ∨ start + 1 = slots.length ∧ next = 0) := by
    rcases Nat.lt_or_ge (start + 1) slots.length with hlt | hge
    · exact ⟨start + 1, Nat.mod_eq_of_lt hlt, .inl ⟨hlt, rfl⟩⟩
    · have heq : start + 1 = slots.length := by omega
      exact ⟨0, by rw [heq, Nat.mod_self], .inr ⟨heq, rfl⟩⟩
  rw [hnext]
  refine ⟨by omega, by omega, fun i hi => ?_⟩
  rw [hlength] at hi ⊢
  rw [hslot, getElem?_eraseIdx]
  by_cases hmoved : start < i ∧ i ≤ start + n
  · have heq : offset slots.length start (i - 1) = offset slots.length next i := by
      unfold offset
      split <;> split <;> omega
    have hltn : offset slots.length start (i - 1) < n := by
      unfold offset
      split <;> omega
    rw [if_pos hmoved, h.slot _ (by omega), ← heq, if_pos hltn]
  · rw [if_neg hmoved]
    by_cases hs : i = start
    · have hge : l.length ≤ offset slots.length next i + 1 := by
        unfold offset
        split <;> omega
      rw [if_pos hs, if_neg (by omega), getElem?_eq_none hge]
    · have heq : offset slots.length start i = offset slots.length next i + 1 := by
        unfold offset
        split <;> split <;> omega
      have hge : n < offset slots.length start i := by
        unfold offset
        split <;> omega
      rw [if_neg hs, h.slot i hi, heq, if_neg (by omega)]

/-- The elements behind a removed one, all of them around the end, move down by one slot. -/
theorem erase_down (h : Holds slots start l) (hn : n < l.length)
    (hle : slots.length ≤ start + n) (hlength : slots'.length = slots.length)
    (hslot : ∀ i, slots'[i]? =
      if start + n - slots.length ≤ i ∧ i + 1 < start + l.length - slots.length then
        slots[i + 1]?
      else if i + 1 = start + l.length - slots.length then some none else slots[i]?) :
    Holds slots' start (l.eraseIdx n) := by
  have hstart := h.start_lt
  have hroom := h.room
  have hlen : (l.eraseIdx n).length = l.length - 1 := by
    rw [length_eraseIdx, if_pos hn]
  refine ⟨by omega, by omega, fun i hi => ?_⟩
  rw [hlength] at hi ⊢
  rw [hslot, getElem?_eraseIdx]
  by_cases hmoved : start + n - slots.length ≤ i ∧ i + 1 < start + l.length - slots.length
  · have heq : offset slots.length start (i + 1) = offset slots.length start i + 1 := by
      unfold offset
      split <;> split <;> omega
    have hge : n ≤ offset slots.length start i := by
      unfold offset
      split <;> omega
    rw [if_pos hmoved, h.slot _ (by omega), heq, if_neg (by omega)]
  · rw [if_neg hmoved]
    by_cases hs : i + 1 = start + l.length - slots.length
    · have heq : offset slots.length start i + 1 = l.length := by
        unfold offset
        split <;> omega
      rw [if_pos hs, if_neg (by omega), heq, getElem?_eq_none (Nat.le_refl _)]
    · rw [if_neg hs, h.slot i hi]
      split
      · rfl
      · next hlt =>
        have hge : l.length ≤ offset slots.length start i := by
          unfold offset at hlt ⊢
          split at hlt <;> split <;> omega
        rw [getElem?_eq_none hge, getElem?_eq_none (by omega)]

/-- A segment that does not go around the end keeps its places in another buffer. -/
theorem move_straight (h : Holds slots start l) (hle : start + l.length < slots.length)
    (hlen : slots.length ≤ slots'.length)
    (hslot : ∀ i < slots'.length, slots'[i]? =
      if start ≤ i ∧ i < start + l.length then slots[i]? else some none) :
    Holds slots' start l := by
  refine ⟨by omega, by omega, fun i hi => ?_⟩
  rw [hslot i hi]
  split
  · next hin =>
    rw [h.slot i (by omega)]
    unfold offset
    rw [if_pos hin.1, if_pos hin.1]
  · have hge : l.length ≤ offset slots'.length start i := by
      unfold offset
      split <;> omega
    rw [getElem?_eq_none hge]

/-- A segment that goes around the end: its part at the end of the buffer moves to the end
of a larger one. -/
theorem move_wrapped (h : Holds slots start l) (hle : slots.length ≤ start + l.length)
    (hlen : slots.length ≤ slots'.length)
    (hslot : ∀ i < slots'.length, slots'[i]? = if i < start + l.length - slots.length then slots[i]?
      else if slots'.length - (slots.length - start) ≤ i then
        slots[i - (slots'.length - (slots.length - start)) + start]?
      else some none) :
    Holds slots' (slots'.length - (slots.length - start)) l := by
  have hstart := h.start_lt
  have hroom := h.room
  refine ⟨by omega, by omega, fun i hi => ?_⟩
  rw [hslot i hi]
  split
  · rw [h.slot i (by omega)]
    have heq : offset slots.length start i =
        offset slots'.length (slots'.length - (slots.length - start)) i := by
      unfold offset
      split <;> split <;> omega
    rw [heq]
  · split
    · rw [h.slot _ (by omega)]
      have heq : offset slots.length start (i - (slots'.length - (slots.length - start)) + start) =
          offset slots'.length (slots'.length - (slots.length - start)) i := by
        rw [offset, offset, if_pos (by omega), if_pos (by omega)]
        omega
      rw [heq]
    · have hge : l.length ≤ offset slots'.length (slots'.length - (slots.length - start)) i := by
        unfold offset
        split <;> omega
      rw [getElem?_eq_none hge]

end Holds

end Ring
