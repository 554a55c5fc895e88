import WebKit.Ring.Segment
import WebKit.WTF.Deque

/-!
# What the operations of `Deque` do

`deque.Represents traits l`: the elements from `begin()` to `end()` are those of `l`, and no
other slot of any buffer has an object. Every operation keeps the representation of the list
that it makes of `l`, or crashes because it cannot get the memory, and never makes an access
it must not make.
-/

open List

namespace WebKit.WTF

open Transition Ring VectorBuffer TypeOperations Deque Failure VectorTraits Slots

universe u

variable {T : Type u} {traits : VectorTraits}

/-! ## Buffers -/

namespace VectorTraits

/-- The capacity that comes out of a request for `n` objects. -/
def goodCapacity (traits : VectorTraits) (n : ℕ) : ℕ :=
  traits.fastMallocGoodSize (n * traits.sizeOf) / traits.sizeOf

variable {n : ℕ}

theorem le_goodCapacity : n ≤ traits.goodCapacity n :=
  (Nat.le_div_iff_mul_le traits.sizeOf_pos).mpr (traits.le_goodSize _)

theorem goodCapacity_mul_le :
    traits.goodCapacity n * traits.sizeOf ≤ traits.fastMallocGoodSize (n * traits.sizeOf) :=
  Nat.div_mul_le_self _ _

theorem goodCapacity_goodCapacity :
    traits.goodCapacity (traits.goodCapacity n) = traits.goodCapacity n := by
  have hup : traits.fastMallocGoodSize (traits.goodCapacity n * traits.sizeOf) ≤
      traits.fastMallocGoodSize (n * traits.sizeOf) := by
    rw [← traits.goodSize_goodSize (n * traits.sizeOf)]
    exact traits.goodSize_mono goodCapacity_mul_le
  have hdown : traits.fastMallocGoodSize (n * traits.sizeOf) ≤
      traits.fastMallocGoodSize (traits.goodCapacity n * traits.sizeOf) :=
    traits.goodSize_mono (Nat.mul_le_mul_right _ le_goodCapacity)
  rw [goodCapacity, le_antisymm hup hdown, ← goodCapacity]

theorem goodCapacity_mul_lt (h : n * traits.sizeOf < 2 ^ 32) :
    traits.goodCapacity n * traits.sizeOf < 2 ^ 32 :=
  goodCapacity_mul_le.trans_lt (traits.goodSize_lt _ h)

/-- A capacity that allocated memory can have. -/
structure Allocated (traits : VectorTraits) (capacity : ℕ) : Prop where
  inlineCapacity_lt : traits.inlineCapacity < capacity
  goodCapacity_eq : traits.goodCapacity capacity = capacity
  mul_lt : capacity * traits.sizeOf < 2 ^ 32

theorem Allocated.lt (h : traits.Allocated n) : n < 2 ^ 32 :=
  (Nat.le_mul_of_pos_right n traits.sizeOf_pos).trans_lt h.mul_lt

end VectorTraits

namespace VectorBuffer

variable {buffer : VectorBuffer T} {slots : Slots T} {n : ℕ}

/-- An inline buffer that is not in use has no objects. -/
structure Valid (traits : VectorTraits) (buffer : VectorBuffer T) : Prop where
  inline_length : buffer.inlineBuffer.length = traits.inlineCapacity
  unused : buffer.pointer ≠ .inline →
    buffer.inlineBuffer = List.replicate traits.inlineCapacity none
  capacity_eq : buffer.capacity = buffer.slots.length
  inline : buffer.pointer = .inline → 1 < traits.inlineCapacity
  outOfLine : ∀ slots, buffer.pointer = .outOfLine slots →
    1 < slots.length ∧ traits.Allocated slots.length

@[simp] theorem slots_setSlots (h : buffer.pointer ≠ .null) :
    (buffer.setSlots slots).slots = slots := by
  rcases buffer with ⟨inlineBuffer, _ | _ | _, capacity⟩
  · exact absurd rfl h
  · rfl
  · rfl

theorem setSlots_pointer_eq_inline :
    (buffer.setSlots slots).pointer = .inline ↔ buffer.pointer = .inline := by
  rcases buffer with ⟨inlineBuffer, _ | _ | _, capacity⟩ <;> simp [setSlots]

theorem Valid.setSlots (h : buffer.Valid traits) (hlen : slots.length = buffer.slots.length) :
    (buffer.setSlots slots).Valid traits := by
  rcases buffer with ⟨inlineBuffer, _ | _ | old, capacity⟩
  · exact h
  · exact ⟨hlen.trans h.inline_length, fun hne => absurd rfl hne,
      h.capacity_eq.trans hlen.symm, h.inline, fun _ heq => nomatch heq⟩
  · refine ⟨h.inline_length, fun _ => h.unused nofun, h.capacity_eq.trans hlen.symm, nofun, ?_⟩
    rintro slots' heq
    obtain rfl : slots = slots' := by
      cases heq
      rfl
    exact hlen ▸ h.outOfLine old rfl

theorem Valid.one_lt (h : buffer.Valid traits) (hne : buffer.pointer ≠ .null) :
    1 < buffer.slots.length := by
  rcases buffer with ⟨inlineBuffer, _ | _ | slots, capacity⟩
  · exact absurd rfl hne
  · exact h.inline_length.symm ▸ h.inline rfl
  · exact (h.outOfLine slots rfl).1

theorem pointer_ne_null (h : 0 < buffer.slots.length) : buffer.pointer ≠ .null := by
  intro heq
  simp [slots, heq] at h

theorem create_of_eq_zero (h : traits.inlineCapacity = 0) :
    (create traits : VectorBuffer T) = ⟨[], .null, 0⟩ := by
  simp [create, h]

theorem create_of_ne_zero (h : traits.inlineCapacity ≠ 0) : (create traits : VectorBuffer T) =
      ⟨replicate traits.inlineCapacity none, .inline, traits.inlineCapacity⟩ := by
  simp [create, h]

theorem create_valid : (create traits : VectorBuffer T).Valid traits := by
  have hne := traits.inlineCapacity_ne_one
  by_cases h : traits.inlineCapacity = 0
  · rw [create_of_eq_zero h]
    exact ⟨h.symm, fun _ => by rw [h, replicate_zero], rfl, nofun, nofun⟩
  · rw [create_of_ne_zero h]
    exact ⟨length_replicate, fun heq => absurd rfl heq, length_replicate.symm,
      fun _ => by omega, nofun⟩

/-- Fresh memory for `n` objects: the buffer points to it, and the inline buffer stays. -/
theorem allocateOutOfLine_spec (hn : traits.inlineCapacity < n) :
    Outcome (· = crash) (fun buffer' => ∃ capacity, n ≤ capacity ∧
        traits.Allocated capacity ∧ buffer' = ⟨buffer.inlineBuffer,
          .outOfLine (replicate capacity none), capacity⟩ ∧
        (traits.Allocated n → capacity = n))
      (allocateOutOfLine traits buffer n) := by
  rw [allocateOutOfLine]
  split
  · exact .throw rfl
  · next hlt =>
    have hmul : n * traits.sizeOf < 2 ^ 32 := by
      have hle := Nat.mul_le_of_le_div _ _ _ (not_lt.mp hlt)
      omega
    have halloc : traits.Allocated (traits.goodCapacity n) :=
      ⟨hn.trans_le le_goodCapacity, goodCapacity_goodCapacity, goodCapacity_mul_lt hmul⟩
    refine .pure ⟨traits.goodCapacity n, le_goodCapacity, halloc, ?_, fun h => h.goodCapacity_eq⟩
    rw [← goodCapacity, Nat.mod_eq_of_lt halloc.lt]

/-- Memory for more objects than there are: once it has its contents and the former memory
has none left, the buffer is a valid one again. -/
theorem allocateBuffer_spec (h : buffer.Valid traits) (hlt : buffer.capacity < n) (hn : 16 ≤ n) :
    Outcome (· = crash) (fun buffer' => n ≤ buffer'.capacity ∧
        buffer'.slots = replicate buffer'.capacity none ∧
        ∀ slots, slots.length = buffer'.capacity →
          ((buffer'.setSlots slots).deallocateFormer buffer.pointer
              (replicate buffer.slots.length none)).Valid traits ∧
            ((buffer'.setSlots slots).deallocateFormer buffer.pointer
              (replicate buffer.slots.length none)).slots = slots)
      (allocateBuffer traits buffer n) := by
  rw [allocateBuffer]
  split
  · next hinline =>
    refine (allocateOutOfLine_spec hinline).mono ?_
    rintro buffer' ⟨capacity, hle, halloc, rfl, -⟩
    refine ⟨hle, rfl, fun slots hlen => ?_⟩
    subst hlen
    rcases buffer with ⟨inlineBuffer, _ | _ | old, capacity⟩
    · exact ⟨⟨h.inline_length, fun _ => h.unused nofun, rfl, nofun,
        fun _ heq => by cases heq; exact ⟨by omega, halloc⟩⟩, rfl⟩
    · have hlen : inlineBuffer.length = traits.inlineCapacity := h.inline_length
      refine ⟨⟨length_replicate.trans hlen, fun _ => ?_, rfl, nofun,
        fun _ heq => by cases heq; exact ⟨by omega, halloc⟩⟩, rfl⟩
      exact congrArg (replicate · none) hlen
    · exact ⟨⟨h.inline_length, fun _ => h.unused nofun, rfl, nofun,
        fun _ heq => by cases heq; exact ⟨by omega, halloc⟩⟩, rfl⟩
  · next hinline =>
    rcases buffer with ⟨inlineBuffer, _ | _ | old, capacity⟩
    · refine .pure ⟨not_lt.mp hinline, h.unused nofun, fun slots hlen => ?_⟩
      exact ⟨⟨hlen, fun hne => absurd rfl hne, hlen.symm, fun _ => by omega, nofun⟩, rfl⟩
    · have hcap : capacity = inlineBuffer.length := h.capacity_eq
      have hlen : inlineBuffer.length = traits.inlineCapacity := h.inline_length
      dsimp only at hlt
      omega
    · have hcap : capacity = old.length := h.capacity_eq
      have hinlineCapacity := (h.outOfLine old rfl).2.inlineCapacity_lt
      dsimp only at hlt
      omega

@[simp] theorem setSlots_slots : buffer.setSlots buffer.slots = buffer := by
  rcases buffer with ⟨inlineBuffer, _ | _ | _, capacity⟩ <;> rfl

theorem createWithCapacity_spec (h : buffer.Valid traits) :
    Outcome (· = crash) (fun buffer' : VectorBuffer T => buffer'.Valid traits ∧
        (buffer.pointer = .null → buffer' = create traits) ∧
        (buffer.pointer ≠ .null → buffer'.slots = replicate buffer.slots.length none) ∧
        (buffer'.pointer = .inline → buffer.pointer = .null ∨ buffer.pointer = .inline))
      (createWithCapacity traits buffer.capacity) := by
  have hcap := h.capacity_eq
  rw [createWithCapacity]
  rcases buffer with ⟨inlineBuffer, _ | _ | slots, capacity⟩
  · have hzero : capacity = 0 := hcap
    rw [if_neg (by rw [hzero]; exact Nat.not_lt_zero _)]
    exact .pure ⟨create_valid, fun _ => rfl, fun hne => absurd rfl hne, fun _ => .inl rfl⟩
  · have hlen : inlineBuffer.length = traits.inlineCapacity := h.inline_length
    have hcap' : capacity = inlineBuffer.length := hcap
    have hone := h.inline rfl
    have hcreate := create_of_ne_zero (T := T) (by omega : traits.inlineCapacity ≠ 0)
    rw [if_neg (by dsimp only; omega)]
    refine .pure ⟨create_valid, nofun, fun _ => ?_, fun _ => .inr rfl⟩
    rw [hcreate, ← hlen]
    rfl
  · obtain ⟨hone, halloc⟩ := h.outOfLine slots rfl
    have hcap' : capacity = slots.length := hcap
    rw [hcap', if_pos halloc.inlineCapacity_lt]
    refine (allocateOutOfLine_spec halloc.inlineCapacity_lt).mono ?_
    rintro buffer' ⟨capacity', -, -, rfl, heq⟩
    rw [heq halloc]
    refine ⟨⟨length_replicate, fun _ => rfl, length_replicate.symm, nofun, ?_⟩, nofun,
      fun _ => rfl, nofun⟩
    rintro slots' heq'
    cases heq'
    rw [length_replicate]
    exact ⟨hone, halloc⟩

theorem swapInlineBuffers_zero {left right : Slots T} :
    swapInlineBuffers left right 0 0 = .ok (left, right) := rfl

/-- Buffers change places when the inline buffers are swapped as they are or are the same. -/
theorem swap_eq {other : VectorBuffer T} (h : buffer.Valid traits) (h' : other.Valid traits)
    (hkeeps : traits.isPod = true ∨ buffer.inlineBuffer = other.inlineBuffer) :
    swap traits buffer other 0 0 = .ok (other, buffer) := by
  have hunused := h.unused
  have hunused' := h'.unused
  rcases buffer with ⟨inlineBuffer, pointer, capacity⟩
  rcases other with ⟨inlineBuffer', pointer', capacity'⟩
  have hsame : pointer ≠ .inline → pointer' ≠ .inline → inlineBuffer = inlineBuffer' :=
    fun hne hne' => (hunused hne).trans (hunused' hne').symm
  by_cases hpod : traits.isPod = true
  · rcases pointer with _ | _ | slots <;> rcases pointer' with _ | _ | slots' <;>
      simp only [swap, swapInlineBuffer, swapCapacity, hpod] <;>
      first | rfl | (cases hsame nofun nofun; rfl)
  · cases hkeeps.resolve_left hpod
    rcases pointer with _ | _ | slots <;> rcases pointer' with _ | _ | slots' <;>
      simp only [swap, swapInlineBuffer, swapCapacity, hpod, swapInlineBuffers_zero] <;> rfl

end VectorBuffer

theorem eq_replicate_of_forall {slots : Slots T} (h : ∀ i < slots.length, slots[i]? = some none) :
    slots = replicate slots.length none := by
  refine ext_getElem? fun i => ?_
  rw [getElem?_replicate]
  split
  · next hi => exact h i hi
  · next hi => exact getElem?_eq_none (not_lt.mp hi)

namespace Deque

variable {deque other : Deque T} {slots : Slots T} {l l' : List T} {start stop n : ℕ} {value : T}

/-- The elements of the deque are those of the list. -/
structure Represents (traits : VectorTraits) (deque : Deque T) (l : List T) : Prop where
  valid : deque.buffer.Valid traits
  content : deque.buffer.pointer = .null ∧ deque.start = 0 ∧ deque.stop = 0 ∧ l = [] ∨
    Holds deque.buffer.slots deque.start l ∧
      deque.stop = position deque.buffer.slots.length deque.start l.length

theorem Represents.setSlots {buffer : VectorBuffer T} (hvalid : buffer.Valid traits)
    (hlen : slots.length = buffer.slots.length) (hholds : Holds slots start l)
    (hstop : stop = position slots.length start l.length) :
    Represents traits ⟨start, stop, buffer.setSlots slots⟩ l := by
  have hlt := hholds.start_lt
  have hne : buffer.pointer ≠ .null := pointer_ne_null (by omega)
  refine ⟨hvalid.setSlots hlen, .inr ?_⟩
  rw [slots_setSlots hne]
  exact ⟨hholds, hstop⟩

theorem Represents.holds (h : deque.Represents traits l) (hne : deque.buffer.pointer ≠ .null) :
    Holds deque.buffer.slots deque.start l ∧
      deque.stop = position deque.buffer.slots.length deque.start l.length :=
  h.content.resolve_left fun hnull => hne hnull.1

theorem Represents.holds_of_ne_nil (h : deque.Represents traits l) (hl : l ≠ []) :
    Holds deque.buffer.slots deque.start l ∧
      deque.stop = position deque.buffer.slots.length deque.start l.length :=
  h.content.resolve_left fun hnull => hl hnull.2.2.2

theorem Represents.create : (create traits : Deque T).Represents traits [] := by
  refine ⟨create_valid, ?_⟩
  by_cases h : traits.inlineCapacity = 0
  · refine .inl ⟨?_, rfl, rfl, rfl⟩
    rw [Deque.create, VectorBuffer.create_of_eq_zero h]
  · refine .inr ?_
    have hslots : (Deque.create traits : Deque T).buffer.slots =
        replicate traits.inlineCapacity none := by
      rw [Deque.create, VectorBuffer.create_of_ne_zero h]
      rfl
    rw [hslots]
    refine ⟨.replicate (Nat.pos_of_ne_zero h), ?_⟩
    rw [length_replicate]
    exact (position_zero (Nat.pos_of_ne_zero h)).symm

/-- A deque whose elements do not go around the end of the buffer. -/
structure Straight (deque : Deque T) (l : List T) : Prop where
  stop_eq : deque.stop = deque.start + l.length
  lt : deque.start + l.length < deque.buffer.slots.length
  live : TypeOperations.Live deque.buffer.slots deque.start (deque.stop - deque.start)
  free : ∀ i < deque.buffer.slots.length, i < deque.start ∨ deque.stop ≤ i →
    deque.buffer.slots[i]? = some none

/-- A deque whose elements go around the end of the buffer. -/
structure Wrapped (deque : Deque T) (l : List T) : Prop where
  stop_eq : deque.stop = deque.start + l.length - deque.buffer.slots.length
  le : deque.buffer.slots.length ≤ deque.start + l.length
  live : TypeOperations.Live deque.buffer.slots 0 deque.stop
  live_end : TypeOperations.Live deque.buffer.slots deque.start
    (deque.buffer.slots.length - deque.start)
  free : ∀ i, deque.stop ≤ i → i < deque.start → deque.buffer.slots[i]? = some none

theorem straight_of_le (hholds : Holds deque.buffer.slots deque.start l)
    (hstop : deque.stop = position deque.buffer.slots.length deque.start l.length)
    (hle : deque.start ≤ deque.stop) : deque.Straight l := by
  have hroom := hholds.room
  have hfacts : deque.stop = deque.start + l.length ∧
      deque.start + l.length < deque.buffer.slots.length := by
    unfold position at hstop
    split at hstop <;> omega
  obtain ⟨hstop', hlt'⟩ := hfacts
  refine ⟨hstop', hlt', fun i hi hilt => hholds.live (by omega) ?_, fun i hi hout => ?_⟩
  · rw [offset, if_pos hi]
    omega
  · refine hholds.free hi ?_
    unfold offset
    split <;> omega

theorem wrapped_of_lt (hholds : Holds deque.buffer.slots deque.start l)
    (hstop : deque.stop = position deque.buffer.slots.length deque.start l.length)
    (hgt : deque.stop < deque.start) : deque.Wrapped l := by
  have hlt := hholds.start_lt
  have hfacts : deque.stop = deque.start + l.length - deque.buffer.slots.length ∧
      deque.buffer.slots.length ≤ deque.start + l.length := by
    unfold position at hstop
    split at hstop <;> omega
  obtain ⟨hstop', hle⟩ := hfacts
  refine ⟨hstop', hle, fun i hi hilt => hholds.live (by omega) ?_,
    fun i hi hilt => hholds.live (by omega) ?_, fun i hi hilt => hholds.free (by omega) ?_⟩
  · rw [offset, if_neg (by omega)]
    omega
  · rw [offset, if_pos hi]
    omega
  · rw [offset, if_neg (by omega)]
    omega

section

variable (h : deque.Represents traits l)
include h

theorem Represents.size_eq : deque.size = l.length := by
  rw [size, h.valid.capacity_eq]
  rcases h.content with ⟨-, hstart, hstop, rfl⟩ | ⟨hholds, hstop⟩
  · rw [hstart, hstop, if_pos le_rfl]
    rfl
  · have hroom := hholds.room
    rw [hstop]
    unfold position
    split <;> split <;> omega

theorem Represents.isEmpty_iff : deque.isEmpty = true ↔ l = [] := by
  rw [isEmpty, beq_iff_eq]
  rcases h.content with ⟨-, hstart, hstop, rfl⟩ | ⟨hholds, hstop⟩
  · simp [hstart, hstop]
  · rw [hstop, eq_comm, position_eq_start hholds.start_lt hholds.room, length_eq_zero_iff]

/-- `m_start` and `m_end` are below the capacity, and a slot is free. -/
theorem Represents.bounds : deque.buffer.capacity = 0 ∧ deque.start = 0 ∧ deque.stop = 0 ∨
      deque.start < deque.buffer.capacity ∧ deque.stop < deque.buffer.capacity ∧
        deque.size < deque.buffer.capacity := by
  rw [h.size_eq, h.valid.capacity_eq]
  rcases h.content with ⟨hnull, hstart, hstop, rfl⟩ | ⟨hholds, hstop⟩
  · refine .inl ⟨?_, hstart, hstop⟩
    rw [slots, hnull, length_nil]
  · refine .inr ⟨hholds.start_lt, ?_, hholds.room⟩
    rw [hstop]
    exact position_lt hholds.start_lt hholds.room

theorem Represents.increment_position
    (hne : deque.buffer.pointer ≠ .null) (hn : n < deque.buffer.slots.length) :
    deque.increment (position deque.buffer.slots.length deque.start n) =
      position deque.buffer.slots.length deque.start (n + 1) := by
  rw [increment, h.valid.capacity_eq, position_succ (h.holds hne).1.start_lt hn]

theorem Represents.iteratorAt_eq
    (hne : deque.buffer.pointer ≠ .null) (hn : n < deque.buffer.slots.length) :
    deque.iteratorAt n = position deque.buffer.slots.length deque.start n := by
  induction n with
  | zero => exact (position_zero (h.holds hne).1.start_lt).symm
  | succ n ih =>
    rw [iteratorAt, Function.iterate_succ_apply', ← iteratorAt, ih (by omega),
      h.increment_position hne (by omega)]

theorem Represents.elementsFrom_eq
    (hne : deque.buffer.pointer ≠ .null) {fuel : ℕ} (hn : n ≤ l.length)
    (hfuel : l.length - n < fuel) :
    deque.elementsFrom (position deque.buffer.slots.length deque.start n) fuel =
      .ok (l.drop n) := by
  obtain ⟨hholds, hstop⟩ := h.holds hne
  have hroom := hholds.room
  induction fuel generalizing n with
  | zero => exact absurd hfuel (Nat.not_lt_zero _)
  | succ fuel ih =>
    rw [elementsFrom, hstop]
    split
    · next heq =>
      obtain rfl := position_injective hholds.start_lt (by omega) hroom heq
      rw [drop_length]
      rfl
    · next hstop' =>
      have hlt : n < l.length := by
        refine lt_of_le_of_ne hn ?_
        rintro rfl
        exact hstop' rfl
      have hvalue : deque.buffer.slots[position deque.buffer.slots.length deque.start n]? =
          some (some l[n]) := by
        rw [hholds.at_position (by omega), getElem?_eq_getElem hlt]
      rw [read_eq hvalue]
      rw [h.increment_position hne (by omega), ih (by omega) (by omega), drop_eq_getElem_cons hlt]
      rfl

theorem Represents.elements_eq : deque.elements = .ok l := by
  by_cases hne : deque.buffer.pointer = .null
  · rcases h.content with ⟨-, hstart, hstop, rfl⟩ | ⟨hholds, -⟩
    · rw [elements, elementsFrom, if_pos (hstart.trans hstop.symm)]
      rfl
    · have hlt := hholds.start_lt
      exact absurd hne (pointer_ne_null (by omega))
  · have hroom := (h.holds hne).1.room
    have hfuel : l.length - 0 < deque.buffer.capacity + 1 := by
      rw [h.valid.capacity_eq]
      omega
    have heq := h.elementsFrom_eq hne (Nat.zero_le _) hfuel
    rwa [position_zero (h.holds hne).1.start_lt, drop_zero] at heq

end

/-! ## Removing -/

variable {fails : Failure → Prop}

theorem destructOne (h : slots[n]? = some (some value)) :
    destruct slots n (n + 1) = .ok (slots.set n none) := by
  rw [destruct, if_pos (Nat.le_succ n), Nat.add_sub_cancel_left, destructLoop, destroy_eq h]
  rfl

theorem Represents.first_slot (h : deque.Represents traits (value :: l)) :
    deque.buffer.slots[deque.start]? = some (some value) := by
  obtain ⟨hholds, -⟩ := h.holds_of_ne_nil (cons_ne_nil value l)
  have hlt := hholds.start_lt
  have hzero := hholds.at_position (show 0 < deque.buffer.slots.length by omega)
  rwa [position_zero hlt, getElem?_cons_zero] at hzero

theorem Represents.last_slot (h : deque.Represents traits (l ++ [value])) :
    deque.decrement deque.stop = position deque.buffer.slots.length deque.start l.length ∧
      deque.buffer.slots[deque.decrement deque.stop]? = some (some value) := by
  obtain ⟨hholds, hstop⟩ := h.holds_of_ne_nil (append_ne_nil_of_right_ne_nil l (by simp))
  have hlt := hholds.start_lt
  have hroom := hholds.room
  rw [length_append, length_singleton] at hroom hstop
  have hlast : deque.decrement deque.stop =
      position deque.buffer.slots.length deque.start l.length := by
    rw [decrement, h.valid.capacity_eq, hstop, position_succ hlt (by omega)]
    split <;> split at * <;> omega
  refine ⟨hlast, ?_⟩
  rw [hlast, hholds.at_position (by omega), getElem?_concat_length]

theorem Represents.removeFirst (h : deque.Represents traits (value :: l)) :
    Outcome fails (fun deque' => deque'.Represents traits l) deque.removeFirst := by
  obtain ⟨hholds, hstop⟩ := h.holds_of_ne_nil (cons_ne_nil value l)
  rw [Deque.removeFirst, destructOne h.first_slot, h.valid.capacity_eq]
  refine .pure (.setSlots h.valid (by simp) hholds.pop_front ?_)
  have hroom := hholds.room
  rw [hstop, length_set, length_cons]
  rw [length_cons] at hroom
  unfold position
  split <;> split <;> split <;> omega

theorem Represents.removeLast (h : deque.Represents traits (l ++ [value])) :
    Outcome fails (fun deque' => deque'.Represents traits l) deque.removeLast := by
  obtain ⟨hholds, -⟩ := h.holds_of_ne_nil (append_ne_nil_of_right_ne_nil l (by simp))
  obtain ⟨hlast, hvalue⟩ := h.last_slot
  rw [Deque.removeLast, ← decrement, destructOne hvalue, hlast]
  exact .pure (.setSlots h.valid (by simp) hholds.pop_back (by rw [length_set]))

theorem Represents.takeFirst (h : deque.Represents traits (value :: l)) :
    Outcome fails (fun r => r.1.Represents traits l ∧ r.2 = value) deque.takeFirst := by
  rw [Deque.takeFirst, Slots.read_eq h.first_slot]
  exact h.removeFirst.bind fun deque' h' => .pure ⟨h', rfl⟩

theorem Represents.takeLast (h : deque.Represents traits (l ++ [value])) :
    Outcome fails (fun r => r.1.Represents traits l ∧ r.2 = value) deque.takeLast := by
  rw [Deque.takeLast, Slots.read_eq h.last_slot.2]
  exact h.removeLast.bind fun deque' h' => .pure ⟨h', rfl⟩

/-- Whichever part of the buffer has the element, the list loses just this element. -/
theorem Represents.remove (h : deque.Represents traits l) (hn : n < l.length) :
    Outcome fails (fun deque' => deque'.Represents traits (l.eraseIdx n)) (deque.remove n) := by
  have hl : l ≠ [] := ne_nil_of_length_pos (by omega)
  obtain ⟨hholds, hstop⟩ := h.holds_of_ne_nil hl
  have hlt := hholds.start_lt
  have hroom := hholds.room
  have hne : deque.buffer.pointer ≠ .null := pointer_ne_null (by omega)
  have hvalue : deque.buffer.slots[position deque.buffer.slots.length deque.start n]? =
      some (some l[n]) := by
    rw [hholds.at_position (by omega), getElem?_eq_getElem hn]
  have hdiffers : position deque.buffer.slots.length deque.start n ≠ deque.stop := by
    rw [hstop]
    exact fun heq => absurd (position_injective hlt (by omega) hroom heq) (by omega)
  have hlen : (l.eraseIdx n).length = l.length - 1 := by
    rw [length_eraseIdx, if_pos hn]
  rw [Deque.remove, h.iteratorAt_eq hne (by omega), removeAt, if_neg hdiffers, destructOne hvalue]
  dsimp only [bind, Except.bind]
  have hposlt := position_lt hlt (show n < deque.buffer.slots.length by omega)
  split
  · next hle =>
    have hpos : position deque.buffer.slots.length deque.start n = deque.start + n := by
      unfold position at hle ⊢
      split at hle <;> split <;> omega
    rw [hpos] at hle hposlt ⊢
    have hlive : TypeOperations.Live (deque.buffer.slots.set (deque.start + n) none) deque.start
        (deque.start + n - deque.start) := fun i hi hilt => by
      rw [getElem?_set_ne (by omega)]
      refine hholds.live (by omega) ?_
      rw [offset, if_pos hi]
      omega
    have hfree : TypeOperations.Room (deque.buffer.slots.set (deque.start + n) none) deque.start
        (deque.start + 1) (deque.start + n - deque.start) := fun i hi hilt hout => by
      obtain rfl : deque.start + n = i := by omega
      rw [getElem?_set_self hposlt]
    obtain ⟨slots', heq, hlength, hmoved⟩ :=
      moveOverlapping_spec (Nat.le_add_right _ _) (by omega) hlive hfree
    rw [length_set] at hlength
    rw [heq]
    refine .pure (.setSlots h.valid hlength ?_ ?_)
    · rw [h.valid.capacity_eq]
      refine hholds.erase_up hn hposlt hlength fun i => ?_
      rw [hmoved, getElem?_set, getElem?_set]
      grind
    · rw [h.valid.capacity_eq, hlength, hlen, hstop]
      rcases lt_or_ge (deque.start + 1) deque.buffer.slots.length with hlt' | hge
      · rw [Nat.mod_eq_of_lt hlt']
        unfold position
        split <;> split <;> omega
      · rw [show deque.start + 1 = deque.buffer.slots.length by omega, Nat.mod_self]
        unfold position
        split <;> split <;> omega
  · next hgt =>
    have hwrapped : deque.buffer.slots.length ≤ deque.start + n ∧
        position deque.buffer.slots.length deque.start n =
          deque.start + n - deque.buffer.slots.length := by
      unfold position at hgt ⊢
      split at hgt <;> split <;> omega
    obtain ⟨hle, hpos⟩ := hwrapped
    have hstop' : deque.stop = deque.start + l.length - deque.buffer.slots.length := by
      rw [hstop, position, if_neg (by omega)]
    rw [hpos] at hposlt ⊢
    have hlive : TypeOperations.Live
        (deque.buffer.slots.set (deque.start + n - deque.buffer.slots.length) none)
        (deque.start + n - deque.buffer.slots.length + 1)
        (deque.stop - (deque.start + n - deque.buffer.slots.length + 1)) := fun i hi hilt => by
      rw [getElem?_set_ne (by omega)]
      refine hholds.live (by omega) ?_
      rw [offset, if_neg (by omega)]
      omega
    have hfree : TypeOperations.Room
        (deque.buffer.slots.set (deque.start + n - deque.buffer.slots.length) none)
        (deque.start + n - deque.buffer.slots.length + 1)
        (deque.start + n - deque.buffer.slots.length)
        (deque.stop - (deque.start + n - deque.buffer.slots.length + 1)) :=
      fun i hi hilt hout => by
        obtain rfl : deque.start + n - deque.buffer.slots.length = i := by omega
        rw [getElem?_set_self hposlt]
    obtain ⟨slots', heq, hlength, hmoved⟩ := moveOverlapping_spec (by omega) (by omega) hlive hfree
    rw [length_set] at hlength
    rw [heq]
    refine .pure (.setSlots h.valid hlength ?_ ?_)
    · refine hholds.erase_down hn hle hlength fun i => ?_
      rw [hmoved, getElem?_set, getElem?_set]
      grind
    · rw [h.valid.capacity_eq, hlength, hlen, hstop',
        show deque.start + l.length - deque.buffer.slots.length - 1 +
            deque.buffer.slots.length = deque.start + (l.length - 1) by omega,
        Nat.mod_eq_sub_mod (by omega), Nat.mod_eq_of_lt (by omega), position, if_neg (by omega)]

theorem Represents.remove_length (h : deque.Represents traits l) :
    deque.remove l.length = .ok deque := by
  have hstop : deque.iteratorAt l.length = deque.stop := by
    rcases h.content with ⟨-, hstart, hstop, rfl⟩ | ⟨hholds, hstop⟩
    · exact hstart.trans hstop.symm
    · have hlt := hholds.start_lt
      rw [hstop, h.iteratorAt_eq (pointer_ne_null (by omega)) hholds.room]
  rw [Deque.remove, removeAt, if_pos hstop]
  rfl

theorem Represents.destroyAll (h : deque.Represents traits l) :
    Outcome fails (fun deque' => deque' = ⟨deque.start, deque.stop,
      deque.buffer.setSlots (List.replicate deque.buffer.slots.length none)⟩)
      deque.destroyAll := by
  have hall : ∀ slots : Slots T, slots.length = deque.buffer.slots.length →
      (∀ i < deque.buffer.slots.length, slots[i]? = some none) →
      slots = List.replicate deque.buffer.slots.length none := fun slots hlen hnone =>
    hlen ▸ eq_replicate_of_forall (hlen ▸ hnone)
  rcases h.content with ⟨hnull, hstart, hstop, rfl⟩ | ⟨hholds, hstop⟩
  · rw [destroyAll, hstart, hstop, if_pos le_rfl]
    have hslots : deque.buffer.slots = [] := by rw [slots, hnull]
    rw [hslots]
    exact .pure rfl
  · rw [Deque.destroyAll]
    split
    · next hle =>
      have hstraight := straight_of_le hholds hstop hle
      obtain ⟨slots', heq, hlen, hslot⟩ := destruct_spec hle hstraight.live
      rw [heq]
      refine .pure ?_
      rw [hall slots' hlen fun i hi => ?_]
      rw [hslot]
      split
      · rfl
      · next hout => exact hstraight.free i hi (by omega)
    · next hgt =>
      have hgt' : deque.stop < deque.start := not_le.mp hgt
      have hwrapped := wrapped_of_lt hholds hstop hgt'
      obtain ⟨slots', heq, hlen, hslot⟩ := destruct_spec (Nat.zero_le deque.stop) hwrapped.live
      have hlive : TypeOperations.Live slots' deque.start
          (deque.buffer.slots.length - deque.start) := fun i hi hilt => by
        rw [hslot, if_neg (by omega)]
        exact hwrapped.live_end i hi hilt
      obtain ⟨slots'', heq', hlen', hslot'⟩ := destruct_spec hholds.start_lt.le hlive
      rw [heq, h.valid.capacity_eq]
      dsimp only [bind, Except.bind]
      rw [heq']
      refine .pure ?_
      rw [hall slots'' (hlen'.trans hlen) fun i hi => ?_]
      rw [hslot', hslot]
      split
      · rfl
      · split
        · rfl
        · next hout hout' => exact hwrapped.free i (by omega) (by omega)

theorem Represents.clear (h : deque.Represents traits l) :
    Outcome fails (fun deque' => deque'.Represents traits []) deque.clear := by
  refine h.destroyAll.bind fun deque' hdeque' => .pure ?_
  subst hdeque'
  have hvalid := h.valid.setSlots
    (length_replicate (n := deque.buffer.slots.length) (a := (none : Option T)))
  rcases deque with ⟨start, stop, inlineBuffer, _ | _ | slots, capacity⟩
  · exact ⟨hvalid, .inl ⟨rfl, rfl, rfl, rfl⟩⟩
  · have hpos : 0 < inlineBuffer.length := Nat.zero_lt_of_lt (h.valid.one_lt nofun)
    have hholds : Holds (replicate inlineBuffer.length (none : Option T)) 0 [] := .replicate hpos
    exact ⟨hvalid, .inr ⟨hholds, (position_zero hholds.start_lt).symm⟩⟩
  · refine ⟨⟨h.valid.inline_length, fun _ => h.valid.unused nofun, rfl, nofun, nofun⟩,
      .inl ⟨rfl, rfl, rfl, rfl⟩⟩

/-! ## Growing and adding -/

section

variable (h : deque.Represents traits l)
include h

theorem Represents.expandCapacity : Outcome (· = crash) (fun deque' => deque'.Represents traits l ∧
        deque.buffer.capacity < deque'.buffer.capacity ∧ 16 ≤ deque'.buffer.capacity)
      (deque.expandCapacity traits) := by
  refine (allocateBuffer_spec h.valid (by omega) (le_max_left _ _)).bind ?_
  rintro buffer ⟨hcap, hslots, hvalid⟩
  have hlen : buffer.slots.length = buffer.capacity := by rw [hslots, length_replicate]
  have hfree : ∀ i < buffer.capacity, buffer.slots[i]? = some none := fun i hi => by
    rw [hslots, getElem?_replicate, if_pos hi]
  have hfin : ∀ (start stop : ℕ) (old slots : Slots T), slots.length = buffer.capacity →
      old = List.replicate deque.buffer.slots.length none → Holds slots start l →
      stop = position slots.length start l.length →
      let grown := (buffer.setSlots slots).deallocateFormer deque.buffer.pointer old
      Represents traits ⟨start, stop, grown⟩ l ∧
        deque.buffer.capacity < grown.capacity ∧ 16 ≤ grown.capacity := by
    rintro start stop old slots hlen rfl hholds hstop
    obtain ⟨hvalid', hslots'⟩ := hvalid slots hlen
    have hcap' := hvalid'.capacity_eq
    rw [hslots', hlen] at hcap'
    refine ⟨⟨hvalid', .inr ?_⟩, by omega, by omega⟩
    rw [hslots']
    exact ⟨hholds, hstop⟩
  rcases h.content with ⟨hnull, hstart, hstop, rfl⟩ | ⟨hholds, hstop⟩
  · have hold : deque.buffer.slots = [] := by rw [slots, hnull]
    rw [hstart, hstop, if_pos le_rfl, hold]
    refine .pure (hfin 0 0 [] buffer.slots hlen (by rw [hold]; rfl) ?_ ?_)
    · rw [hslots]
      exact .replicate (by omega)
    · rw [length_nil, position_zero (by omega)]
  · have hlt := hholds.start_lt
    have hgrown : deque.buffer.slots.length < buffer.capacity := by
      rw [← h.valid.capacity_eq]
      omega
    have hdrained : ∀ old : Slots T, old.length = deque.buffer.slots.length →
        (∀ i < deque.buffer.slots.length, old[i]? = some none) →
        old = List.replicate deque.buffer.slots.length none := fun old hold hnone =>
      hold ▸ eq_replicate_of_forall (hold ▸ hnone)
    split
    · next hle =>
      have hstraight := straight_of_le hholds hstop hle
      have hstop' := hstraight.stop_eq
      have hlt' := hstraight.lt
      have hdest : ∀ i, deque.start ≤ i →
          i < deque.start + (deque.stop - deque.start) → buffer.slots[i]? = some none :=
        fun i hi hilt => hfree i (by omega)
      obtain ⟨old, new, heq, holdlength, hnewlength, hold, hnew⟩ :=
        move_spec hle hstraight.live hdest
      rw [heq]
      refine .pure (hfin _ _ old new (hnewlength.trans hlen) ?_ ?_ ?_)
      · refine hdrained old holdlength fun i hi => ?_
        rw [hold]
        split
        · rfl
        · exact hstraight.free i hi (by omega)
      · refine hholds.move_straight hlt' (by omega) fun i hi => ?_
        rw [hnew]
        split
        · rw [if_pos (by omega), Nat.sub_add_cancel (by omega)]
        · rw [if_neg (by omega), hfree i (by omega)]
      · rw [hstop', position, if_pos (by omega)]
    · next hgt =>
      have hgt' : deque.stop < deque.start := not_le.mp hgt
      have hwrapped := wrapped_of_lt hholds hstop hgt'
      have hstop' := hwrapped.stop_eq
      have hle' := hwrapped.le
      have hdest : ∀ i, 0 ≤ i → i < 0 + (deque.stop - 0) → buffer.slots[i]? = some none :=
        fun i hi hilt => hfree i (by omega)
      obtain ⟨old, new, heq, holdlength, hnewlength, hold, hnew⟩ :=
        move_spec (Nat.zero_le deque.stop) hwrapped.live hdest
      rw [h.valid.capacity_eq] at hfin ⊢
      rw [heq]
      dsimp only [bind, Except.bind]
      have hlive : TypeOperations.Live old deque.start
          (deque.buffer.slots.length - deque.start) := fun i hi hilt => by
        rw [hold, if_neg (by omega)]
        exact hwrapped.live_end i hi hilt
      have hdest' : ∀ i, buffer.capacity - (deque.buffer.slots.length - deque.start) ≤ i →
          i < buffer.capacity - (deque.buffer.slots.length - deque.start) +
            (deque.buffer.slots.length - deque.start) → new[i]? = some none := fun i hi hilt => by
        rw [hnew, if_neg (by omega)]
        exact hfree i (by omega)
      obtain ⟨old', new', heq', holdlength', hnewlength', hold', hnew'⟩ :=
        move_spec hlt.le hlive hdest'
      rw [heq']
      refine .pure (hfin _ _ old' new' (by omega) ?_ ?_ ?_)
      · refine hdrained old' (by omega) fun i hi => ?_
        rw [hold', hold]
        split
        · rfl
        · split
          · rfl
          · exact hwrapped.free i (by omega) (by omega)
      · have hlen' : new'.length = buffer.capacity := by omega
        have hmoved : Holds new' (new'.length - (deque.buffer.slots.length - deque.start)) l := by
          refine hholds.move_wrapped hle' (by omega) fun i hi => ?_
          rw [hlen', hnew', hnew]
          by_cases hend : buffer.capacity - (deque.buffer.slots.length - deque.start) ≤ i
          · rw [if_pos (by omega), if_neg (by omega), if_pos hend, hold, if_neg (by omega)]
          · rw [if_neg (by omega), if_neg hend]
            split
            · rw [if_pos (by omega)]
              rfl
            · rw [if_neg (by omega), hfree i (by omega)]
        rwa [hlen'] at hmoved
      · rw [position, if_neg (by omega)]
        omega

theorem Represents.isFull_iff : deque.isFull = false ↔ l.length + 1 < deque.buffer.capacity := by
  rw [isFull, h.valid.capacity_eq]
  rcases h.content with ⟨hnull, hstart, hstop, rfl⟩ | ⟨hholds, hstop⟩
  · have hslots : deque.buffer.slots = [] := by rw [slots, hnull]
    simp [hstart, hstop, hslots]
  · have hroom := hholds.room
    have hone := h.valid.one_lt (pointer_ne_null (by omega))
    rw [hstop]
    unfold position
    split <;> split <;> (try split) <;> simp only [decide_eq_false_iff_not] <;> omega

theorem Represents.expandCapacityIfNeeded : Outcome (· = crash)
      (fun deque' => deque'.Represents traits l ∧ l.length + 1 < deque'.buffer.capacity)
      (deque.expandCapacityIfNeeded traits) := by
  rw [Deque.expandCapacityIfNeeded]
  split
  · refine h.expandCapacity.mono fun deque' ⟨h', hgrown, hle⟩ => ⟨h', ?_⟩
    rcases h.content with ⟨-, -, -, rfl⟩ | ⟨hholds, -⟩
    · exact lt_of_lt_of_le (by simp) hle
    · have hroom := hholds.room
      rw [← h.valid.capacity_eq] at hroom
      omega
  · next hfull =>
    exact .pure ⟨h, h.isFull_iff.mp (Bool.not_eq_true _ ▸ hfull)⟩

theorem Represents.append :
    Outcome (· = crash) (fun deque' => deque'.Represents traits (l ++ [value]))
      (deque.append traits value) := by
  refine h.expandCapacityIfNeeded.bind fun deque' ⟨h', hroom⟩ => ?_
  rw [h'.valid.capacity_eq] at hroom ⊢
  have hne : deque'.buffer.pointer ≠ .null := pointer_ne_null (by omega)
  obtain ⟨hholds, hstop⟩ := h'.holds hne
  have hlt := hholds.start_lt
  have hfree : deque'.buffer.slots[deque'.stop]? = some none := by
    rw [hstop, hholds.at_position (by omega), getElem?_eq_none le_rfl]
  rw [construct_eq hfree]
  refine .pure (.setSlots h'.valid (by simp) ?_ ?_)
  · rw [hstop]
    exact hholds.push_back hroom
  · rw [length_set, length_append, length_singleton, position_succ hlt (by omega), hstop]

theorem Represents.prepend :
    Outcome (· = crash) (fun deque' => deque'.Represents traits (value :: l))
      (deque.prepend traits value) := by
  refine h.expandCapacityIfNeeded.bind fun deque' ⟨h', hroom⟩ => ?_
  rw [h'.valid.capacity_eq] at hroom ⊢
  have hne : deque'.buffer.pointer ≠ .null := pointer_ne_null (by omega)
  obtain ⟨hholds, hstop⟩ := h'.holds hne
  have hlt := hholds.start_lt
  obtain ⟨p, hp⟩ : ∃ p, p =
    if deque'.start = 0 then deque'.buffer.slots.length - 1 else deque'.start - 1 := ⟨_, rfl⟩
  have hfree : deque'.buffer.slots[p]? = some none := by
    have hplt : p < deque'.buffer.slots.length := by
      split at hp <;> omega
    refine hholds.free hplt ?_
    unfold offset
    split at hp <;> split <;> omega
  dsimp only
  rw [← hp, construct_eq hfree]
  refine .pure (.setSlots h'.valid (by simp) (hholds.push_front hroom hp) ?_)
  rw [length_set, hstop, length_cons]
  unfold position
  split at hp <;> split <;> split <;> omega

end

/-- Whether `swap` keeps the elements of a deque: it moves none that are in an inline buffer,
unless it swaps the inline buffers as they are. -/
def Swappable (traits : VectorTraits) (deque : Deque T) : Prop :=
  traits.isPod = true ∨ (deque.buffer.pointer = .inline → deque.isEmpty = true)

theorem Represents.copyConstruct (h : other.Represents traits l) :
    Outcome (· = crash) (fun deque => deque.Represents traits l ∧
        (other.Swappable traits → deque.Swappable traits))
      (copyConstruct traits other) := by
  refine (createWithCapacity_spec h.valid).bind ?_
  rintro buffer ⟨hvalid, hnull, hslots, hinline⟩
  rcases h.content with ⟨hnull', hstart, hstop, rfl⟩ | ⟨hholds, hstop⟩
  · have hotherSlots : other.buffer.slots = [] := by rw [slots, hnull']
    obtain rfl := hnull hnull'
    rw [hstart, hstop, if_pos le_rfl, hotherSlots]
    refine .pure (?_ : Represents traits ⟨0, 0, (VectorBuffer.create traits).setSlots
      (VectorBuffer.create traits).slots⟩ [] ∧ _)
    rw [setSlots_slots]
    exact ⟨.create, fun _ => .inr fun _ => rfl⟩
  · have hlt := hholds.start_lt
    have hne : other.buffer.pointer ≠ .null := pointer_ne_null (by omega)
    have hnew := hslots hne
    have hlen : buffer.slots.length = other.buffer.slots.length := by
      rw [hnew, length_replicate]
    have hfree : ∀ i < other.buffer.slots.length, buffer.slots[i]? = some none := fun i hi => by
      rw [hnew, getElem?_replicate, if_pos hi]
    have hfin : Represents traits ⟨other.start, other.stop, buffer.setSlots other.buffer.slots⟩ l ∧
        (other.Swappable traits →
          Swappable traits ⟨other.start, other.stop, buffer.setSlots other.buffer.slots⟩) := by
      refine ⟨.setSlots hvalid hlen.symm hholds hstop, Or.imp_right fun hempty hinline' => ?_⟩
      exact hempty ((hinline (setSlots_pointer_eq_inline.mp hinline')).resolve_left hne)
    split
    · next hle =>
      have hstraight := straight_of_le hholds hstop hle
      have hlt' := hstraight.lt
      have hstop' := hstraight.stop_eq
      have hdest : ∀ i, other.start ≤ i → i < other.start + (other.stop - other.start) →
          buffer.slots[i]? = some none := fun i hi hilt => hfree i (by omega)
      obtain ⟨slots', heq, hlen', hslot⟩ := uninitializedCopy_spec hle hstraight.live hdest
      have hcopied : slots' = other.buffer.slots := by
        refine ext_getElem? fun i => ?_
        rw [hslot]
        split
        · rw [Nat.sub_add_cancel (by omega)]
        · next hout =>
          rcases Nat.lt_or_ge i other.buffer.slots.length with hi | hi
          · rw [hfree i hi, hstraight.free i hi (by omega)]
          · rw [getElem?_eq_none hi, getElem?_eq_none (by omega)]
      dsimp only
      rw [heq, hcopied]
      exact .pure hfin
    · next hgt =>
      have hgt' : other.stop < other.start := not_le.mp hgt
      have hwrapped := wrapped_of_lt hholds hstop hgt'
      have hdest : ∀ i, 0 ≤ i → i < 0 + (other.stop - 0) → buffer.slots[i]? = some none :=
        fun i hi hilt => hfree i (by omega)
      obtain ⟨slots', heq, hlen', hslot⟩ :=
        uninitializedCopy_spec (Nat.zero_le other.stop) hwrapped.live hdest
      have hdest' : ∀ i, other.start ≤ i →
          i < other.start + (other.buffer.slots.length - other.start) →
          slots'[i]? = some none := fun i hi hilt => by
        rw [hslot, if_neg (by omega)]
        exact hfree i (by omega)
      obtain ⟨slots'', heq', hlen'', hslot'⟩ :=
        uninitializedCopy_spec hlt.le hwrapped.live_end hdest'
      have hcopied : slots'' = other.buffer.slots := by
        refine ext_getElem? fun i => ?_
        rw [hslot', hslot]
        split
        · rw [Nat.sub_add_cancel (by omega)]
        · split
          · rfl
          · next hout hout' =>
            rcases Nat.lt_or_ge i other.buffer.slots.length with hi | hi
            · rw [hfree i hi, hwrapped.free i (by omega) (by omega)]
            · rw [getElem?_eq_none hi, getElem?_eq_none (by omega)]
      dsimp only
      rw [heq, hvalid.capacity_eq, hlen]
      dsimp only [bind, Except.bind]
      rw [heq', hcopied]
      exact .pure hfin

theorem Represents.swap (h : deque.Represents traits l) (h' : other.Represents traits l')
    (hswap : deque.Swappable traits) (hswap' : other.Swappable traits) :
    swap traits deque other = .ok (other, deque) := by
  have hfree : ∀ {deque : Deque T} {l : List T}, deque.Represents traits l →
      (deque.buffer.pointer = .inline → deque.isEmpty = true) →
      deque.buffer.inlineBuffer = List.replicate traits.inlineCapacity none := by
    intro deque l h hempty
    by_cases hinline : deque.buffer.pointer = .inline
    · obtain rfl := h.isEmpty_iff.mp (hempty hinline)
      obtain ⟨hholds, -⟩ := h.holds (by rw [hinline]; nofun)
      have hslots : deque.buffer.slots = deque.buffer.inlineBuffer := by
        rw [slots, hinline]
      rw [← h.valid.inline_length, ← hslots]
      exact eq_replicate_of_forall fun i hi => hholds.free hi (Nat.zero_le _)
    · exact h.valid.unused hinline
  have hkeeps : traits.isPod = true ∨ deque.buffer.inlineBuffer = other.buffer.inlineBuffer := by
    rcases hswap with hpod | hempty
    · exact .inl hpod
    rcases hswap' with hpod | hempty'
    · exact .inl hpod
    exact .inr ((hfree h hempty).trans (hfree h' hempty').symm)
  rw [Deque.swap, VectorBuffer.swap_eq h.valid h'.valid hkeeps]
  rfl

theorem Represents.assign (h : deque.Represents traits l) (h' : other.Represents traits l')
    (hswap : deque.Swappable traits) (hswap' : other.Swappable traits) :
    Outcome (· = crash) (fun deque' => deque'.Represents traits l')
      (deque.assign traits other) := by
  refine h'.copyConstruct.bind fun copy ⟨hcopy, hswappable⟩ => ?_
  rw [h.swap hcopy hswap (hswappable hswap')]
  exact h.destroyAll.bind fun _ _ => .pure hcopy

end Deque

end WebKit.WTF
