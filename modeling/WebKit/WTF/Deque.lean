import Mathlib.Order.Monotone.Defs
import Mathlib.Order.Nat
import WebKit.Transition.Outcome
import WebKit.WTF.Memory

/-!
# `VectorBuffer` and `VectorTypeOperations`

Memory for objects is a list of slots, and a slot without an object is `none`. To construct
an object over a live one, to read or destroy one that is not there, or to leave the memory
is an access the code must not make; every operation reports it. `CRASH` is a failure of its
own.
-/

open List Function

namespace WebKit.WTF

/-- What `Deque<T, inlineCapacity>` and its buffer depend on. The size to allocate is
`fastMallocGoodSize` of the size that is asked for, and an inline capacity of 1 is excluded
by an assertion of `Deque`. -/
structure VectorTraits where
  inlineCapacity : ℕ
  sizeOf : ℕ
  isPod : Bool
  fastMallocGoodSize : ℕ → ℕ
  inlineCapacity_ne_one : inlineCapacity ≠ 1
  sizeOf_pos : 0 < sizeOf
  le_goodSize : ∀ n, n ≤ fastMallocGoodSize n
  goodSize_mono : Monotone fastMallocGoodSize
  goodSize_goodSize : ∀ n, fastMallocGoodSize (fastMallocGoodSize n) = fastMallocGoodSize n
  goodSize_lt : ∀ n < 2 ^ 32, fastMallocGoodSize n < 2 ^ 32

abbrev Slots (T : Type*) := List (Option T)

variable {T : Type*}

namespace Slots

def read (slots : Slots T) (i : ℕ) : Except Failure T :=
  match slots[i]? with
  | some (some value) => pure value
  | _ => throw .badAccess

def construct (slots : Slots T) (i : ℕ) (value : T) : Except Failure (Slots T) :=
  match slots[i]? with
  | some none => pure (slots.set i (some value))
  | _ => throw .badAccess

def destroy (slots : Slots T) (i : ℕ) : Except Failure (Slots T) :=
  match slots[i]? with
  | some (some _) => pure (slots.set i none)
  | _ => throw .badAccess

variable {slots : Slots T} {i : ℕ} {value : T}

theorem read_eq (h : slots[i]? = some (some value)) : slots.read i = .ok value := by
  rw [read, h]
  rfl

theorem construct_eq (h : slots[i]? = some none) :
    slots.construct i value = .ok (slots.set i (some value)) := by
  rw [construct, h]
  rfl

theorem destroy_eq (h : slots[i]? = some (some value)) :
    slots.destroy i = .ok (slots.set i none) := by
  rw [destroy, h]
  rfl

end Slots

/-! ## Ranges of objects -/

namespace TypeOperations

/-- The loop of `destruct` over `count` objects. -/
def destructLoop (slots : Slots T) (src : ℕ) : ℕ → Except Failure (Slots T)
  | 0 => pure slots
  | count + 1 => do
    let slots ← slots.destroy src
    destructLoop slots (src + 1) count

/-- A range is given by its begin and its end; a loop from a begin behind the end would
leave the memory. -/
def destruct (slots : Slots T) (src srcEnd : ℕ) : Except Failure (Slots T) :=
  if src ≤ srcEnd then destructLoop slots src (srcEnd - src) else throw .badAccess

/-- The loop of `VectorMover::move`, from one memory to another. -/
def moveLoop (src : Slots T) (s : ℕ) (dst : Slots T) (d : ℕ) :
    ℕ → Except Failure (Slots T × Slots T)
  | 0 => pure (src, dst)
  | count + 1 => do
    let value ← src.read s
    let dst ← dst.construct d value
    let src ← src.destroy s
    moveLoop src (s + 1) dst (d + 1) count

def move (src : Slots T) (s srcEnd : ℕ) (dst : Slots T) (d : ℕ) :
    Except Failure (Slots T × Slots T) :=
  if s ≤ srcEnd then moveLoop src s dst d (srcEnd - s) else throw .badAccess

/-- One object moves inside a memory. -/
def moveObject (slots : Slots T) (s d : ℕ) : Except Failure (Slots T) := do
  let value ← slots.read s
  let slots ← slots.construct d value
  slots.destroy s

/-- The loop of `VectorMover::moveOverlapping` that starts at the front. -/
def moveForward (slots : Slots T) (s d : ℕ) : ℕ → Except Failure (Slots T)
  | 0 => pure slots
  | count + 1 => do
    let slots ← moveObject slots s d
    moveForward slots (s + 1) (d + 1) count

/-- The loop of `VectorMover::moveOverlapping` that starts at the back. -/
def moveBackward (slots : Slots T) (s d : ℕ) : ℕ → Except Failure (Slots T)
  | 0 => pure slots
  | count + 1 => do
    let slots ← moveObject slots (s + count) (d + count)
    moveBackward slots s d count

def moveOverlapping (slots : Slots T) (s srcEnd d : ℕ) : Except Failure (Slots T) :=
  if s ≤ srcEnd then
    if d < s then moveForward slots s d (srcEnd - s) else moveBackward slots s d (srcEnd - s)
  else throw .badAccess

def uninitializedCopyLoop (src : Slots T) (s : ℕ) (dst : Slots T) (d : ℕ) :
    ℕ → Except Failure (Slots T)
  | 0 => pure dst
  | count + 1 => do
    let value ← src.read s
    let dst ← dst.construct d value
    uninitializedCopyLoop src (s + 1) dst (d + 1) count

def uninitializedCopy (src : Slots T) (s srcEnd : ℕ) (dst : Slots T) (d : ℕ) :
    Except Failure (Slots T) :=
  if s ≤ srcEnd then uninitializedCopyLoop src s dst d (srcEnd - s) else throw .badAccess

/-! ## What ranges of objects become -/

variable {src dst slots : Slots T} {s d n srcEnd : ℕ}

/-- The slots from `s` on have `n` objects. -/
def Live (slots : Slots T) (s n : ℕ) : Prop :=
  ∀ i, s ≤ i → i < s + n → ∃ value, slots[i]? = some (some value)

theorem Live.head (h : Live slots s (n + 1)) : ∃ value, slots[s]? = some (some value) :=
  h s le_rfl (by omega)

theorem destructLoop_spec (h : Live slots s n) :
    ∃ slots', destructLoop slots s n = .ok slots' ∧ slots'.length = slots.length ∧
      ∀ i, slots'[i]? = if s ≤ i ∧ i < s + n then some none else slots[i]? := by
  induction n generalizing slots s with
  | zero => exact ⟨slots, rfl, rfl, fun i => by rw [if_neg (by omega)]⟩
  | succ n ih =>
    obtain ⟨value, hvalue⟩ := h.head
    have hrest : Live (slots.set s none) (s + 1) n := fun i hs hi => by
      rw [getElem?_set_ne (by omega)]
      exact h i (by omega) (by omega)
    obtain ⟨slots', heq, hlen, hslot⟩ := ih hrest
    refine ⟨slots', ?_, by rw [hlen, length_set], fun i => ?_⟩
    · rw [destructLoop, Slots.destroy_eq hvalue]
      exact heq
    · grind

theorem destruct_spec (hle : s ≤ srcEnd) (h : Live slots s (srcEnd - s)) :
    ∃ slots', destruct slots s srcEnd = .ok slots' ∧ slots'.length = slots.length ∧
      ∀ i, slots'[i]? = if s ≤ i ∧ i < srcEnd then some none else slots[i]? := by
  obtain ⟨slots', heq, hlen, hslot⟩ := destructLoop_spec h
  rw [Nat.add_sub_cancel' hle] at hslot
  exact ⟨slots', by rw [destruct, if_pos hle, heq], hlen, hslot⟩

theorem moveLoop_spec (hlive : Live src s n)
    (hfree : ∀ i, d ≤ i → i < d + n → dst[i]? = some none) :
    ∃ src' dst', moveLoop src s dst d n = .ok (src', dst') ∧
      src'.length = src.length ∧ dst'.length = dst.length ∧
      (∀ i, src'[i]? = if s ≤ i ∧ i < s + n then some none else src[i]?) ∧
      ∀ i, dst'[i]? = if d ≤ i ∧ i < d + n then src[i - d + s]? else dst[i]? := by
  induction n generalizing src dst s d with
  | zero =>
    exact ⟨src, dst, rfl, rfl, rfl, fun i => by rw [if_neg (by omega)],
      fun i => by rw [if_neg (by omega)]⟩
  | succ n ih =>
    obtain ⟨value, hvalue⟩ := hlive.head
    have hd := hfree d le_rfl (by omega)
    have hdlt := (List.getElem?_eq_some_iff.mp hd).1
    have hlive' : Live (src.set s none) (s + 1) n := fun i hs hi => by
      rw [getElem?_set_ne (by omega)]
      exact hlive i (by omega) (by omega)
    have hfree' : ∀ i, d + 1 ≤ i → i < d + 1 + n → (dst.set d (some value))[i]? = some none :=
      fun i hi hlt => by
        rw [getElem?_set_ne (by omega)]
        exact hfree i (by omega) (by omega)
    obtain ⟨src', dst', heq, hsrc, hdst, hsrcslot, hdstslot⟩ := ih hlive' hfree'
    refine ⟨src', dst', ?_, by rw [hsrc, length_set], by rw [hdst, length_set],
      fun i => ?_, fun i => ?_⟩
    · rw [moveLoop, Slots.read_eq hvalue]
      dsimp only [bind, Except.bind]
      rw [Slots.construct_eq hd, Slots.destroy_eq hvalue]
      exact heq
    · grind
    · rw [hdstslot, getElem?_set, getElem?_set]
      by_cases hi : d = i
      · subst hi
        rw [if_neg (by omega), if_pos rfl, if_pos hdlt, if_pos (by omega), Nat.sub_self,
          Nat.zero_add, hvalue]
      · split
        · rw [if_neg (by omega), if_pos (by omega), show i - (d + 1) + (s + 1) = i - d + s by omega]
        · rw [if_neg (by omega)]

theorem move_spec (hle : s ≤ srcEnd) (hlive : Live src s (srcEnd - s))
    (hfree : ∀ i, d ≤ i → i < d + (srcEnd - s) → dst[i]? = some none) :
    ∃ src' dst', move src s srcEnd dst d = .ok (src', dst') ∧
      src'.length = src.length ∧ dst'.length = dst.length ∧
      (∀ i, src'[i]? = if s ≤ i ∧ i < srcEnd then some none else src[i]?) ∧
      ∀ i, dst'[i]? = if d ≤ i ∧ i < d + (srcEnd - s) then src[i - d + s]? else dst[i]? := by
  obtain ⟨src', dst', heq, hsrc, hdst, hsrcslot, hdstslot⟩ := moveLoop_spec hlive hfree
  rw [Nat.add_sub_cancel' hle] at hsrcslot
  exact ⟨src', dst', by rw [move, if_pos hle, heq], hsrc, hdst, hsrcslot, hdstslot⟩

theorem uninitializedCopyLoop_spec (hlive : Live src s n)
    (hfree : ∀ i, d ≤ i → i < d + n → dst[i]? = some none) :
    ∃ dst', uninitializedCopyLoop src s dst d n = .ok dst' ∧ dst'.length = dst.length ∧
      ∀ i, dst'[i]? = if d ≤ i ∧ i < d + n then src[i - d + s]? else dst[i]? := by
  induction n generalizing dst s d with
  | zero => exact ⟨dst, rfl, rfl, fun i => by rw [if_neg (by omega)]⟩
  | succ n ih =>
    obtain ⟨value, hvalue⟩ := hlive.head
    have hd := hfree d le_rfl (by omega)
    have hdlt := (List.getElem?_eq_some_iff.mp hd).1
    have hfree' : ∀ i, d + 1 ≤ i → i < d + 1 + n → (dst.set d (some value))[i]? = some none :=
      fun i hi hlt => by
        rw [getElem?_set_ne (by omega)]
        exact hfree i (by omega) (by omega)
    have hlive' : Live src (s + 1) n := fun i hs hi => hlive i (by omega) (by omega)
    obtain ⟨dst', heq, hdst, hslot⟩ := ih hlive' hfree'
    refine ⟨dst', ?_, by rw [hdst, length_set], fun i => ?_⟩
    · rw [uninitializedCopyLoop, Slots.read_eq hvalue]
      dsimp only [bind, Except.bind]
      rw [Slots.construct_eq hd]
      exact heq
    · rw [hslot, getElem?_set]
      by_cases hi : d = i
      · subst hi
        rw [if_neg (by omega), if_pos rfl, if_pos hdlt, if_pos (by omega), Nat.sub_self,
          Nat.zero_add, hvalue]
      · split
        · rw [if_pos (by omega), show i - (d + 1) + (s + 1) = i - d + s by omega]
        · rw [if_neg (by omega)]

theorem uninitializedCopy_spec (hle : s ≤ srcEnd) (hlive : Live src s (srcEnd - s))
    (hfree : ∀ i, d ≤ i → i < d + (srcEnd - s) → dst[i]? = some none) :
    ∃ dst', uninitializedCopy src s srcEnd dst d = .ok dst' ∧ dst'.length = dst.length ∧
      ∀ i, dst'[i]? = if d ≤ i ∧ i < d + (srcEnd - s) then src[i - d + s]? else dst[i]? := by
  obtain ⟨dst', heq, hdst, hslot⟩ := uninitializedCopyLoop_spec hlive hfree
  exact ⟨dst', by rw [uninitializedCopy, if_pos hle, heq], hdst, hslot⟩

theorem moveObject_spec (hs : ∃ value, slots[s]? = some (some value)) (hd : slots[d]? = some none) :
    ∃ slots', moveObject slots s d = .ok slots' ∧ slots'.length = slots.length ∧ ∀ i, slots'[i]? =
        if i = d then slots[s]? else if i = s then some none else slots[i]? := by
  obtain ⟨value, hvalue⟩ := hs
  have hne : s ≠ d := by
    rintro rfl
    rw [hvalue] at hd
    cases hd
  have hvalue' : (slots.set d (some value))[s]? = some (some value) := by
    rw [getElem?_set_ne hne.symm, hvalue]
  refine ⟨(slots.set d (some value)).set s none, ?_, by simp, fun i => ?_⟩
  · rw [moveObject, Slots.read_eq hvalue]
    dsimp only [bind, Except.bind]
    rw [Slots.construct_eq hd]
    exact Slots.destroy_eq hvalue'
  · rw [getElem?_set, getElem?_set, length_set, hvalue]
    grind

/-- The part of the destination that is not in the source is free. -/
def Room (slots : Slots T) (s d n : ℕ) : Prop :=
  ∀ i, d ≤ i → i < d + n → i < s ∨ s + n ≤ i → slots[i]? = some none

/-- What a range of slots is after its objects have moved. -/
def Moved (slots slots' : Slots T) (s d n : ℕ) : Prop :=
  ∀ i, slots'[i]? =
    if d ≤ i ∧ i < d + n then slots[i - d + s]?
    else if s ≤ i ∧ i < s + n then some none else slots[i]?

theorem moveForward_spec (hlt : d < s) (hlive : Live slots s n) (hroom : Room slots s d n) :
    ∃ slots', moveForward slots s d n = .ok slots' ∧ slots'.length = slots.length ∧
      Moved slots slots' s d n := by
  induction n generalizing slots s d with
  | zero =>
    exact ⟨slots, rfl, rfl, fun i => by rw [if_neg (by omega), if_neg (by omega)]⟩
  | succ n ih =>
    obtain ⟨mid, hmid, hmidlength, hmidslot⟩ :=
      moveObject_spec hlive.head (hroom d le_rfl (by omega) (.inl hlt))
    have hlive' : Live mid (s + 1) n := fun i hs hi => by
      rw [hmidslot, if_neg (by omega), if_neg (by omega)]
      exact hlive i (by omega) (by omega)
    have hroom' : Room mid (s + 1) (d + 1) n := fun i hd hi hout => by
      rw [hmidslot, if_neg (by omega)]
      split
      · rfl
      · exact hroom i (by omega) (by omega) (by omega)
    obtain ⟨slots', heq, hlen, hslot⟩ := ih (by omega) hlive' hroom'
    refine ⟨slots', ?_, by rw [hlen, hmidlength], fun i => ?_⟩
    · rw [moveForward, hmid]
      exact heq
    · rw [hslot]
      by_cases hi : d = i
      · subst hi
        rw [if_neg (by omega), if_neg (by omega), if_pos (by omega), hmidslot, if_pos rfl,
          Nat.sub_self, Nat.zero_add]
      · grind

theorem moveBackward_spec (hlt : s < d) (hlive : Live slots s n) (hroom : Room slots s d n) :
    ∃ slots', moveBackward slots s d n = .ok slots' ∧ slots'.length = slots.length ∧
      Moved slots slots' s d n := by
  induction n generalizing slots with
  | zero =>
    exact ⟨slots, rfl, rfl, fun i => by rw [if_neg (by omega), if_neg (by omega)]⟩
  | succ n ih =>
    obtain ⟨mid, hmid, hmidlength, hmidslot⟩ :=
      moveObject_spec (hlive (s + n) (by omega) (by omega))
        (hroom (d + n) (by omega) (by omega) (.inr (by omega)))
    have hlive' : Live mid s n := fun i hs hi => by
      rw [hmidslot, if_neg (by omega), if_neg (by omega)]
      exact hlive i (by omega) (by omega)
    have hroom' : Room mid s d n := fun i hd hi hout => by
      rw [hmidslot, if_neg (by omega)]
      split
      · rfl
      · exact hroom i (by omega) (by omega) (by omega)
    obtain ⟨slots', heq, hlen, hslot⟩ := ih hlive' hroom'
    refine ⟨slots', ?_, by rw [hlen, hmidlength], fun i => ?_⟩
    · rw [moveBackward, hmid]
      exact heq
    · rw [hslot, hmidslot, hmidslot]
      grind

theorem moveOverlapping_spec (hle : s ≤ srcEnd) (hne : s ≠ d) (hlive : Live slots s (srcEnd - s))
    (hroom : Room slots s d (srcEnd - s)) :
    ∃ slots', moveOverlapping slots s srcEnd d = .ok slots' ∧ slots'.length = slots.length ∧
      Moved slots slots' s d (srcEnd - s) := by
  rw [moveOverlapping, if_pos hle]
  split
  · next hlt => exact moveForward_spec hlt hlive hroom
  · next hlt => exact moveBackward_spec (by omega) hlive hroom

end TypeOperations

/-! ## `VectorBuffer` -/

/-- What `m_buffer` points to: nothing, the inline buffer, or allocated memory. -/
inductive Pointer (T : Type*) where
  | null
  | inline
  | outOfLine (slots : Slots T)

/-- `VectorBuffer<T, inlineCapacity>`, without the size, which only `Vector` uses. With an
inline capacity of 0 there is no inline buffer to point to. -/
structure VectorBuffer (T : Type*) where
  inlineBuffer : Slots T
  pointer : Pointer T
  capacity : ℕ

namespace VectorBuffer

/-- The memory that `m_buffer` points to. -/
def slots (buffer : VectorBuffer T) : Slots T :=
  match buffer.pointer with
  | .null => []
  | .inline => buffer.inlineBuffer
  | .outOfLine slots => slots

def setSlots (buffer : VectorBuffer T) (slots : Slots T) : VectorBuffer T :=
  match buffer.pointer with
  | .null => buffer
  | .inline => { buffer with inlineBuffer := slots }
  | .outOfLine _ => { buffer with pointer := .outOfLine slots }

def create (traits : VectorTraits) : VectorBuffer T where
  inlineBuffer := List.replicate traits.inlineCapacity none
  pointer := if traits.inlineCapacity = 0 then .null else .inline
  capacity := traits.inlineCapacity

/-- `VectorBufferBase::allocateBuffer`. -/
def allocateOutOfLine (traits : VectorTraits) (buffer : VectorBuffer T) (newCapacity : ℕ) :
    Except Failure (VectorBuffer T) :=
  if (2 ^ 32 - 1) / traits.sizeOf < newCapacity then throw .crash
  else
    let sizeToAllocate := traits.fastMallocGoodSize (newCapacity * traits.sizeOf)
    pure { buffer with
      pointer := .outOfLine (List.replicate (sizeToAllocate / traits.sizeOf) none)
      capacity := sizeToAllocate / traits.sizeOf % 2 ^ 32 }

def allocateBuffer (traits : VectorTraits) (buffer : VectorBuffer T) (newCapacity : ℕ) :
    Except Failure (VectorBuffer T) :=
  if traits.inlineCapacity < newCapacity then allocateOutOfLine traits buffer newCapacity
  else pure { buffer with pointer := .inline, capacity := traits.inlineCapacity }

/-- `VectorBuffer(capacity)`. -/
def createWithCapacity (traits : VectorTraits) (capacity : ℕ) :
    Except Failure (VectorBuffer T) :=
  if traits.inlineCapacity < capacity then allocateOutOfLine traits (create traits) capacity
  else pure (create traits)

/-- `deallocateBuffer(m_buffer)`. -/
def deallocateBuffer (buffer : VectorBuffer T) : VectorBuffer T :=
  match buffer.pointer with
  | .null => buffer
  | .inline => buffer
  | .outOfLine _ => { buffer with pointer := .null, capacity := 0 }

/-- `deallocateBuffer` of a former `m_buffer` whose memory is now as given: the inline buffer
stays, other memory is gone. -/
def deallocateFormer (buffer : VectorBuffer T) (former : Pointer T) (slots : Slots T) :
    VectorBuffer T :=
  match former with
  | .inline => { buffer with inlineBuffer := slots }
  | _ => buffer

/-- The loop of `swapInlineBuffers` that swaps objects. -/
def swapObjects (left right : Slots T) (i : ℕ) : ℕ → Except Failure (Slots T × Slots T)
  | 0 => pure (left, right)
  | count + 1 => do
    let leftValue ← left.read i
    let rightValue ← right.read i
    swapObjects (left.set i (some rightValue)) (right.set i (some leftValue)) (i + 1) count

/-- `swapInlineBuffers`, for the buffers of two objects. -/
def swapInlineBuffers (left right : Slots T) (leftSize rightSize : ℕ) :
    Except Failure (Slots T × Slots T) := do
  let swapBound := min leftSize rightSize
  let (left, right) ← swapObjects left right 0 swapBound
  let (left, right) ← TypeOperations.move left swapBound leftSize right swapBound
  let (right, left) ← TypeOperations.move right swapBound rightSize left swapBound
  pure (left, right)

def swapInlineBuffer (traits : VectorTraits) (buffer other : VectorBuffer T)
    (mySize otherSize : ℕ) : Except Failure (VectorBuffer T × VectorBuffer T) :=
  if traits.isPod then
    pure ({ buffer with inlineBuffer := other.inlineBuffer },
      { other with inlineBuffer := buffer.inlineBuffer })
  else do
    let (mine, others) ←
      swapInlineBuffers buffer.inlineBuffer other.inlineBuffer mySize otherSize
    pure ({ buffer with inlineBuffer := mine }, { other with inlineBuffer := others })

def swapCapacity (buffers : VectorBuffer T × VectorBuffer T) :
    VectorBuffer T × VectorBuffer T :=
  ({ buffers.1 with capacity := buffers.2.capacity },
    { buffers.2 with capacity := buffers.1.capacity })

/-- `swap`, for the buffers of two objects. -/
def swap (traits : VectorTraits) (buffer other : VectorBuffer T) (mySize otherSize : ℕ) :
    Except Failure (VectorBuffer T × VectorBuffer T) :=
  match buffer.pointer, other.pointer with
  | .inline, .inline => do
    let buffers ← swapInlineBuffer traits buffer other mySize otherSize
    pure (swapCapacity buffers)
  | .inline, pointer => do
    let buffers ← swapInlineBuffer traits { buffer with pointer := pointer }
      { other with pointer := .inline } mySize 0
    pure (swapCapacity buffers)
  | pointer, .inline => do
    let buffers ← swapInlineBuffer traits { buffer with pointer := .inline }
      { other with pointer := pointer } 0 otherSize
    pure (swapCapacity buffers)
  | mine, others =>
    pure (swapCapacity ({ buffer with pointer := others }, { other with pointer := mine }))

end VectorBuffer

/-!
## `Deque`

A circular buffer in a `VectorBuffer`. The elements are in the slots from `m_start` on, up to
`m_end`, and one slot always stays free, so that `m_start` and `m_end` are only equal for an
empty deque.
-/

universe u

variable {T : Type u}

/-- `m_start`, `m_end` and `m_buffer`. -/
structure Deque (T : Type u) where
  start : ℕ
  stop : ℕ
  buffer : VectorBuffer T

namespace Deque

def size (deque : Deque T) : ℕ :=
  if deque.start ≤ deque.stop then deque.stop - deque.start
  else deque.stop + deque.buffer.capacity - deque.start

def isEmpty (deque : Deque T) : Bool := deque.start == deque.stop

def create (traits : VectorTraits) : Deque T := ⟨0, 0, .create traits⟩

/-- The index of an iterator after `increment`. -/
def increment (deque : Deque T) (index : ℕ) : ℕ :=
  if index = deque.buffer.capacity - 1 then 0 else index + 1

/-- The index of an iterator after `decrement`. -/
def decrement (deque : Deque T) (index : ℕ) : ℕ :=
  if index = 0 then deque.buffer.capacity - 1 else index - 1

/-- The index of the iterator that is `n` increments after `begin()`. -/
def iteratorAt (deque : Deque T) (n : ℕ) : ℕ := deque.increment^[n] deque.start

/-- Reads from an iterator up to `end()`, for `fuel` elements at most. -/
def elementsFrom (deque : Deque T) (index : ℕ) : ℕ → Except Failure (List T)
  | 0 => throw .diverges
  | fuel + 1 =>
    if index = deque.stop then pure []
    else do
      let value ← deque.buffer.slots.read index
      let rest ← deque.elementsFrom (deque.increment index) fuel
      pure (value :: rest)

/-- The elements from `begin()` to `end()`. -/
def elements (deque : Deque T) : Except Failure (List T) :=
  deque.elementsFrom deque.start (deque.buffer.capacity + 1)

def destroyAll (deque : Deque T) : Except Failure (Deque T) :=
  if deque.start ≤ deque.stop then do
    let slots ← TypeOperations.destruct deque.buffer.slots deque.start deque.stop
    pure { deque with buffer := deque.buffer.setSlots slots }
  else do
    let slots ← TypeOperations.destruct deque.buffer.slots 0 deque.stop
    let slots ← TypeOperations.destruct slots deque.start deque.buffer.capacity
    pure { deque with buffer := deque.buffer.setSlots slots }

def clear (deque : Deque T) : Except Failure (Deque T) := do
  let deque ← deque.destroyAll
  pure ⟨0, 0, deque.buffer.deallocateBuffer⟩

def expandCapacity (traits : VectorTraits) (deque : Deque T) : Except Failure (Deque T) := do
  let oldCapacity := deque.buffer.capacity
  let oldBuffer := deque.buffer.slots
  let buffer ← deque.buffer.allocateBuffer traits (max 16 (oldCapacity + oldCapacity / 4 + 1))
  if deque.start ≤ deque.stop then
    let (old, new) ←
      TypeOperations.move oldBuffer deque.start deque.stop buffer.slots deque.start
    let buffer := (buffer.setSlots new).deallocateFormer deque.buffer.pointer old
    pure { deque with buffer := buffer }
  else
    let (old, new) ← TypeOperations.move oldBuffer 0 deque.stop buffer.slots 0
    let newStart := buffer.capacity - (oldCapacity - deque.start)
    let (old, new) ← TypeOperations.move old deque.start oldCapacity new newStart
    let buffer := (buffer.setSlots new).deallocateFormer deque.buffer.pointer old
    pure { deque with start := newStart, buffer := buffer }

/-- Whether `expandCapacityIfNeeded` gets to its last line. -/
def isFull (deque : Deque T) : Bool :=
  if deque.start ≠ 0 then deque.stop + 1 = deque.start
  else if deque.stop ≠ 0 then deque.stop = deque.buffer.capacity - 1
  else deque.buffer.capacity = 0

def expandCapacityIfNeeded (traits : VectorTraits) (deque : Deque T) :
    Except Failure (Deque T) :=
  if deque.isFull then deque.expandCapacity traits else pure deque

def append (traits : VectorTraits) (deque : Deque T) (value : T) :
    Except Failure (Deque T) := do
  let deque ← deque.expandCapacityIfNeeded traits
  let slots ← deque.buffer.slots.construct deque.stop value
  pure { deque with
    buffer := deque.buffer.setSlots slots
    stop := if deque.stop = deque.buffer.capacity - 1 then 0 else deque.stop + 1 }

def prepend (traits : VectorTraits) (deque : Deque T) (value : T) :
    Except Failure (Deque T) := do
  let deque ← deque.expandCapacityIfNeeded traits
  let start := if deque.start = 0 then deque.buffer.capacity - 1 else deque.start - 1
  let slots ← deque.buffer.slots.construct start value
  pure { deque with buffer := deque.buffer.setSlots slots, start := start }

def removeFirst (deque : Deque T) : Except Failure (Deque T) := do
  let slots ← TypeOperations.destruct deque.buffer.slots deque.start (deque.start + 1)
  pure { deque with
    buffer := deque.buffer.setSlots slots
    start := if deque.start = deque.buffer.capacity - 1 then 0 else deque.start + 1 }

def removeLast (deque : Deque T) : Except Failure (Deque T) := do
  let stop := if deque.stop = 0 then deque.buffer.capacity - 1 else deque.stop - 1
  let slots ← TypeOperations.destruct deque.buffer.slots stop (stop + 1)
  pure { deque with buffer := deque.buffer.setSlots slots, stop := stop }

def takeFirst (deque : Deque T) : Except Failure (Deque T × T) := do
  let oldFirst ← deque.buffer.slots.read deque.start
  let deque ← deque.removeFirst
  pure (deque, oldFirst)

def takeLast (deque : Deque T) : Except Failure (Deque T × T) := do
  let oldLast ← deque.buffer.slots.read (deque.decrement deque.stop)
  let deque ← deque.removeLast
  pure (deque, oldLast)

/-- `remove(position)`. -/
def removeAt (deque : Deque T) (position : ℕ) : Except Failure (Deque T) :=
  if position = deque.stop then pure deque
  else do
    let slots ← TypeOperations.destruct deque.buffer.slots position (position + 1)
    if deque.start ≤ position then
      let slots ← TypeOperations.moveOverlapping slots deque.start position (deque.start + 1)
      pure { deque with
        buffer := deque.buffer.setSlots slots
        start := (deque.start + 1) % deque.buffer.capacity }
    else
      let slots ← TypeOperations.moveOverlapping slots (position + 1) deque.stop position
      pure { deque with
        buffer := deque.buffer.setSlots slots
        stop := (deque.stop - 1 + deque.buffer.capacity) % deque.buffer.capacity }

/-- `remove` of the iterator that is `n` increments after `begin()`. -/
def remove (deque : Deque T) (n : ℕ) : Except Failure (Deque T) :=
  deque.removeAt (deque.iteratorAt n)

/-- `Deque(const Deque&)`. -/
def copyConstruct (traits : VectorTraits) (other : Deque T) : Except Failure (Deque T) := do
  let buffer ← VectorBuffer.createWithCapacity traits other.buffer.capacity
  let otherBuffer := other.buffer.slots
  if other.start ≤ other.stop then
    let slots ← TypeOperations.uninitializedCopy otherBuffer other.start other.stop
      buffer.slots other.start
    pure ⟨other.start, other.stop, buffer.setSlots slots⟩
  else
    let slots ← TypeOperations.uninitializedCopy otherBuffer 0 other.stop buffer.slots 0
    let slots ← TypeOperations.uninitializedCopy otherBuffer other.start buffer.capacity
      slots other.start
    pure ⟨other.start, other.stop, buffer.setSlots slots⟩

/-- `swap`, for two objects. -/
def swap (traits : VectorTraits) (deque other : Deque T) : Except Failure (Deque T × Deque T) := do
  let (mine, others) ← deque.buffer.swap traits other.buffer 0 0
  pure (⟨other.start, other.stop, mine⟩, ⟨deque.start, deque.stop, others⟩)

/-- `Deque(Deque&&)`: the new deque and what is left of the other. -/
def moveConstruct (traits : VectorTraits) (other : Deque T) :
    Except Failure (Deque T × Deque T) :=
  swap traits (create traits) other

/-- `operator=(const Deque&)`. The copy is destroyed at the end. -/
def assign (traits : VectorTraits) (deque other : Deque T) : Except Failure (Deque T) := do
  let copy ← copyConstruct traits other
  let (deque, copy) ← swap traits deque copy
  let _ ← copy.destroyAll
  pure deque

end Deque

/-- The deques of a program, by name. -/
abbrev Deques (ι T : Type u) := ι → Deque T

/-- An operation of the deque that is named first. A constructor makes a new deque, after the
old one of that name is destroyed. -/
inductive DequeOperation (ι T : Type u) where
  | construct (i : ι)
  | copyConstruct (i other : ι)
  | moveConstruct (i other : ι)
  | assign (i other : ι)
  | moveAssign (i other : ι)
  | swap (i other : ι)
  | append (i : ι) (value : T)
  | prepend (i : ι) (value : T)
  | removeFirst (i : ι)
  | removeLast (i : ι)
  | takeFirst (i : ι)
  | takeLast (i : ι)
  | remove (i : ι) (n : ℕ)
  | clear (i : ι)

namespace Deques

variable {ι : Type u} [DecidableEq ι]

/-- `swap` of two deques, or of one with itself, which changes nothing. -/
def swap (traits : VectorTraits) (deques : Deques ι T) (i other : ι) :
    Except Failure (Deques ι T) :=
  if i = other then pure deques
  else do
    let (mine, others) ← (deques i).swap traits (deques other)
    pure (update (update deques i mine) other others)

/-- The deques after an operation, and the element that it returns. -/
def execute (traits : VectorTraits) (deques : Deques ι T) :
    DequeOperation ι T → Except Failure (Deques ι T × Option T)
  | .construct i => do
    let _ ← (deques i).destroyAll
    pure (update deques i (.create traits), none)
  | .copyConstruct i other => do
    let _ ← (deques i).destroyAll
    let deque ← (deques other).copyConstruct traits
    pure (update deques i deque, none)
  | .moveConstruct i other => do
    let _ ← (deques i).destroyAll
    let (deque, left) ← (deques other).moveConstruct traits
    pure (update (update deques i deque) other left, none)
  | .assign i other => do
    let deque ← (deques i).assign traits (deques other)
    pure (update deques i deque, none)
  | .moveAssign i other => do
    let deques ← deques.swap traits i other
    pure (deques, none)
  | .swap i other => do
    let deques ← deques.swap traits i other
    pure (deques, none)
  | .append i value => do
    let deque ← (deques i).append traits value
    pure (update deques i deque, none)
  | .prepend i value => do
    let deque ← (deques i).prepend traits value
    pure (update deques i deque, none)
  | .removeFirst i => do
    let deque ← (deques i).removeFirst
    pure (update deques i deque, none)
  | .removeLast i => do
    let deque ← (deques i).removeLast
    pure (update deques i deque, none)
  | .takeFirst i => do
    let (deque, value) ← (deques i).takeFirst
    pure (update deques i deque, some value)
  | .takeLast i => do
    let (deque, value) ← (deques i).takeLast
    pure (update deques i deque, some value)
  | .remove i n => do
    let deque ← (deques i).remove n
    pure (update deques i deque, none)
  | .clear i => do
    let deque ← (deques i).clear
    pure (update deques i deque, none)

end Deques

end WebKit.WTF
