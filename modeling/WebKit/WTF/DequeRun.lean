import WebKit.Transition.Run
import WebKit.WTF.DequeSpec

/-!
# Runs of `Deque` operations

A program runs operations of its deques beside the same operations of lists. As long as no
`swap` is asked to move elements out of an inline buffer, the deques are the lists.
-/

namespace WebKit.WTF

open Transition Function List

universe u

variable {ι T : Type u} [DecidableEq ι] {traits : VectorTraits}

namespace DequeOperation

/-- The lists after an operation, and the element that it returns. -/
def apply (lists : ι → List T) : DequeOperation ι T → (ι → List T) × Option T
  | .construct i => (update lists i [], none)
  | .copyConstruct i other => (update lists i (lists other), none)
  | .moveConstruct i other =>
    (update (update lists i (lists other)) other [], none)
  | .assign i other => (update lists i (lists other), none)
  | .moveAssign i other | .swap i other =>
    (update (update lists i (lists other)) other (lists i), none)
  | .append i value => (update lists i (lists i ++ [value]), none)
  | .prepend i value => (update lists i (value :: lists i), none)
  | .removeFirst i => (update lists i (lists i).tail, none)
  | .removeLast i => (update lists i (lists i).dropLast, none)
  | .takeFirst i => (update lists i (lists i).tail, (lists i).head?)
  | .takeLast i => (update lists i (lists i).dropLast, (lists i).getLast?)
  | .remove i n => (update lists i ((lists i).eraseIdx n), none)
  | .clear i => (update lists i [], none)

/-- What the assertions ask of the caller. A new deque is not made of itself. -/
def Legal (lists : ι → List T) : DequeOperation ι T → Prop
  | .copyConstruct i other | .moveConstruct i other => i ≠ other
  | .removeFirst i | .removeLast i | .takeFirst i | .takeLast i => lists i ≠ []
  | .remove i n => n ≤ (lists i).length
  | _ => True

/-- Every swap, also those of the move and assignment operations, finds no element in an
inline buffer that it would have to move. -/
def KeepsElements (traits : VectorTraits) (deques : Deques ι T) : DequeOperation ι T → Prop
  | .moveConstruct _ other => (deques other).Swappable traits
  | .assign i other => (deques i).Swappable traits ∧ (deques other).Swappable traits
  | .moveAssign i other | .swap i other =>
    i ≠ other → (deques i).Swappable traits ∧ (deques other).Swappable traits
  | _ => True

end DequeOperation

namespace Deques

variable {deques : Deques ι T} {lists : ι → List T} {deque : Deque T} {l : List T} {i j : ι}
  {operation : DequeOperation ι T}

def Represent (traits : VectorTraits) (deques : Deques ι T) (lists : ι → List T) : Prop :=
  ∀ i, (deques i).Represents traits (lists i)

section

variable (h : deques.Represent traits lists)
include h

theorem Represent.update (hdeque : deque.Represents traits l) :
    Represent traits (update deques i deque) (update lists i l) := by
  intro j
  by_cases hj : j = i
  · subst hj
    rw [update_self, update_self]
    exact hdeque
  · rw [update_of_ne hj, update_of_ne hj]
    exact h j

theorem Represent.swap (hswap : i ≠ j → (deques i).Swappable traits ∧ (deques j).Swappable traits) :
    Outcome (· = Failure.crash) (fun deques' => Represent traits deques'
        (Function.update (Function.update lists i (lists j)) j (lists i)))
      (deques.swap traits i j) := by
  rw [Deques.swap]
  split
  · next heq =>
    subst heq
    rw [Function.update_eq_self, Function.update_eq_self]
    exact .pure h
  · next hne =>
    rw [(h i).swap (h j) (hswap hne).1 (hswap hne).2]
    exact .pure ((h.update (h j)).update (h i))

theorem Represent.execute (hlegal : operation.Legal lists)
    (hkeeps : operation.KeepsElements traits deques) :
    Outcome (· = Failure.crash) (fun r => Represent traits r.1 (operation.apply lists).1 ∧
        r.2 = (operation.apply lists).2)
      (deques.execute traits operation) := by
  cases operation with
  | construct i =>
    exact (h i).destroyAll.bind fun _ _ => .pure ⟨h.update .create, rfl⟩
  | copyConstruct i other =>
    refine (h i).destroyAll.bind fun _ _ => ?_
    exact (h other).copyConstruct.bind fun _ h' => .pure ⟨h.update h'.1, rfl⟩
  | moveConstruct i other =>
    have hcreate : (Deque.create traits : Deque T).Swappable traits := .inr fun _ => rfl
    refine (h i).destroyAll.bind fun _ _ => ?_
    rw [Deque.moveConstruct, Deque.Represents.create.swap (h other) hcreate hkeeps]
    exact .pure ⟨(h.update (h other)).update .create, rfl⟩
  | assign i other =>
    exact ((h i).assign (h other) hkeeps.1 hkeeps.2).bind fun _ h' => .pure ⟨h.update h', rfl⟩
  | moveAssign | swap => exact (h.swap hkeeps).bind fun _ h' => .pure ⟨h', rfl⟩
  | append i value => exact (h i).append.bind fun _ h' => .pure ⟨h.update h', rfl⟩
  | prepend i value => exact (h i).prepend.bind fun _ h' => .pure ⟨h.update h', rfl⟩
  | removeFirst i =>
    obtain ⟨value, l, hl⟩ := exists_cons_of_ne_nil hlegal
    have hi := h i
    rw [hl] at hi
    refine hi.removeFirst.bind fun _ h' => .pure ⟨h.update ?_, rfl⟩
    rwa [hl]
  | takeFirst i =>
    obtain ⟨value, l, hl⟩ := exists_cons_of_ne_nil hlegal
    have hi := h i
    rw [hl] at hi
    refine hi.takeFirst.bind fun _ h' => .pure ⟨h.update ?_, ?_⟩
    · rw [hl]
      exact h'.1
    · rw [h'.2, DequeOperation.apply, hl]
      rfl
  | removeLast i =>
    obtain ⟨l, value, hl⟩ : ∃ l value, lists i = l ++ [value] :=
      ⟨_, _, (dropLast_append_getLast hlegal).symm⟩
    have hi := h i
    rw [hl] at hi
    refine hi.removeLast.bind fun _ h' => .pure ⟨h.update ?_, rfl⟩
    rwa [hl, dropLast_concat]
  | takeLast i =>
    obtain ⟨l, value, hl⟩ : ∃ l value, lists i = l ++ [value] :=
      ⟨_, _, (dropLast_append_getLast hlegal).symm⟩
    have hi := h i
    rw [hl] at hi
    refine hi.takeLast.bind fun _ h' => .pure ⟨h.update ?_, ?_⟩
    · rw [hl, dropLast_concat]
      exact h'.1
    · rw [h'.2, DequeOperation.apply, hl, getLast?_concat]
  | remove i n =>
    rcases lt_or_eq_of_le hlegal with hlt | heq
    · exact ((h i).remove hlt).bind fun _ h' => .pure ⟨h.update h', rfl⟩
    · have hrem := (h i).remove_length
      have herase : (lists i).eraseIdx n = lists i := eraseIdx_of_length_le (by omega)
      rw [Deques.execute, heq, hrem]
      refine .pure ⟨h.update ?_, rfl⟩
      rw [← heq, herase]
      exact h i
  | clear i => exact (h i).clear.bind fun _ h' => .pure ⟨h.update h', rfl⟩

end

end Deques

/-- The deque is the list, as far as its users can see, and `m_start` and `m_end` are in
range, with a free slot. -/
structure Deque.Agrees (deque : Deque T) (l : List T) : Prop where
  elements_eq : deque.elements = .ok l
  size_eq : deque.size = l.length
  isEmpty_iff : deque.isEmpty = true ↔ l = []
  bounds : deque.buffer.capacity = 0 ∧ deque.start = 0 ∧ deque.stop = 0 ∨
    deque.start < deque.buffer.capacity ∧ deque.stop < deque.buffer.capacity ∧
      deque.size < deque.buffer.capacity

theorem Deque.Represents.agrees {deque : Deque T} {l : List T} (h : deque.Represents traits l) :
    deque.Agrees l :=
  ⟨h.elements_eq, h.size_eq, h.isEmpty_iff, h.bounds⟩

/-- The deques of a program and what they should be. -/
structure DequeState (ι T : Type u) where
  deques : Deques ι T
  lists : ι → List T

namespace DequeState

variable {state : DequeState ι T} {operations : List (DequeOperation ι T)}

/-- All deques are empty. -/
def start (traits : VectorTraits) : DequeState ι T := ⟨fun _ => .create traits, fun _ => []⟩

/-- An operation that does what the assertions ask for and does not fail. -/
structure Step (traits : VectorTraits) (state : DequeState ι T) (operation : DequeOperation ι T)
    (state' : DequeState ι T) : Prop where
  legal : operation.Legal state.lists
  execute : ∃ r, state.deques.execute traits operation = .ok (state'.deques, r)
  apply : state'.lists = (operation.apply state.lists).1

def KeepsElements (traits : VectorTraits) (state : DequeState ι T)
    (operation : DequeOperation ι T) : Prop :=
  operation.KeepsElements traits state.deques

end DequeState

/-- Strings in a deque with an inline buffer for four: not plain data, eight bytes each, and
memory of the size that is asked for. -/
def stringTraits : VectorTraits where
  inlineCapacity := 4
  sizeOf := 8
  isPod := false
  fastMallocGoodSize := id
  inlineCapacity_ne_one := by decide
  sizeOf_pos := by decide
  le_goodSize := fun _ => le_rfl
  goodSize_mono := fun _ _ h => h
  goodSize_goodSize := fun _ => rfl
  goodSize_lt := fun _ h => h

namespace DequeState

end DequeState

end WebKit.WTF
