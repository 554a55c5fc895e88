import Mathlib

/-!
# Memory

What can go wrong in code that works on memory, and words that are loaded and stored.
-/

namespace WebKit.WTF

/-- `CRASH`, an access the code must not make, or a loop that does not end. -/
inductive Failure where
  | crash
  | badAccess
  | diverges
  deriving DecidableEq

variable {α : Type*}

def load (memory : List α) (i : ℕ) : Except Failure α :=
  match memory[i]? with
  | some value => pure value
  | none => throw .badAccess

def store (memory : List α) (i : ℕ) (value : α) : Except Failure (List α) :=
  if i < memory.length then pure (memory.set i value) else throw .badAccess

variable {memory rest : List α} {i : ℕ} {value : α}

theorem load_eq (h : i < memory.length) : load memory i = .ok memory[i] := by
  rw [load, List.getElem?_eq_getElem h]
  rfl

theorem store_eq (h : i < memory.length) : store memory i value = .ok (memory.set i value) := by
  rw [store, if_pos h]
  rfl

theorem load_eq_head (h : memory.drop i = value :: rest) : load memory i = .ok value := by
  have hhead : memory[i]? = some value := by
    rw [← Nat.add_zero i, ← List.getElem?_drop, h]
    rfl
  rw [load, hhead]
  rfl

theorem drop_tail (h : memory.drop i = value :: rest) : memory.drop (i + 1) = rest := by
  rw [← List.drop_drop, h]
  rfl

end WebKit.WTF
