import Mathlib.Data.List.Count
import Mathlib.Data.List.Perm.Basic

/-!
# Counters that saturate

A counter that has reached its cap stays there. The others are exact: `Tracks cap count keys`
says that a counter is at the cap or counts how often its key occurs in the list. So a key of the
list is never missed (`Tracks.ne_zero`), however many keys come and go.
-/

open List Function

namespace Counting

variable {κ : Type*} [DecidableEq κ] {cap : ℕ} {count : κ → ℕ} {keys keys' : List κ} {key : κ}

/-- Another occurrence of the key. -/
def increment (cap : ℕ) (count : κ → ℕ) (key : κ) : κ → ℕ :=
  if count key < cap then update count key (count key + 1) else count

/-- One occurrence less. A counter at 0 wraps around. -/
def decrement (cap : ℕ) (count : κ → ℕ) (key : κ) : κ → ℕ :=
  if count key < cap then
    update count key (if count key = 0 then cap else count key - 1)
  else count

def Tracks (cap : ℕ) (count : κ → ℕ) (keys : List κ) : Prop :=
  ∀ key, count key = cap ∨ count key = keys.count key ∧ count key < cap

namespace Tracks

theorem nil (hcap : 0 < cap) : Tracks cap (fun _ : κ => 0) [] := fun _ => .inr ⟨rfl, hcap⟩

theorem perm (h : Tracks cap count keys) (hperm : keys.Perm keys') : Tracks cap count keys' :=
  fun key => hperm.count_eq key ▸ h key

theorem increment (h : Tracks cap count keys) (key : κ) :
    Tracks cap (increment cap count key) (key :: keys) := by
  intro key'
  unfold Counting.increment
  by_cases heq : key' = key
  · subst heq
    rw [count_cons_self]
    split
    · rw [update_self]
      rcases h key' with hcap | ⟨hcount, -⟩ <;> omega
    · exact .inl ((h key').resolve_right (by omega))
  · rw [count_cons_of_ne (Ne.symm heq)]
    split
    · rw [update_of_ne heq]
      exact h key'
    · exact h key'

theorem decrement (h : Tracks cap count (key :: keys)) :
    Tracks cap (decrement cap count key) keys := by
  intro key'
  unfold Counting.decrement
  by_cases heq : key' = key
  · subst heq
    have hkey := h key'
    rw [count_cons_self] at hkey
    split
    · rw [update_self]
      rcases hkey with hcap | ⟨hcount, -⟩
      · omega
      · rw [if_neg (by omega)]
        omega
    · exact .inl (hkey.resolve_right (by omega))
  · have hkey := h key'
    rw [count_cons_of_ne (Ne.symm heq)] at hkey
    split
    · rw [update_of_ne heq]
      exact hkey
    · exact hkey

theorem ne_zero (h : Tracks cap count keys) (hcap : 0 < cap) (hkey : key ∈ keys) :
    count key ≠ 0 := by
  have hpos := count_pos_iff.mpr hkey
  rcases h key with heq | ⟨heq, -⟩ <;> omega

end Tracks

end Counting
