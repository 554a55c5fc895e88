import Mathlib.Data.List.Basic

/-!
# Changes of a map

A `Change` sets one key of a map, removes one, or clears the map. Where a list of changes
is still on its way, what a key will hold is decided by the last change that touches it
(`lastValue`), and a key that none of them touches keeps what the map holds now. Replicas
that apply their own changes before they are confirmed are compared with the original
through `lastValue`.
-/

namespace Replica

/-- A change of a map from keys to values. -/
inductive Change (K V : Type*)
  | set (key : K) (value : V)
  | remove (key : K)
  | clear
  deriving DecidableEq, Repr

variable {K V : Type*} [DecidableEq K]

namespace Change

/-- What the change makes of a key, or `none` when it does not touch the key. -/
def valueAt : Change K V → K → Option (Option V)
  | .set key value, k => if key = k then some (some value) else none
  | .remove key, k => if key = k then some none else none
  | .clear, _ => some none

/-- The change sets or removes this key. -/
def isAbout (k : K) : Change K V → Bool
  | .set key _ => key = k
  | .remove key => key = k
  | .clear => false

def isClear : Change K V → Bool
  | .set _ _ => false
  | .remove _ => false
  | .clear => true

/-- The map after the change. -/
def apply (c : Change K V) (f : K → Option V) (k : K) : Option V :=
  (c.valueAt k).getD (f k)

@[simp] theorem valueAt_clear (k : K) : (clear : Change K V).valueAt k = some none := rfl

section

variable {c : Change K V} {k : K}

theorem valueAt_eq_none_of_ne (habout : c.isAbout k = false)
    (hclear : c.isClear = false) : c.valueAt k = none := by
  cases c with
  | set key | remove key =>
    have hne : key ≠ k := by simpa [isAbout] using habout
    simp [valueAt, hne]
  | clear => simp [isClear] at hclear

theorem eq_set_of_valueAt {v : V} (h : c.valueAt k = some (some v)) : ∃ key, c = .set key v := by
  cases c with
  | set key value =>
    by_cases hk : key = k
    · simp only [valueAt, if_pos hk, Option.some.injEq] at h
      exact ⟨key, by rw [h]⟩
    · simp [valueAt, hk] at h
  | remove key =>
    by_cases hk : key = k <;> simp [valueAt, hk] at h
  | clear => simp at h

theorem isAbout_eq_false (h : c.valueAt k = none) : c.isAbout k = false := by
  cases c with
  | set | remove => simpa [valueAt, isAbout] using h
  | clear => rfl

theorem isClear_eq_false (h : c.valueAt k = none) : c.isClear = false := by
  cases c with
  | set | remove => rfl
  | clear => simp at h

theorem apply_of_none (f : K → Option V) (h : c.valueAt k = none) : c.apply f k = f k := by
  simp [apply, h]

theorem apply_of_some {v : Option V} (f : K → Option V)
    (h : c.valueAt k = some v) : c.apply f k = v := by
  simp [apply, h]

end

end Change

/-- What the last of the changes that touches the key makes of it. -/
def lastValue : List (Change K V) → K → Option (Option V)
  | [], _ => none
  | c :: cs, k => (lastValue cs k).or (c.valueAt k)

variable {l m : List (Change K V)} {c : Change K V} {k : K}

@[simp] theorem lastValue_nil : lastValue ([] : List (Change K V)) k = none := rfl

theorem lastValue_append : lastValue (l ++ m) k = (lastValue m k).or (lastValue l k) := by
  induction l with
  | nil => simp
  | cons c l ih => simp only [List.cons_append, lastValue, ih, Option.or_assoc]

theorem lastValue_of_append (h : lastValue (l ++ m) k = none) :
    lastValue l k = none ∧ lastValue m k = none := by
  rw [lastValue_append, Option.or_eq_none_iff] at h
  exact ⟨h.2, h.1⟩

theorem lastValue_eq_none : lastValue l k = none ↔ ∀ c ∈ l, c.valueAt k = none := by
  induction l with
  | nil => simp
  | cons c l ih => simp only [lastValue, Option.or_eq_none_iff, ih, List.forall_mem_cons, and_comm]

theorem lastValue_concat : lastValue (l ++ [c]) k = (c.valueAt k).or (lastValue l k) := by
  rw [lastValue_append, lastValue, lastValue_nil, Option.none_or]

theorem exists_of_lastValue {v : Option V} (h : lastValue l k = some v) :
    ∃ c ∈ l, c.valueAt k = some v := by
  induction l with
  | nil => cases h
  | cons c l ih =>
    rw [lastValue, Option.or_eq_some_iff] at h
    rcases h with h | ⟨_, h⟩
    · obtain ⟨d, hd, hvalue⟩ := ih h
      exact ⟨d, List.mem_cons_of_mem _ hd, hvalue⟩
    · exact ⟨c, List.mem_cons_self, h⟩

theorem lastValue_of_last {v : Option V} (hv : c.valueAt k = some v)
    (hlast : ∀ d ∈ m, d.valueAt k = none) : lastValue (l ++ c :: m) k = some v := by
  rw [lastValue_append, lastValue, lastValue_eq_none.mpr hlast, hv]
  rfl

theorem lastValue_ne_none_of_clear (h : .clear ∈ l) : lastValue l k ≠ none := by
  intro hnone
  have hclear := lastValue_eq_none.mp hnone _ h
  simp at hclear

/-- The map after all the changes. -/
def applyAll (l : List (Change K V)) (f : K → Option V) (k : K) : Option V :=
  (lastValue l k).getD (f k)

@[simp] theorem applyAll_nil (f : K → Option V) : applyAll [] f = f := rfl

theorem applyAll_cons (f : K → Option V) : applyAll (c :: l) f = applyAll l (c.apply f) := by
  funext k
  simp only [applyAll, Change.apply, lastValue]
  cases lastValue l k <;> rfl

theorem applyAll_concat (f : K → Option V) :
    applyAll (l ++ [c]) f k = c.apply (applyAll l f) k := by
  unfold applyAll Change.apply
  rw [lastValue_concat]
  cases c.valueAt k <;> rfl

end Replica
