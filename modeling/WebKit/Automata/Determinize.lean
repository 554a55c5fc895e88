import Mathlib

/-!
# Deterministic machines that track an automaton

A deterministic machine with a partial step function runs on a word until it is stuck
(`run`). Where its states are labelled with sets of states of an automaton with
ε-transitions, and every step moves from a label to its step set, a run ends in the set of
states the automaton can be in and is stuck when there is none (`run_label`, `run_stuck`).
-/

namespace Automata

variable {α σ S : Type*}

/-- The state a machine is in after a word, or `none` when it is stuck. -/
def run (step : S → α → Option S) (s : S) (w : List α) : Option S := w.foldlM step s

section Run

variable {step : S → α → Option S} {s t : S} {a : α} {v w : List α}

@[simp] theorem run_nil : run step s [] = some s := rfl

theorem run_cons : run step s (a :: w) = (step s a).bind (run step · w) := List.foldlM_cons

theorem run_append : run step s (v ++ w) = (run step s v).bind (run step · w) := List.foldlM_append

theorem run_concat : run step s (v ++ [a]) = (run step s v).bind (step · a) := by
  rw [run_append]
  congr
  funext t
  rw [run_cons]
  cases step t a <;> rfl

end Run

section Closure

variable {M : εNFA α σ} {A B : Set σ}

/-- A set that is closed under ε-transitions and contains the start contains the closure. -/
theorem εClosure_subset (hbase : A ⊆ B) (hstep : ∀ s ∈ B, M.step s none ⊆ B) :
    M.εClosure A ⊆ B := by
  intro s hs
  induction hs with
  | base s hs => exact hbase hs
  | step s t ht _ ih => exact hstep s ih ht

theorem εClosure_trans {s t : σ} (h : s ∈ M.εClosure A) (ht : t ∈ M.εClosure {s}) :
    t ∈ M.εClosure A :=
  εClosure_subset (Set.singleton_subset_iff.mpr h) (fun u hu v hv => εNFA.εClosure.step u v hv hu) ht

end Closure

section Label

variable {M : εNFA α σ} {step : S → α → Option S} {states : Set S} {label : S → Set σ}
  {s t : S} {A : Set σ} {w : List α}

/-- Every step of the machine moves from the label of a state to its step set. -/
structure Tracks (M : εNFA α σ) (step : S → α → Option S) (states : Set S)
    (label : S → Set σ) : Prop where
  move : ∀ s ∈ states, ∀ a t, step s a = some t →
    t ∈ states ∧ label t = M.stepSet (label s) a
  stuck : ∀ s ∈ states, ∀ a, step s a = none → M.stepSet (label s) a = ∅

section

variable (h : Tracks M step states label)
include h

theorem Tracks.run (hs : s ∈ states)
    (hlabel : label s = M.εClosure A) (w : List α) :
    (∀ t, run step s w = some t → t ∈ states ∧ label t = M.evalFrom A w) ∧
      (run step s w = none → M.evalFrom A w = ∅) := by
  induction w using List.reverseRecOn with
  | nil =>
    constructor
    · rintro t ⟨⟩
      exact ⟨hs, hlabel⟩
    · rintro ⟨⟩
  | append_singleton w a ih =>
    obtain ⟨hsome, hnone⟩ := ih
    rw [run_concat, εNFA.evalFrom_append_singleton]
    cases hr : Automata.run step s w with
    | none =>
      rw [hnone hr]
      exact ⟨fun t ht => (by cases ht), fun _ => εNFA.stepSet_empty a⟩
    | some r =>
      obtain ⟨hmem, hl⟩ := hsome r hr
      rw [← hl]
      exact ⟨h.move r hmem a, h.stuck r hmem a⟩

theorem Tracks.run_label (hs : s ∈ states)
    (hlabel : label s = M.εClosure A) (hrun : Automata.run step s w = some t) :
    t ∈ states ∧ label t = M.evalFrom A w :=
  (h.run hs hlabel w).1 t hrun

theorem Tracks.run_stuck (hne : ∀ s ∈ states, (label s).Nonempty) (hs : s ∈ states)
    (hlabel : label s = M.εClosure A) :
    Automata.run step s w = none ↔ M.evalFrom A w = ∅ := by
  constructor
  · exact (h.run hs hlabel w).2
  · intro hempty
    cases hr : Automata.run step s w with
    | none => rfl
    | some t =>
      obtain ⟨hmem, hl⟩ := h.run_label hs hlabel hr
      rw [hempty] at hl
      exact absurd hl (hne t hmem).ne_empty

end

end Label

end Automata
