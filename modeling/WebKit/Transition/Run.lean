import Mathlib.Data.List.Basic
import Mathlib.Logic.Relation

/-!
# Runs of labelled transition systems

A system is a step relation `State → Label → State → Prop`. `Run step s ls t` says that
the labels `ls`, taken in order, lead from `s` to `t`. A guard on the steps (`guarded`)
restricts a system to the steps that meet a condition on the state before the step and
its label, and an invariant that every guarded step preserves holds at the end of every
guarded run (`Run.preserves`).
-/

namespace Transition

variable {State Label : Type*}

/-- The labels, taken in order, lead from the first state to the last. -/
inductive Run (step : State → Label → State → Prop) : State → List Label → State → Prop
  | nil (s : State) : Run step s [] s
  | cons {s t u : State} {l : Label} {ls : List Label} :
      step s l t → Run step t ls u → Run step s (l :: ls) u

/-- The steps of a system that meet a condition on the state and the label. -/
def guarded (step : State → Label → State → Prop) (guard : State → Label → Prop) :
    State → Label → State → Prop :=
  fun s l t => guard s l ∧ step s l t

namespace Run

variable {step : State → Label → State → Prop} {s t u : State} {l : Label}
  {ls ms : List Label}

theorem single (h : step s l t) : Run step s [l] t := .cons h (.nil t)

theorem append (h1 : Run step s ls t) (h2 : Run step t ms u) : Run step s (ls ++ ms) u := by
  induction h1 with
  | nil _ => exact h2
  | cons hstep _ ih => exact .cons hstep (ih h2)

theorem snoc (h : Run step s ls t) (hstep : step t l u) : Run step s (ls ++ [l]) u :=
  h.append (single hstep)

theorem mono {step' : State → Label → State → Prop} (hle : ∀ s l t, step s l t → step' s l t)
    (h : Run step s ls t) : Run step' s ls t := by
  induction h with
  | nil _ => exact .nil _
  | cons hstep _ ih => exact .cons (hle _ _ _ hstep) ih

theorem of_foldlM {f : State → Label → Option State} (h : ls.foldlM f s = some t) :
    Run (fun s l t => f s l = some t) s ls t := by
  induction ls generalizing s with
  | nil =>
    cases h
    exact .nil _
  | cons l ls ih =>
    obtain ⟨r, hstep, hrest⟩ := Option.bind_eq_some_iff.mp h
    exact .cons hstep (ih hrest)

theorem preserves {I : State → Prop} (hstep : ∀ s l t, I s → step s l t → I t)
    (h : Run step s ls t) (hs : I s) : I t := by
  induction h with
  | nil _ => exact hs
  | cons hst _ ih => exact ih (hstep _ _ _ hs hst)

/-- A property of the labels that every step from inside an invariant has holds of every
label of a run that starts inside it. -/
theorem forall_label {I : State → Prop} {P : Label → Prop}
    (hI : ∀ s l t, I s → step s l t → I t) (hP : ∀ s l t, I s → step s l t → P l)
    (h : Run step s ls t) (hs : I s) : ∀ l ∈ ls, P l := by
  induction h with
  | nil _ => simp
  | cons hst _ ih =>
    intro l hl
    rcases List.mem_cons.mp hl with rfl | hl
    · exact hP _ _ _ hs hst
    · exact ih (hI _ _ _ hs hst) l hl

end Run

/-!
## Undo logs

Every change of a state puts an action in front of a log, and replaying the log undoes the
changes, the last one first. `key` is the part of the state that is to be restored; the actions
may not look at the rest of it (`Respects`).
-/

variable {Action State Key : Type*} {undo : Action → State → State} {key : State → Key}
  {log : List Action} {s t : State} {a : Action}

/-- The actions of a log, in order. -/
def replay (undo : Action → State → State) (log : List Action) (s : State) : State :=
  log.foldl (fun s a => undo a s) s

@[simp] theorem replay_nil : replay undo [] s = s := rfl

@[simp] theorem replay_cons : replay undo (a :: log) s = replay undo log (undo a s) := rfl

/-- What an action does to the key depends on the key alone. -/
def Respects (undo : Action → State → State) (key : State → Key) : Prop :=
  ∀ a s t, key s = key t → key (undo a s) = key (undo a t)

theorem Respects.replay (h : Respects undo key) (log : List Action) (heq : key s = key t) :
    key (replay undo log s) = key (replay undo log t) := by
  induction log generalizing s t with
  | nil => exact heq
  | cons a log ih => exact ih (h a s t heq)

theorem Respects.push (h : Respects undo key) (log : List Action) (hundo : key (undo a t) = key s) :
    key (Transition.replay undo (a :: log) t) = key (Transition.replay undo log s) :=
  h.replay log hundo

end Transition
