import Mathlib.Data.List.Basic

/-!
# Postconditions of programs that can fail

`Outcome fails post x`: when the program `x` returns, its result satisfies `post`, and when
it fails, the failure satisfies `fails`. With one rule for each way in which programs are
put together, a spec of a program is assembled from the specs of its parts.
-/

namespace Transition

open List

universe u v

variable {ε : Type u} {α β σ : Type v} {fails : ε → Prop}

def Outcome (fails : ε → Prop) (post : α → Prop) : Except ε α → Prop
  | .ok a => post a
  | .error e => fails e

namespace Outcome

variable {post : α → Prop} {x : Except ε α}

theorem pure {a : α} (h : post a) : Outcome fails post (Pure.pure a) := h

theorem throw {e : ε} (h : fails e) : Outcome fails post (MonadExcept.throw e) := h

variable {f : α → Except ε β}

theorem bind {post' : β → Prop} (hx : Outcome fails post x)
    (hf : ∀ a, post a → Outcome fails post' (f a)) : Outcome fails post' (x >>= f) := by
  cases x with
  | error e => exact hx
  | ok a => exact hf a hx

theorem bind_of_eq_ok {post' : β → Prop} {a : α} (hx : x = .ok a)
    (hf : Outcome fails post' (f a)) : Outcome fails post' (x >>= f) := by
  subst hx
  exact hf

theorem mono {post' : α → Prop} (hx : Outcome fails post x) (h : ∀ a, post a → post' a) :
    Outcome fails post' x := by
  cases x with
  | error e => exact hx
  | ok a => exact h a hx

theorem mono_fails {fails' : ε → Prop} (h : ∀ e, fails e → fails' e)
    (hx : Outcome fails post x) : Outcome fails' post x := by
  cases x with
  | error e => exact h e hx
  | ok a => exact hx

theorem of_eq_ok {a : α} (hx : x = .ok a) (h : post a) : Outcome fails post x := by
  subst hx
  exact h

theorem of_ok {a : α} (hx : Outcome fails post x) (h : x = .ok a) : post a := by
  subst h
  exact hx

theorem of_error {e : ε} (hx : Outcome fails post x) (h : x = .error e) : fails e := by
  subst h
  exact hx

/-- A loop over a list, with an invariant that knows what has been done. -/
theorem foldlM {I : List α → σ → Prop} {f : σ → α → Except ε σ} {l : List α} {s : σ} (hs : I [] s)
    (hf : ∀ done a rest s, l = done ++ a :: rest → I done s →
      Outcome fails (I (done ++ [a])) (f s a)) :
    Outcome fails (I l) (l.foldlM f s) := by
  suffices h : ∀ rest done s, l = done ++ rest → I done s →
      Outcome fails (I l) (rest.foldlM f s) from h l [] s rfl hs
  intro rest
  induction rest with
  | nil =>
    intro done s hl hI
    rw [hl, append_nil]
    exact pure hI
  | cons a rest ih =>
    intro done s hl hI
    refine (hf done a rest s hl hI).bind fun t ht => ?_
    exact ih (done ++ [a]) t (by rw [hl, append_assoc]; rfl) ht

theorem mapM {P : α → β → Prop} {l : List α} (hf : ∀ a ∈ l, Outcome fails (P a) (f a)) :
    Outcome fails (List.Forall₂ P l) (l.mapM f) := by
  induction l with
  | nil => exact pure (List.Forall₂.nil : List.Forall₂ P [] [])
  | cons a l ih =>
    rw [mapM_cons]
    refine (hf a mem_cons_self).bind fun b hb => ?_
    refine (ih fun c hc => hf c (mem_cons_of_mem a hc)).bind fun bs hbs => ?_
    exact pure (List.Forall₂.cons hb hbs)

end Outcome

section Range

variable {I : ℕ → σ → Prop} {f : σ → ℕ → Except ε σ} {n : ℕ} {s : σ}

/-- A loop over the numbers below `n` whose iterations all succeed. -/
theorem foldlM_range (hs : I 0 s) (hf : ∀ i < n, ∀ s, I i s → ∃ t, f s i = .ok t ∧ I (i + 1) t) :
    ∃ t, (range n).foldlM f s = .ok t ∧ I n t := by
  induction n with
  | zero => exact ⟨s, rfl, hs⟩
  | succ n ih =>
    obtain ⟨t, ht, hI⟩ := ih fun i hi => hf i (Nat.lt_succ_of_lt hi)
    obtain ⟨u, hu, hI'⟩ := hf n (Nat.lt_succ_self n) t hI
    refine ⟨u, ?_, hI'⟩
    rw [range_succ, foldlM_append, ht]
    dsimp only [bind, Except.bind]
    rw [foldlM_cons, hu]
    rfl

theorem foldlM_range_reverse (hs : I n s)
    (hf : ∀ i < n, ∀ s, I (i + 1) s → ∃ t, f s i = .ok t ∧ I i t) :
    ∃ t, (range n).reverse.foldlM f s = .ok t ∧ I 0 t := by
  induction n generalizing s with
  | zero => exact ⟨s, rfl, hs⟩
  | succ n ih =>
    obtain ⟨t, ht, hI⟩ := hf n (Nat.lt_succ_self n) s hs
    obtain ⟨u, hu, hI'⟩ := ih hI fun i hi => hf i (Nat.lt_succ_of_lt hi)
    refine ⟨u, ?_, hI'⟩
    rw [range_succ, reverse_append, reverse_singleton, singleton_append, foldlM_cons, ht]
    exact hu

end Range

end Transition
