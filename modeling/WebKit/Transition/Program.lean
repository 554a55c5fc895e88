import Mathlib.Data.List.Basic

/-!
# Programs with a state that can fail

A program of `ExceptT ε (StateM σ)` keeps the state it has reached when it fails.
`Meets pre m post fails`: from a state that satisfies `pre`, the program `m` either returns
a value and a state that satisfy `post`, or fails with an error and a state that satisfy
`fails`. There is one rule for each way in which programs are put together, and with
`fails` taken as falsity the same rules prove that a program returns.
-/

namespace Transition

universe u

variable {ε σ α β : Type u}

/-- What a program ends with, and the state it ends in. -/
def exec (m : ExceptT ε (StateM σ) α) (s : σ) : Except ε α × σ := m.run.run s

@[simp] theorem exec_pure (a : α) (s : σ) :
    exec (pure a : ExceptT ε (StateM σ) α) s = (.ok a, s) := rfl

@[simp] theorem exec_throw (e : ε) (s : σ) :
    exec (throw e : ExceptT ε (StateM σ) α) s = (.error e, s) := rfl

@[simp] theorem exec_get (s : σ) : exec (get : ExceptT ε (StateM σ) σ) s = (.ok s, s) := rfl

@[simp] theorem exec_modify (f : σ → σ) (s : σ) :
    exec (modify f : ExceptT ε (StateM σ) PUnit) s = (.ok ⟨⟩, f s) := rfl

theorem exec_bind (m : ExceptT ε (StateM σ) α) (f : α → ExceptT ε (StateM σ) β) (s : σ) :
    exec (m >>= f) s = match exec m s with
      | (.ok a, t) => exec (f a) t
      | (.error e, t) => (.error e, t) := by
  rcases h : exec m s with ⟨a | a, t⟩
  · have hrun : m.run.run s = (.error a, t) := h
    unfold exec
    rw [ExceptT.run_bind, StateT.run_bind, hrun]
    rfl
  · have hrun : m.run.run s = (.ok a, t) := h
    unfold exec
    rw [ExceptT.run_bind, StateT.run_bind, hrun]
    rfl

section

variable {m : ExceptT ε (StateM σ) α} {f : α → ExceptT ε (StateM σ) β}

theorem exec_bind_ok {s t : σ}
    {a : α} (h : exec m s = (.ok a, t)) : exec (m >>= f) s = exec (f a) t := by
  rw [exec_bind, h]

theorem exec_bind_eq_ok {s u : σ} {b : β} (h : exec (m >>= f) s = (.ok b, u)) :
    ∃ a t, exec m s = (.ok a, t) ∧ exec (f a) t = (.ok b, u) := by
  rw [exec_bind] at h
  rcases hm : exec m s with ⟨e | a, t⟩
  · rw [hm] at h
    cases h
  · rw [hm] at h
    exact ⟨a, t, rfl, h⟩

theorem exec_bind_error
    {s t : σ} {e : ε} (h : exec m s = (.error e, t)) : exec (m >>= f) s = (.error e, t) := by
  rw [exec_bind, h]

end

theorem exec_tryCatch (m : ExceptT ε (StateM σ) α) (handle : ε → ExceptT ε (StateM σ) α) (s : σ) :
    exec (tryCatch m handle) s = match exec m s with
      | (.ok a, t) => (.ok a, t)
      | (.error e, t) => exec (handle e) t := by
  rcases h : exec m s with ⟨a | a, t⟩
  · have hrun : m.run.run s = (.error a, t) := h
    unfold exec
    rw [ExceptT.run_tryCatch, StateT.run_bind, hrun]
    rfl
  · have hrun : m.run.run s = (.ok a, t) := h
    unfold exec
    rw [ExceptT.run_tryCatch, StateT.run_bind, hrun]
    rfl

/-- From states in `pre`, the program returns inside `post` or fails inside `fails`. -/
def Meets (pre : σ → Prop) (m : ExceptT ε (StateM σ) α) (post : α → σ → Prop)
    (fails : ε → σ → Prop) : Prop :=
  ∀ s, pre s →
    (∃ a t, exec m s = (.ok a, t) ∧ post a t) ∨ (∃ e t, exec m s = (.error e, t) ∧ fails e t)

namespace Meets

variable {pre : σ → Prop} {m : ExceptT ε (StateM σ) α} {post : α → σ → Prop}
  {fails : ε → σ → Prop}

theorem pure {a : α} (h : ∀ s, pre s → post a s) :
    Meets pre (Pure.pure a : ExceptT ε (StateM σ) α) post fails := by
  intro s hs
  exact .inl ⟨a, s, rfl, h s hs⟩

theorem throw {e : ε} (h : ∀ s, pre s → fails e s) :
    Meets pre (MonadExcept.throw e : ExceptT ε (StateM σ) α) post fails := by
  intro s hs
  exact .inr ⟨e, s, rfl, h s hs⟩

theorem modify_state {f : σ → σ} {post : PUnit → σ → Prop} (h : ∀ s, pre s → post ⟨⟩ (f s)) :
    Meets pre (modify f : ExceptT ε (StateM σ) PUnit) post fails := by
  intro s hs
  exact .inl ⟨⟨⟩, f s, rfl, h s hs⟩

theorem bind {post' : β → σ → Prop} {f : α → ExceptT ε (StateM σ) β}
    (hm : Meets pre m post fails) (hf : ∀ a, Meets (post a) (f a) post' fails) :
    Meets pre (m >>= f) post' fails := by
  intro s hs
  rcases hm s hs with ⟨a, t, hexec, ha⟩ | ⟨e, t, hexec, he⟩
  · rw [exec_bind_ok hexec]
    exact hf a t ha
  · exact .inr ⟨e, t, exec_bind_error hexec, he⟩

theorem tryCatch {handle : ε → ExceptT ε (StateM σ) α} (hm : Meets pre m post fails)
    (hhandle : ∀ e, Meets (fails e) (handle e) post fails) :
    Meets pre (tryCatch m handle) post fails := by
  intro s hs
  rw [exec_tryCatch]
  rcases hm s hs with ⟨a, t, hexec, ha⟩ | ⟨e, t, hexec, he⟩
  · rw [hexec]
    exact .inl ⟨a, t, rfl, ha⟩
  · rw [hexec]
    exact hhandle e t he

theorem mono {pre' : σ → Prop} {post' : α → σ → Prop} {fails' : ε → σ → Prop}
    (hm : Meets pre m post fails) (hpre : ∀ s, pre' s → pre s)
    (hpost : ∀ a s, post a s → post' a s) (hfails : ∀ e s, fails e s → fails' e s) :
    Meets pre' m post' fails' := by
  intro s hs
  rcases hm s (hpre s hs) with ⟨a, t, hexec, ha⟩ | ⟨e, t, hexec, he⟩
  · exact .inl ⟨a, t, hexec, hpost a t ha⟩
  · exact .inr ⟨e, t, hexec, hfails e t he⟩

theorem mono_pre {pre' : σ → Prop} (hm : Meets pre m post fails) (hpre : ∀ s, pre' s → pre s) :
    Meets pre' m post fails := fun s hs => hm s (hpre s hs)

/-- A program that begins by reading its state is met for each state by itself. -/
theorem get_bind {post : β → σ → Prop} {f : σ → ExceptT ε (StateM σ) β}
    (h : ∀ s, pre s → Meets (fun t => t = s) (f s) post fails) :
    Meets pre (get >>= f) post fails := by
  intro s hs
  exact h s hs s rfl

theorem of_imp {p : Prop} (h : p → Meets pre m post fails) :
    Meets (fun s => p ∧ pre s) m post fails := fun s hs => h hs.1 s hs.2

end Meets

end Transition
