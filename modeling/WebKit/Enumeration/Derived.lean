import Mathlib.Data.List.Perm.Basic

/-!
# Derived lists

A list that is derived from another, each entry of which yields a list of derived entries
(`List.flatMap`): what taking entries away does to the derived list, and when exactly one
derived entry has a property.
-/

namespace Enumeration

open List

variable {α β : Type*} {l : List α} {f : α → List β}

/-- Taking away the derived entries of some entries is taking away these entries. -/
theorem filter_flatMap_eq (p : α → Bool) (q : β → Bool)
    (h : ∀ a ∈ l, ∀ b ∈ f a, q b = p a) : (l.flatMap f).filter q = (l.filter p).flatMap f := by
  induction l with
  | nil => rfl
  | cons a l ih =>
    rw [flatMap_cons, filter_append, ih fun a' ha' => h a' (mem_cons_of_mem a ha')]
    have ha : ∀ b ∈ f a, q b = p a := h a mem_cons_self
    cases hp : p a with
    | true =>
      rw [filter_cons_of_pos hp, flatMap_cons, filter_eq_self.mpr fun b hb => (ha b hb).trans hp]
    | false =>
      have hnone : (f a).filter q = [] := by
        rw [filter_eq_nil_iff]
        intro b hb
        rw [ha b hb, hp]
        exact Bool.false_ne_true
      rw [filter_cons_of_neg (by rw [hp]; exact Bool.false_ne_true), hnone, nil_append]

theorem flatMap_ite (p : α → Prop) [DecidablePred p] :
    (l.flatMap fun a => if p a then f a else []) = (l.filter p).flatMap f := by
  induction l with
  | nil => rfl
  | cons a l ih =>
    rw [flatMap_cons, ih]
    by_cases hp : p a <;> simp [hp]

section Count

variable {R : α → α → Prop} {q : β → Bool} {a : α}

/-- One entry yields one derived entry with the property, the others yield none. -/
theorem countP_flatMap_eq_one (hpairs : l.Pairwise R) (ha : a ∈ l)
    (hone : (f a).countP q = 1) (hleft : ∀ b ∈ l, R b a → (f b).countP q = 0)
    (hright : ∀ b ∈ l, R a b → (f b).countP q = 0) : (l.flatMap f).countP q = 1 := by
  induction l with
  | nil => exact absurd ha not_mem_nil
  | cons c l ih =>
    obtain ⟨hc, hpairs⟩ := pairwise_cons.mp hpairs
    rw [flatMap_cons, countP_append]
    rcases mem_cons.mp ha with rfl | ha
    · have hrest : (l.flatMap f).countP q = 0 := by
        rw [countP_eq_zero]
        intro b hb
        obtain ⟨d, hd, hbd⟩ := mem_flatMap.mp hb
        have hzero := hright d (mem_cons_of_mem a hd) (hc d hd)
        exact countP_eq_zero.mp hzero b hbd
      rw [hone, hrest]
    · rw [hleft c mem_cons_self (hc a ha), ih hpairs ha (fun b hb => hleft b (mem_cons_of_mem c hb))
          (fun b hb => hright b (mem_cons_of_mem c hb))]

theorem countP_eq_one {p : α → Bool} (hpairs : l.Pairwise R) (ha : a ∈ l) (hone : p a = true)
    (hleft : ∀ b ∈ l, R b a → p b = false) (hright : ∀ b ∈ l, R a b → p b = false) :
    l.countP p = 1 := by
  have hsingle : ∀ b, p b = false → [b].countP p = 0 := by
    intro b hb
    rw [countP_cons_of_neg (by rw [hb]; exact Bool.false_ne_true), countP_nil]
  have h : (l.flatMap fun b => [b]).countP p = 1 := by
    refine countP_flatMap_eq_one hpairs ha ?_ (fun b hb hR => hsingle b (hleft b hb hR))
      fun b hb hR => hsingle b (hright b hb hR)
    rw [countP_cons_of_pos hone, countP_nil]
  rwa [flatMap_singleton'] at h

theorem countP_le_one {p : α → Bool} (hpairs : l.Pairwise R)
    (h : ∀ a ∈ l, ∀ b ∈ l, p a = true → p b = true → ¬ R a b) : l.countP p ≤ 1 := by
  induction l with
  | nil => exact Nat.zero_le 1
  | cons a l ih =>
    obtain ⟨ha, hpairs⟩ := pairwise_cons.mp hpairs
    cases hp : p a with
    | false =>
      rw [countP_cons_of_neg (by rw [hp]; exact Bool.false_ne_true)]
      exact ih hpairs fun b hb c hc =>
        h b (mem_cons_of_mem a hb) c (mem_cons_of_mem a hc)
    | true =>
      have hrest : l.countP p = 0 := by
        rw [countP_eq_zero]
        intro b hb hpb
        exact h a mem_cons_self b (mem_cons_of_mem a hb) hp hpb (ha b hb)
      have hcount := countP_cons_of_pos (l := l) hp
      omega

end Count

end Enumeration
