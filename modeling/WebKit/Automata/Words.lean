import Mathlib

/-!
# Words over letters, and prefixes

The words over a set of letters as a language, how a Kleene star reaches it, and languages that
are matched against the prefixes of a word.
-/

namespace Automata

open Computability List Language

variable {α : Type*} {l m : Language α} {letters : Set α} {w : List α}

/-- The words all of whose letters are in the set. -/
def wordsOver (letters : Set α) : Language α := {w | ∀ a ∈ w, a ∈ letters}

theorem mem_wordsOver : w ∈ wordsOver letters ↔ ∀ a ∈ w, a ∈ letters := Iff.rfl

theorem nil_mem_wordsOver : [] ∈ wordsOver letters := fun _ h => absurd h not_mem_nil

theorem append_mem_wordsOver {v : List α} :
    v ++ w ∈ wordsOver letters ↔ v ∈ wordsOver letters ∧ w ∈ wordsOver letters :=
  forall_mem_append

theorem flatten_mem_wordsOver {words : List (List α)}
    (h : ∀ word ∈ words, word ∈ wordsOver letters) : words.flatten ∈ wordsOver letters := by
  intro a ha
  obtain ⟨word, hword, ha⟩ := mem_flatten.mp ha
  exact h word hword a ha

theorem one_le_wordsOver : (1 : Language α) ≤ wordsOver letters := by
  intro w hw
  rw [show w = [] from hw]
  exact nil_mem_wordsOver

theorem mul_le_wordsOver (hl : l ≤ wordsOver letters) (hm : m ≤ wordsOver letters) :
    l * m ≤ wordsOver letters := by
  intro w hw
  obtain ⟨u, hu, v, hv, rfl⟩ := mem_mul.mp hw
  exact append_mem_wordsOver.mpr ⟨hl hu, hm hv⟩

theorem kstar_le_wordsOver (hl : l ≤ wordsOver letters) : l∗ ≤ wordsOver letters := by
  rintro w ⟨words, rfl, hwords⟩
  exact flatten_mem_wordsOver fun word hword => hl (hwords word hword)

theorem wordsOver_le_kstar (h : ∀ a ∈ letters, [a] ∈ l) : wordsOver letters ≤ l∗ := by
  intro w hw
  refine ⟨w.map fun a => [a], ?_, ?_⟩
  · induction w with
    | nil => rfl
    | cons a w ih =>
      exact congrArg (a :: ·) (ih fun b hb => hw b (mem_cons_of_mem _ hb))
  · intro word hword
    obtain ⟨a, ha, rfl⟩ := mem_map.mp hword
    exact h a (hw a ha)

theorem kstar_eq_wordsOver (h : ∀ a ∈ letters, [a] ∈ l) (hl : l ≤ wordsOver letters) :
    l∗ = wordsOver letters :=
  le_antisymm (kstar_le_wordsOver hl) (wordsOver_le_kstar h)

theorem le_mul_kstar : l ≤ l * l∗ := by
  intro w hw
  have hmem := append_mem_mul hw (nil_mem_kstar l)
  rwa [append_nil] at hmem

theorem nonempty_mem_mul_kstar (h : ∀ a ∈ letters, [a] ∈ l) (hw : w ∈ wordsOver letters)
    (hne : w ≠ []) : w ∈ l * l∗ := by
  cases w with
  | nil => exact absurd rfl hne
  | cons a w =>
    have hrest := wordsOver_le_kstar h fun b hb => hw b (mem_cons_of_mem _ hb)
    exact append_mem_mul (h a (hw a (mem_cons_self ..))) hrest

theorem wordsOver_mul_self : wordsOver letters * wordsOver letters = wordsOver letters := by
  apply le_antisymm (mul_le_wordsOver le_rfl le_rfl)
  intro w hw
  exact append_mem_mul (a := []) nil_mem_wordsOver hw

/-- Some prefix of the word is in the language. -/
def MatchesPrefix (l : Language α) (w : List α) : Prop := ∃ p ∈ l, p <+: w

namespace MatchesPrefix

theorem of_nil_mem (h : [] ∈ l) (w : List α) : MatchesPrefix l w := ⟨[], h, nil_prefix⟩

theorem of_mul (h : MatchesPrefix (l * m) w) : MatchesPrefix l w := by
  obtain ⟨p, hp, hpre⟩ := h
  obtain ⟨u, hu, v, -, rfl⟩ := mem_mul.mp hp
  exact ⟨u, hu, (prefix_append u v).trans hpre⟩

theorem mul_iff (h : [] ∈ m) : MatchesPrefix (l * m) w ↔ MatchesPrefix l w := by
  refine ⟨of_mul, ?_⟩
  rintro ⟨p, hp, hpre⟩
  have hmem := append_mem_mul hp h
  rw [append_nil] at hmem
  exact ⟨p, hmem, hpre⟩

end MatchesPrefix

theorem eq_of_append_cons_prefix {a : α} {u v : List α} (h : a ∉ w)
    (hpre : u ++ a :: v <+: w ++ [a]) : u = w := by
  induction w generalizing u with
  | nil =>
    cases u with
    | nil => rfl
    | cons b u =>
      have hlen := hpre.length_le
      simp at hlen
  | cons b w ih =>
    cases u with
    | nil =>
      have heq : a = b := (cons_prefix_cons.mp hpre).1
      exact absurd (heq ▸ mem_cons_self ..) h
    | cons c u =>
      obtain ⟨rfl, hrest⟩ := cons_prefix_cons.mp hpre
      rw [ih (fun hmem => h (mem_cons_of_mem _ hmem)) hrest]

end Automata
