import Mathlib

/-!
# Walks in a graph labelled with languages

The edges of a graph carry labels, and a label reads the words of a language. A walk reads
a word for each of its edges, one after the other. Walks are kept when edges are added
(`Walk.mono`), and a labelling of the vertices with languages that every edge respects has
all words that a walk reads (`IsLabelling.mem`).
-/

namespace Automata

variable {σ ι α : Type*} {edges edges' : σ → ι → Set σ} {reads : ι → Language α}
  {s t u : σ} {l : ι} {v w : List α}

/-- A walk from `s` that reads a word. -/
inductive Walk (edges : σ → ι → Set σ) (reads : ι → Language α) (s : σ) : List α → σ → Prop
  | nil : Walk edges reads s [] s
  | snoc {t u : σ} {l : ι} {v w : List α} : Walk edges reads s v t → u ∈ edges t l →
    w ∈ reads l → Walk edges reads s (v ++ w) u

namespace Walk

theorem trans (h : Walk edges reads s v t) (h' : Walk edges reads t w u) :
    Walk edges reads s (v ++ w) u := by
  induction h' with
  | nil => rwa [List.append_nil]
  | snoc _ hedge hreads ih =>
    rw [← List.append_assoc]
    exact ih.snoc hedge hreads

theorem edge (hedge : t ∈ edges s l) (hreads : w ∈ reads l) : Walk edges reads s w t :=
  Walk.nil.snoc hedge hreads

theorem append_edge (h : Walk edges reads s w t) (hedge : u ∈ edges t l) (hnil : [] ∈ reads l) :
    Walk edges reads s w u := by
  have hwalk := h.snoc hedge hnil
  rwa [List.append_nil] at hwalk

theorem mono (hedges : ∀ s l, edges s l ⊆ edges' s l) (h : Walk edges reads s w t) :
    Walk edges' reads s w t := by
  induction h with
  | nil => exact .nil
  | snoc _ hedge hreads ih => exact ih.snoc (hedges _ _ hedge) hreads

end Walk

/-- What a vertex is labelled with goes on along every edge. -/
def IsLabelling (edges : σ → ι → Set σ) (reads : ι → Language α) (label : σ → Language α) : Prop :=
  ∀ s l, ∀ t ∈ edges s l, label s * reads l ≤ label t

theorem IsLabelling.mem {label : σ → Language α} (h : IsLabelling edges reads label)
    (hs : [] ∈ label s) (hwalk : Walk edges reads s w t) : w ∈ label t := by
  induction hwalk with
  | nil => exact hs
  | snoc _ hedge hreads ih => exact h _ _ _ hedge (Language.append_mem_mul ih hreads)

end Automata
