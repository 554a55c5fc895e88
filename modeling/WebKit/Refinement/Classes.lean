import Mathlib.Data.Set.Function

/-!
# Partition refinement

The elements of a set `D` are divided into numbered classes by a map `index`. Separating
the elements of a set `M` from the others leaves one part of each class its number and
gives the other part a number from `count` on.

The edges of a graph are divided in the same way, and the classes of edges are used, in the
order of their numbers, to refine the classes of nodes: the sources of a class of edges are
separated from the other nodes. A class that was used may lose some of its edges to a new
class later. `Processed` is the invariant that makes it unnecessary to use it again: the
edges it lost are in classes that are still to be used, and the nodes are stable for all of
them together.
-/

namespace Refinement

variable {α β : Type*} {D M S T : Set α} {count count' : ℕ} {index index' index'' : α → ℕ}

/-- Each class of `index` is divided into the elements of `M` and the others. -/
structure Separates (D : Set α) (count : ℕ) (M : Set α) (index index' : α → ℕ) : Prop where
  same : ∀ x ∈ D, ∀ y ∈ D, index' x = index' y ↔ index x = index y ∧ (x ∈ M ↔ y ∈ M)
  kept : ∀ x ∈ D, index' x = index x ∨ count ≤ index' x

/-- Each class of `index` is divided in some way. -/
structure Refines (D : Set α) (count : ℕ) (index index' : α → ℕ) : Prop where
  same : ∀ x ∈ D, ∀ y ∈ D, index' x = index' y → index x = index y
  kept : ∀ x ∈ D, index' x = index x ∨ count ≤ index' x

/-- A set that contains each class or is disjoint from it. -/
def Stable (D : Set α) (index : α → ℕ) (S : Set α) : Prop :=
  ∀ x ∈ D, ∀ y ∈ D, index x = index y → x ∈ S → y ∈ S

section

variable (h : Separates D count M index index')
include h

theorem Separates.refines :
    Refines D count index index' where
  same x hx y hy heq := ((h.same x hx y hy).mp heq).1
  kept := h.kept

theorem Separates.congr (hM : ∀ x ∈ D, (x ∈ M ↔ x ∈ S)) : Separates D count S index index' where
  same x hx y hy := by rw [h.same x hx y hy, hM x hx, hM y hy]
  kept := h.kept

theorem Separates.stable : Stable D index' M :=
  fun x hx y hy heq => (((h.same x hx y hy).mp heq).2).mp

end

namespace Refines

theorem refl (D : Set α) (count : ℕ) (index : α → ℕ) : Refines D count index index where
  same _ _ _ _ heq := heq
  kept _ _ := .inl rfl

theorem trans (h : Refines D count index index') (h' : Refines D count' index' index'')
    (hle : count ≤ count') : Refines D count index index'' where
  same x hx y hy heq := h.same x hx y hy (h'.same x hx y hy heq)
  kept x hx := by
    rcases h'.kept x hx with heq | hnew
    · rw [heq]
      exact h.kept x hx
    · exact .inr (hle.trans hnew)

theorem eq_of_lt (h : Refines D count index index') {x : α} (hx : x ∈ D)
    (hlt : index' x < count) : index' x = index x :=
  (h.kept x hx).resolve_right (Nat.not_le.mpr hlt)

end Refines

namespace Stable

theorem refines (h : Stable D index S) (href : Refines D count index index') : Stable D index' S :=
  fun x hx y hy heq => h x hx y hy (href.same x hx y hy heq)

theorem sdiff (hS : Stable D index S) (hT : Stable D index T) : Stable D index (S \ T) := by
  rintro x hx y hy heq ⟨hxS, hxT⟩
  exact ⟨hS x hx y hy heq hxS, fun hyT => hxT (hT y hy x hx heq.symm hyT)⟩

end Stable

/-- Related elements are in one class. -/
def Keeps (R : α → α → Prop) (D : Set α) (index : α → ℕ) : Prop :=
  ∀ x ∈ D, ∀ y ∈ D, R x y → index x = index y

/-- A set that does not tell related elements apart. -/
def Respects (R : α → α → Prop) (D : Set α) (M : Set α) : Prop :=
  ∀ x ∈ D, ∀ y ∈ D, R x y → (x ∈ M ↔ y ∈ M)

variable {R : α → α → Prop}

theorem Separates.keeps (h : Separates D count M index index') (hkeeps : Keeps R D index)
    (hM : Respects R D M) : Keeps R D index' :=
  fun x hx y hy hR => (h.same x hx y hy).mpr ⟨hkeeps x hx y hy hR, hM x hx y hy hR⟩

theorem Keeps.respects (hkeeps : Keeps R D index) (i : ℕ) : Respects R D {x | index x = i} := by
  intro x hx y hy hR
  rw [Set.mem_ofPred_eq, Set.mem_ofPred_eq, hkeeps x hx y hy hR]

section Edges

variable {E : Set β} {source target : β → α} {cells cells' : β → ℕ} {k : ℕ}
  {R' : β → β → Prop}

/-- The edges of a class. -/
def cell (E : Set β) (cells : β → ℕ) (i : ℕ) : Set β := {e ∈ E | cells e = i}

/-- The edges of one class lead to nodes of one class. -/
def SameTarget (E : Set β) (target : β → α) (index : α → ℕ) (cells : β → ℕ) : Prop :=
  ∀ e ∈ E, ∀ e' ∈ E, cells e = cells e' → index (target e) = index (target e')

/-- The relation `R'` of the edges lies over the relation `R` of the nodes. -/
structure Lifts (D : Set α) (E : Set β) (source target : β → α) (R : α → α → Prop)
    (R' : β → β → Prop) : Prop where
  target : ∀ e ∈ E, ∀ e' ∈ E, R' e e' → R (target e) (target e')
  source : ∀ e ∈ E, ∀ y ∈ D, R (source e) y → ∃ e' ∈ E, source e' = y ∧ R' e e'

theorem SameTarget.split (h : SameTarget E target index cells)
    (hkept : ∀ x ∈ D, index' x = index x ∨ index' x = count)
    (htarget : ∀ e ∈ E, target e ∈ D)
    (hcells : Separates E count' {e | index' (target e) = count} cells cells') :
    SameTarget E target index' cells' := by
  intro e he e' he' heq
  obtain ⟨hsame, hnew⟩ := (hcells.same e he e' he').mp heq
  have hold := h e he e' he' hsame
  simp only [Set.mem_ofPred_eq] at hnew
  rcases hkept _ (htarget e he) with he | he <;>
    rcases hkept _ (htarget e' he') with he' | he' <;> omega

theorem Respects.preimage (hlifts : Lifts D E source target R R')
    (htarget : ∀ e ∈ E, target e ∈ D) (hM : Respects R D M) :
    Respects R' E {e | target e ∈ M} :=
  fun e he e' he' hR =>
    hM _ (htarget e he) _ (htarget e' he') (hlifts.target e he e' he' hR)

theorem Keeps.image (hsymm : ∀ x y, R x y → R y x) (hlifts : Lifts D E source target R R')
    (hkeeps : Keeps R' E cells) (i : ℕ) : Respects R D (source '' cell E cells i) := by
  have hone : ∀ x y, y ∈ D → R x y → x ∈ source '' cell E cells i →
      y ∈ source '' cell E cells i := by
    rintro x y hy hR ⟨e, ⟨he, hcell⟩, rfl⟩
    obtain ⟨e', he', hsrc, hR'⟩ := hlifts.source e he y hy hR
    exact ⟨e', ⟨he', by rw [← hkeeps e he e' he' hR', hcell]⟩, hsrc⟩
  intro x hx y hy hR
  exact ⟨hone x y hy hR, hone y x hx (hsymm x y hR)⟩

/-- Each of the first `k` classes is what is left of a set of edges that the nodes are
stable for; the other edges of that set are in whole classes from `k` on. -/
def Processed (D : Set α) (E : Set β) (source : β → α) (index : α → ℕ) (cells : β → ℕ)
    (k : ℕ) : Prop :=
  ∀ i < k, ∃ B ⊆ E, cell E cells i ⊆ B ∧
    (∀ e ∈ B, cells e = i ∨ k ≤ cells e ∧ cell E cells (cells e) ⊆ B) ∧
    Set.InjOn source B ∧ Stable D index (source '' B)

namespace Processed

theorem zero (D : Set α) (E : Set β) (source : β → α) (index : α → ℕ) (cells : β → ℕ) :
    Processed D E source index cells 0 :=
  fun _ hi => absurd hi (Nat.not_lt_zero _)

section

variable (h : Processed D E source index cells k)
include h

theorem refine_nodes
    (href : Refines D count index index') : Processed D E source index' cells k := by
  intro i hi
  obtain ⟨B, hBE, hcell, hrest, hinj, hstable⟩ := h i hi
  exact ⟨B, hBE, hcell, hrest, hinj, hstable.refines href⟩

theorem refine_edges (href : Refines E count cells cells') (hk : k ≤ count) :
    Processed D E source index cells' k := by
  intro i hi
  obtain ⟨B, hBE, hcell, hrest, hinj, hstable⟩ := h i hi
  have hsub : cell E cells' i ⊆ cell E cells i := by
    rintro e ⟨he, rfl⟩
    exact ⟨he, (href.eq_of_lt he (hi.trans_le hk)).symm⟩
  refine ⟨B, hBE, hsub.trans hcell, ?_, hinj, hstable⟩
  intro e heB
  have he := hBE heB
  have hfiner : cell E cells' (cells' e) ⊆ cell E cells (cells e) := by
    rintro e' ⟨he', heq⟩
    exact ⟨he', href.same e' he' e he heq⟩
  rcases hrest e heB with rfl | ⟨hle, hwhole⟩
  · refine (href.kept e he).imp id fun hnew => ⟨hk.trans hnew, ?_⟩
    exact hfiner.trans hcell
  · refine .inr ⟨?_, hfiner.trans hwhole⟩
    rcases href.kept e he with heq | hnew
    · rwa [heq]
    · exact hk.trans hnew

/-- The next class was used: what a used class lost to it needs no further attention. -/
theorem next (hinj : Set.InjOn source (cell E cells k))
    (hstable : Stable D index (source '' cell E cells k)) :
    Processed D E source index cells (k + 1) := by
  intro i hi
  rcases Nat.lt_succ_iff_lt_or_eq.mp hi with hlt | rfl
  · obtain ⟨B, hBE, hcell, hrest, hinjB, hstableB⟩ := h i hlt
    by_cases hk : cell E cells k ⊆ B
    · refine ⟨B \ cell E cells k, fun e he => hBE he.1, ?_, ?_, hinjB.mono fun e he => he.1, ?_⟩
      · rintro e ⟨he, rfl⟩
        refine ⟨hcell ⟨he, rfl⟩, fun hek => ?_⟩
        exact absurd hek.2 (ne_of_lt hlt)
      · rintro e ⟨heB, hek⟩
        refine (hrest e heB).imp id fun ⟨hle, hwhole⟩ => ?_
        have hne : cells e ≠ k := fun heq => hek ⟨hBE heB, heq⟩
        refine ⟨by omega, fun e' he' => ⟨hwhole he', fun he'k => ?_⟩⟩
        exact hne (he'.2.symm.trans he'k.2)
      · rw [hinjB.image_sdiff, Set.inter_eq_self_of_subset_right hk]
        exact hstableB.sdiff hstable
    · refine ⟨B, hBE, hcell, fun e heB => ?_, hinjB, hstableB⟩
      refine (hrest e heB).imp id fun ⟨hle, hwhole⟩ => ⟨?_, hwhole⟩
      have hne : cells e ≠ k := fun heq => hk (heq ▸ hwhole)
      omega
  · exact ⟨cell E cells i, fun e he => he.1, subset_rfl, fun e he => .inl he.2, hinj, hstable⟩

theorem stable (hlt : ∀ e ∈ E, cells e < k) {i : ℕ}
    (hi : i < k) : Stable D index (source '' cell E cells i) := by
  obtain ⟨B, hBE, hcell, hrest, _, hstable⟩ := h i hi
  have heq : cell E cells i = B := by
    refine hcell.antisymm fun e he => ?_
    rcases hrest e he with hi | ⟨hle, _⟩
    · exact ⟨hBE he, hi⟩
    · have := hlt e (hBE he)
      omega
  rwa [heq]

end

end Processed

end Edges

end Refinement
