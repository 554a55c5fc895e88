import WebKit.CSS.SelectorFilter
import WebKit.Transition.Run
import Mathlib.Data.List.TakeWhile

/-!
# Matching selectors are not rejected

The filter holds the hashes of the elements on the parent stack (`Stacked`), however many of them
share a bucket. What `collectIdentifierHashes` collects has to match above the element, so its
hashes are in the filter, provided that the classes of the elements are (`ClassesCollected`): the
classes of an element that is not a `StyledElement` never get there.
-/

namespace WebKit.CSS

open Relation Transition WTF List CountingBloomFilter SelectorFilter Document

variable {ε κ : Type} {document : Document ε} {existingHash : AtomicString → ℕ}
  {checkOther : κ → ε → Prop} {filter filter' : SelectorFilter ε} {elements : List ε}
  {element a parent : ε}

/-- The element is styled, or has no classes. -/
def ElementData.ClassesCollected (data : ElementData) : Prop :=
  data.isStyledElement = true ∨ data.classNames = []

/-! ## The parent stack -/

namespace SelectorFilter

/-- The frames of the stack are for the elements, and the filter holds their hashes. -/
structure Stacked (document : Document ε) (existingHash : AtomicString → ℕ)
    (filter : SelectorFilter ε) (elements : List ε) : Prop where
  parentStack_eq : filter.parentStack = elements.map (frame document existingHash)
  holds : ∃ identifiers, filter.ancestorIdentifierFilter = some identifiers ∧
    identifiers.Holds (elements.flatMap fun a =>
      collectElementIdentifierHashes existingHash (document.data a))

theorem holds_foldl_add {identifiers : CountingBloomFilter bloomFilterKeyBits}
    {held : List ℕ} (h : identifiers.Holds held) (hashes : List ℕ) :
    (hashes.foldl add identifiers).Holds (hashes ++ held) := by
  induction hashes generalizing identifiers held with
  | nil => exact h
  | cons hash hashes ih => exact (ih (h.add hash)).perm perm_middle

theorem holds_foldl_remove {identifiers : CountingBloomFilter bloomFilterKeyBits}
    {hashes held : List ℕ} (h : identifiers.Holds (hashes ++ held)) :
    (hashes.foldl remove identifiers).Holds held := by
  induction hashes generalizing identifiers with
  | nil => exact h
  | cons hash hashes ih => exact ih h.remove

theorem stacked_cleared :
    (⟨[], some create⟩ : SelectorFilter ε).Stacked document existingHash [] where
  parentStack_eq := rfl
  holds := ⟨_, rfl, holds_create⟩

namespace Stacked

theorem pushParentStackFrame (h : filter.Stacked document existingHash elements) (parent : ε) :
    ∃ filter', pushParentStackFrame document existingHash filter parent =
      some filter' ∧ filter'.Stacked document existingHash (parent :: elements) := by
  obtain ⟨identifiers, hfilter, hholds⟩ := h.holds
  unfold SelectorFilter.pushParentStackFrame
  rw [hfilter]
  refine ⟨_, rfl, ?_, _, rfl, holds_foldl_add hholds _⟩
  rw [h.parentStack_eq]
  rfl

variable (document existingHash) in
theorem foldlM_push (elements : List ε) : ∃ filter', elements.reverse.foldlM
      (SelectorFilter.pushParentStackFrame document existingHash)
      ⟨[], some CountingBloomFilter.create⟩ = some filter' ∧
      filter'.Stacked document existingHash elements := by
  induction elements with
  | nil => exact ⟨_, rfl, stacked_cleared⟩
  | cons parent elements ih =>
    obtain ⟨filter, heq, hstacked⟩ := ih
    obtain ⟨filter', heq', hstacked'⟩ := hstacked.pushParentStackFrame parent
    refine ⟨filter', ?_, hstacked'⟩
    rw [reverse_cons, foldlM_append, heq]
    dsimp only [bind, Option.bind]
    rw [foldlM_cons, heq']
    rfl

theorem popParent (h : filter.Stacked document existingHash (element :: elements))
    (hne : elements ≠ []) :
    ∃ filter', filter.popParent = some filter' ∧
      filter'.Stacked document existingHash elements := by
  obtain ⟨identifiers, hfilter, hholds⟩ := h.holds
  unfold SelectorFilter.popParent popParentStackFrame
  rw [h.parentStack_eq, hfilter]
  refine ⟨_, rfl, rfl, _, ?_, holds_foldl_remove hholds⟩
  rw [isEmpty_map, isEmpty_eq_false_iff.mpr hne]
  rfl

theorem popParent_singleton (h : filter.Stacked document existingHash [element]) :
    filter.popParent = some initial := by
  obtain ⟨identifiers, hfilter, -⟩ := h.holds
  unfold SelectorFilter.popParent popParentStackFrame
  rw [h.parentStack_eq, hfilter]
  rfl

end Stacked

/-- The stack is empty, or has an element and all elements above it. -/
def Valid (document : Document ε) (existingHash : AtomicString → ℕ) (filter : SelectorFilter ε) :
    Prop :=
  filter = initial ∨ ∃ top, filter.Stacked document existingHash (document.ancestors top) ∧
    ∀ a ∈ document.ancestors top, (document.data a).ClassesCollected

theorem setupParentStack_eq (parent : ε) : setupParentStack document existingHash parent =
      (document.ancestors parent).reverse.foldlM (pushParentStackFrame document existingHash)
        ⟨[], some create⟩ := by
  unfold setupParentStack
  split
  · rename_i hnone
    have hparent : document.parentOrShadowHostElement parent = none := by
      rw [parentOrShadowHostElement, Option.isNone_iff_eq_none.mp hnone]
      rfl
    rw [ancestors_of_none hparent]
    rfl
  · rfl

end SelectorFilter

/-- An element that a simple selector matches has the hash that is collected for the selector. -/
theorem mem_collectElementIdentifierHashes {selectorMatch : SelectorMatch κ} {hash : ℕ}
    (hmatch : document.checkOne checkOther a selectorMatch)
    (hclasses : (document.data a).ClassesCollected)
    (hhash : hash ∈ collectDescendantSelectorIdentifierHashes existingHash selectorMatch) :
    hash ∈ collectElementIdentifierHashes existingHash (document.data a) := by
  unfold collectElementIdentifierHashes
  rw [mem_append, mem_append]
  cases selectorMatch with
  | tag tagQName =>
    refine .inl (.inl ?_)
    rw [collectDescendantSelectorIdentifierHashes] at hhash
    split at hhash
    · rename_i hne
      rw [tagLowercaseLocalName_eq hmatch hne] at hhash
      exact hhash
    · cases hhash
  | id value =>
    refine .inl (.inr ?_)
    rw [collectDescendantSelectorIdentifierHashes] at hhash
    split at hhash
    · rw [hmatch.2]
      exact hhash
    · cases hhash
  | className value =>
    refine .inr ?_
    rw [collectDescendantSelectorIdentifierHashes] at hhash
    split at hhash
    · have hstyled : (document.data a).isStyledElement = true := by
        apply hclasses.resolve_right
        intro hnil
        have hmem := hmatch.2
        rw [hnil] at hmem
        cases hmem
      rw [hstyled, hmatch.1, mem_singleton.mp hhash]
      exact mem_map_of_mem hmatch.2
    · cases hhash
  | other kind => cases hhash

/-- An element above the first one has the hash. -/
def HasHashAbove (document : Document ε) (existingHash : AtomicString → ℕ) (element : ε)
    (hash : ℕ) : Prop :=
  ∃ a, document.IsAncestor element a ∧
    hash ∈ collectElementIdentifierHashes existingHash (document.data a)

variable {maximumIdentifierCount : ℕ}

/-- The walk to the left has come to an element that has nothing above it but what lies above the
first element; it lies above the first element itself unless subselectors are skipped. -/
theorem hasHashAbove_of_mem_collectFrom {previous : ε}
    {relation : SelectorRelation} {skipOverSubselectors : Bool} {hashes : List ℕ}
    {history : List (CSSSelector κ)}
    (hclasses : ∀ a, document.IsAncestor element a → (document.data a).ClassesCollected)
    (habove : ∀ a, document.IsAncestor previous a → document.IsAncestor element a)
    (hskip : skipOverSubselectors = false → document.IsAncestor element previous)
    (hhist : history ≠ [] → ∃ element', document.Related relation previous element' ∧
      document.Matches checkOther history element')
    (hhashes : ∀ hash ∈ hashes, hash ≠ 0 → HasHashAbove document existingHash element hash) :
    ∀ hash ∈ collectFrom existingHash maximumIdentifierCount relation skipOverSubselectors hashes
      history, hash ≠ 0 → HasHashAbove document existingHash element hash := by
  induction history generalizing previous relation skipOverSubselectors hashes with
  | nil =>
    intro hash hmem hne
    rw [collectFrom, mem_append, mem_singleton] at hmem
    exact hhashes hash (hmem.resolve_right hne) hne
  | cons selector history ih =>
    obtain ⟨element', hrelated, hmatches⟩ := hhist (cons_ne_nil _ _)
    have hcollected : document.IsAncestor element element' → ∀ hash ∈ hashes ++
          collectDescendantSelectorIdentifierHashes existingHash selector.selectorMatch,
        hash ≠ 0 → HasHashAbove document existingHash element hash := by
      intro hanc hash hmem hne
      rcases mem_append.mp hmem with hold | hnew
      · exact hhashes hash hold hne
      · exact ⟨element', hanc,
          mem_collectElementIdentifierHashes hmatches.checkOne (hclasses _ hanc) hnew⟩
    -- what is left to show for the state in which each relation leaves the loop
    have hnext : ∀ skip' hashes', (skip' = false → document.IsAncestor element element') →
        (∀ hash ∈ hashes', hash ≠ 0 → HasHashAbove document existingHash element hash) →
        ∀ hash ∈ (if hashes'.length = maximumIdentifierCount then hashes' else
          collectFrom existingHash maximumIdentifierCount selector.relation skip' hashes' history),
        hash ≠ 0 → HasHashAbove document existingHash element hash := by
      intro skip' hashes' hskip' hhashes'
      split
      · exact hhashes'
      · exact ih (fun a ha => habove a (hrelated.isAncestor ha)) hskip' hmatches.tagHistory hhashes'
    cases relation with
    | descendant =>
      have hanc : document.IsAncestor element element' := by
        apply habove
        exact TransGen.mono (fun _ _ => parentOrShadowHostElement_of_parentElement) _ _ hrelated
      exact hnext _ _ (fun _ => hanc) (hcollected hanc)
    | child =>
      have hanc := habove _ (isAncestor_of_parentElement hrelated)
      exact hnext _ _ (fun _ => hanc) (hcollected hanc)
    | directAdjacent =>
      exact hnext _ _ (fun h => nomatch h) hhashes
    | indirectAdjacent =>
      exact hnext _ _ (fun h => nomatch h) hhashes
    | shadowDescendant =>
      exact hnext _ _ (fun h => nomatch h) hhashes
    | subSelector =>
      obtain rfl : previous = element' := hrelated
      cases skipOverSubselectors with
      | false => exact hnext _ _ hskip (hcollected (hskip rfl))
      | true => exact hnext _ _ hskip hhashes

variable {selector : List (CSSSelector κ)}

theorem hasHashAbove_of_mem_collectIdentifierHashes
    (hclasses : ∀ a, document.IsAncestor element a → (document.data a).ClassesCollected)
    (hmatches : document.Matches checkOther selector element) :
    ∀ hash ∈ collectIdentifierHashes existingHash maximumIdentifierCount selector, hash ≠ 0 →
      HasHashAbove document existingHash element hash := by
  cases selector with
  | nil => cases hmatches
  | cons selector history =>
    exact hasHashAbove_of_mem_collectFrom hclasses (fun _ ha => ha) (fun h => nomatch h)
      hmatches.tagHistory (fun _ hmem => nomatch hmem)

namespace SelectorFilter

theorem fastRejectSelector_eq_false {hashes : List ℕ}
    (h : filter.Stacked document existingHash elements)
    (hhashes : ∀ hash ∈ hashes, hash ≠ 0 → ∃ a ∈ elements,
      hash ∈ collectElementIdentifierHashes existingHash (document.data a)) :
    filter.fastRejectSelector maximumIdentifierCount hashes = some false := by
  obtain ⟨identifiers, hfilter, hholds⟩ := h.holds
  rw [fastRejectSelector, hfilter, Option.map_some, Option.some_inj, any_eq_false]
  intro hash hmem
  have hne : hash ≠ 0 := by
    have hzero := mem_takeWhile_imp hmem
    exact of_decide_eq_true hzero
  have hmem' := mem_of_mem_take (takeWhile_subset _ hmem)
  obtain ⟨a, ha, hhash⟩ := hhashes hash hmem' hne
  rw [hholds.mayContain (mem_flatMap.mpr ⟨a, ha, hhash⟩)]
  exact Bool.false_ne_true

variable [DecidableEq ε]

/-- The elements that the operation pushes are styled, or have no classes. -/
def Covered (document : Document ε) (filter : SelectorFilter ε) : Operation ε → Prop
  | .setupParentStack parent => ∀ a ∈ document.ancestors parent, (document.data a).ClassesCollected
  | .pushParent parent =>
    filter.parentStack.head?.map ParentStackFrame.element =
      document.parentOrShadowHostElement parent → (document.data parent).ClassesCollected
  | .popParent => True

section

variable (h : filter.Valid document existingHash)
include h

theorem Valid.step {operation : Operation ε}
    (hcov : Covered document filter operation)
    (hstep : filter.execute document existingHash operation = some filter') :
    filter'.Valid document existingHash := by
  cases operation with
  | setupParentStack parent =>
    obtain ⟨filter'', heq, hstacked⟩ :=
      Stacked.foldlM_push document existingHash (document.ancestors parent)
    rw [execute, setupParentStack_eq, heq] at hstep
    obtain rfl := Option.some.inj hstep
    exact .inr ⟨parent, hstacked, hcov⟩
  | pushParent parent =>
    rcases h with rfl | ⟨top, hstacked, hclasses⟩
    · cases hstep
    · obtain ⟨rest, hrest⟩ := document.exists_ancestors_eq top
      have hstack := hstacked.parentStack_eq
      rw [hrest, map_cons] at hstack
      rw [execute, pushParent, hstack] at hstep
      dsimp only at hstep
      split at hstep
      · obtain rfl := Option.some.inj hstep
        exact .inr ⟨top, hstacked, hclasses⟩
      · rename_i hparent
        have hparent' : document.parentOrShadowHostElement parent = some top :=
          (not_not.mp hparent).symm
        obtain ⟨filter'', heq, hstacked'⟩ := hstacked.pushParentStackFrame parent
        rw [heq] at hstep
        obtain rfl := Option.some.inj hstep
        refine .inr ⟨parent, ?_, ?_⟩
        · rw [Document.ancestors_of_some hparent']
          exact hstacked'
        · rw [Document.ancestors_of_some hparent']
          intro a ha
          rcases mem_cons.mp ha with rfl | ha
          · apply hcov
            rw [hstack, hparent']
            rfl
          · exact hclasses a ha
  | popParent =>
    rcases h with rfl | ⟨top, hstacked, hclasses⟩
    · cases hstep
    · cases hparent : document.parentOrShadowHostElement top with
      | none =>
        rw [Document.ancestors_of_none hparent] at hstacked
        rw [execute, hstacked.popParent_singleton] at hstep
        exact .inl (Option.some.inj hstep).symm
      | some parent =>
        rw [Document.ancestors_of_some hparent] at hstacked hclasses
        obtain ⟨rest, hrest⟩ := document.exists_ancestors_eq parent
        obtain ⟨filter'', heq, hstacked'⟩ :=
          hstacked.popParent (by rw [hrest]; exact cons_ne_nil _ _)
        rw [execute, heq] at hstep
        obtain rfl := Option.some.inj hstep
        exact .inr ⟨parent, hstacked', fun a ha => hclasses a (mem_cons_of_mem _ ha)⟩

/-- A filter that is consistent with the parent of an element has the parent on top. -/
theorem Valid.stacked_of_consistent
    (hconsis : filter.parentStackIsConsistent (document.parentNode element) = true) :
    ∃ parent, document.parentOrShadowHostElement element = some parent ∧
      filter.Stacked document existingHash (document.ancestors parent) ∧
      ∀ a ∈ document.ancestors parent, (document.data a).ClassesCollected := by
  rcases h with rfl | ⟨top, hstacked, hclasses⟩
  · cases hconsis
  · have hstack := hstacked.parentStack_eq
    unfold parentStackIsConsistent at hconsis
    rw [hstack] at hconsis
    refine ⟨top, ?_, hstacked, hclasses⟩
    rw [parentOrShadowHostElement]
    cases hnode : document.parentNode element with
    | none =>
      rw [hnode] at hconsis
      cases hconsis
    | some node =>
      rw [hnode] at hconsis
      cases node with
      | document => cases hconsis
      | element parent =>
        obtain rfl : top = parent := of_decide_eq_true hconsis
        rfl
      | shadowRoot host => cases hconsis

theorem Valid.fastRejectSelector_eq_false
    (hconsis : filter.parentStackIsConsistent (document.parentNode element) = true)
    (hmatches : document.Matches checkOther selector element) :
    filter.fastRejectSelector maximumIdentifierCount
      (collectIdentifierHashes existingHash maximumIdentifierCount selector) = some false := by
  obtain ⟨parent, hparent, hstacked, hclasses⟩ := h.stacked_of_consistent hconsis
  apply SelectorFilter.fastRejectSelector_eq_false hstacked
  intro hash hmem hne
  obtain ⟨a, ha, hhash⟩ := hasHashAbove_of_mem_collectIdentifierHashes
    (fun a ha => hclasses a (ha.mem_ancestors hparent)) hmatches hash hmem hne
  exact ⟨a, ha.mem_ancestors hparent, hhash⟩

end

/-! ## Runs -/

def Step (document : Document ε) (existingHash : AtomicString → ℕ) (filter : SelectorFilter ε)
    (operation : Operation ε) (filter' : SelectorFilter ε) : Prop :=
  filter.execute document existingHash operation = some filter'

theorem valid_of_run {operations : List (Operation ε)}
    (hrun : Run (guarded (Step document existingHash) (Covered document)) initial operations
      filter) : filter.Valid document existingHash := by
  refine hrun.preserves (I := fun filter => filter.Valid document existingHash) ?_ (.inl rfl)
  intro s operation t h ⟨hcov, hstep⟩
  exact h.step hcov hstep

/-- A selector that matches is not rejected, when the elements that have been pushed are styled
or have no classes. -/
theorem fastRejectSelector_of_run {operations : List (Operation ε)} (maximumIdentifierCount : ℕ)
    (hrun : Run (guarded (Step document existingHash) (Covered document)) initial operations
      filter)
    (hconsistent : filter.parentStackIsConsistent (document.parentNode element) = true)
    (hmatches : document.Matches checkOther selector element) :
    filter.fastRejectSelector maximumIdentifierCount
      (collectIdentifierHashes existingHash maximumIdentifierCount selector) = some false :=
  (valid_of_run hrun).fastRejectSelector_eq_false hconsistent hmatches

/-- A root with the class `a` and its child. -/
def rootAndChild (isStyledElement : Bool) : Document Bool where
  isHTMLDocument := false
  data
    | false => ⟨"r", none, none, ["a"], isStyledElement, false⟩
    | true => ⟨"b", none, none, [], isStyledElement, false⟩
  parentNode
    | false => some .document
    | true => some (.element false)
  previousElementSibling _ := none
  depth
    | false => 0
    | true => 1
  parentNode_sibling _ _ h := nomatch h
  depth_lt element parent h := by
    cases element with
    | false => cases h
    | true =>
      obtain rfl : false = parent := Option.some.inj h
      exact Nat.zero_lt_one

/-- The selector `.a b`. -/
def classDescendant : List (CSSSelector Unit) :=
  [⟨.tag ⟨none, "b", some starAtom⟩, .descendant⟩, ⟨.className "a", .subSelector⟩]

def firstLetterHash (string : AtomicString) : ℕ := if string = "a" then 1 else 2

theorem matches_classDescendant (isStyledElement : Bool) :
    (rootAndChild isStyledElement).Matches (fun _ _ => True) classDescendant true := by
  refine ⟨?_, false, .single rfl, ?_⟩
  · cases isStyledElement with
    | false | true => exact Eq.refl true
  · exact ⟨rfl, mem_singleton.mpr rfl⟩

theorem fastRejectSelector_of_run_rootAndChild :
    ∃ filter, setupParentStack (rootAndChild true) firstLetterHash false = some filter ∧
      filter.fastRejectSelector 4
        (collectIdentifierHashes firstLetterHash 4 classDescendant) = some false := by
  have hcovered : Covered (rootAndChild true) initial (.setupParentStack false) := by
    intro a _
    cases a with
    | false => exact Or.inl rfl
    | true => exact Or.inl rfl
  have hrun : Run (guarded (Step (rootAndChild true) firstLetterHash) (Covered (rootAndChild true)))
      initial [.setupParentStack false] _ := .single ⟨hcovered, rfl⟩
  exact ⟨_, rfl, fastRejectSelector_of_run 4 hrun rfl (matches_classDescendant true)⟩

/-- The class of a root that is not styled is missed. -/
theorem fastRejectSelector_rootAndChild :
    ∃ filter, Run (Step (rootAndChild false) firstLetterHash) initial [.setupParentStack false]
        filter ∧
      filter.parentStackIsConsistent ((rootAndChild false).parentNode true) = true ∧
      (rootAndChild false).Matches (fun _ _ => True) classDescendant true ∧
      filter.fastRejectSelector 4
        (collectIdentifierHashes firstLetterHash 4 classDescendant) = some true :=
  ⟨_, .single rfl, rfl, matches_classDescendant false, Eq.refl (some true)⟩

end SelectorFilter

end WebKit.CSS
