import Mathlib.Logic.Relation
import Mathlib.Data.List.Basic

/-!
# Elements and selectors

What selectors and the selector filter see of a document: the names, identifiers and classes of
its elements, and how an element is related to others. A complex selector is the list of its
simple selectors from right to left, each with its relation to the next one.
-/

namespace WebKit.CSS

open Relation TransGen

abbrev AtomicString := String

def convertToASCIILowercase (string : AtomicString) : AtomicString :=
  String.ofList (string.toList.map Char.toLower)

def starAtom : AtomicString := "*"

theorem toLower_toLower (c : Char) : c.toLower.toLower = c.toLower := by
  unfold Char.toLower
  split
  · rename_i h
    have hle := UInt32.le_iff_toNat_le.mp h.2
    rw [dif_neg]
    intro hupper
    have hlow := UInt32.le_iff_toNat_le.mp h.1
    have hhigh := UInt32.le_iff_toNat_le.mp hupper.2
    simp [UInt32.toNat_add] at hle hlow hhigh
    omega
  · rfl

theorem convertToASCIILowercase_idem (string : AtomicString) :
    convertToASCIILowercase (convertToASCIILowercase string) = convertToASCIILowercase string := by
  have hlower : Char.toLower ∘ Char.toLower = Char.toLower := funext toLower_toLower
  rw [convertToASCIILowercase, convertToASCIILowercase, String.toList_ofList, List.map_map, hlower]

structure QualifiedName where
  namespacePrefix : Option AtomicString
  localName : AtomicString
  namespaceURI : Option AtomicString
  deriving DecidableEq, Repr

def anyQName : QualifiedName := ⟨none, starAtom, some starAtom⟩

/-- The data of an element that selectors with a tag, an identifier or a class look at. -/
structure ElementData where
  localName : AtomicString
  namespaceURI : Option AtomicString
  idForStyleResolution : Option AtomicString
  classNames : List AtomicString
  isStyledElement : Bool
  isHTMLElement : Bool
  deriving DecidableEq, Repr

namespace ElementData

def hasID (data : ElementData) : Bool := data.idForStyleResolution.isSome

def hasClass (data : ElementData) : Bool := data.classNames ≠ []

end ElementData

inductive ParentNode (ε : Type)
  | document
  | element (parent : ε)
  | shadowRoot (host : ε)
  deriving DecidableEq, Repr

def ParentNode.parentElement? {ε : Type} : ParentNode ε → Option ε
  | .element parent => some parent
  | _ => none

def ParentNode.parentOrShadowHostElement? {ε : Type} : ParentNode ε → Option ε
  | .document => none
  | .element parent => some parent
  | .shadowRoot host => some host

/-- A document with its shadow trees. Siblings have one parent, and parents lie higher. -/
structure Document (ε : Type) where
  isHTMLDocument : Bool
  data : ε → ElementData
  parentNode : ε → Option (ParentNode ε)
  previousElementSibling : ε → Option ε
  depth : ε → ℕ
  parentNode_sibling : ∀ element sibling, previousElementSibling element = some sibling →
    parentNode sibling = parentNode element
  depth_lt : ∀ element parent,
    (parentNode element).bind ParentNode.parentOrShadowHostElement? = some parent →
    depth parent < depth element

namespace Document

variable {ε : Type} (document : Document ε)

def parentElement (element : ε) : Option ε :=
  (document.parentNode element).bind ParentNode.parentElement?

def parentOrShadowHostElement (element : ε) : Option ε :=
  (document.parentNode element).bind ParentNode.parentOrShadowHostElement?

/-- An element and what lies above it, across the roots of shadow trees. -/
def ancestorsFrom (element : ε) : ℕ → List ε
  | 0 => []
  | fuel + 1 =>
    element :: match document.parentOrShadowHostElement element with
      | none => []
      | some parent => ancestorsFrom parent fuel

def ancestors (element : ε) : List ε := document.ancestorsFrom element (document.depth element + 1)

/-- The host of the shadow tree that an element is in. -/
def IsShadowHost (element host : ε) : Prop :=
  ∃ top, ReflTransGen (fun a b => document.parentElement a = some b) element top ∧
    document.parentNode top = some (.shadowRoot host)

variable {document} {element parent sibling host a : ε}

theorem ancestorsFrom_congr {fuel fuel' : ℕ} (hfuel : document.depth element < fuel)
    (hfuel' : document.depth element < fuel') :
    document.ancestorsFrom element fuel = document.ancestorsFrom element fuel' := by
  induction fuel generalizing element fuel' with
  | zero => cases hfuel
  | succ fuel ih =>
    cases fuel' with
    | zero => cases hfuel'
    | succ fuel' =>
      rw [ancestorsFrom, ancestorsFrom]
      cases hparent : document.parentOrShadowHostElement element with
      | none => rfl
      | some parent =>
        have hlt := document.depth_lt element parent hparent
        have heq : document.ancestorsFrom parent fuel = document.ancestorsFrom parent fuel' :=
          ih (by omega) (by omega)
        dsimp only
        rw [heq]

theorem ancestors_of_some (hparent : document.parentOrShadowHostElement element = some parent) :
    document.ancestors element = element :: document.ancestors parent := by
  have hlt := document.depth_lt element parent hparent
  rw [ancestors, ancestorsFrom, hparent, ancestors]
  dsimp only
  rw [ancestorsFrom_congr (by omega) (Nat.lt_succ_self _)]

theorem ancestors_of_none (hparent : document.parentOrShadowHostElement element = none) :
    document.ancestors element = [element] := by
  rw [ancestors, ancestorsFrom, hparent]

theorem exists_ancestors_eq (element : ε) :
    ∃ rest, document.ancestors element = element :: rest := by
  cases hparent : document.parentOrShadowHostElement element with
  | none => exact ⟨[], ancestors_of_none hparent⟩
  | some parent => exact ⟨_, ancestors_of_some hparent⟩

/-- `a` lies above the element, across the roots of shadow trees. -/
def IsAncestor (document : Document ε) : ε → ε → Prop :=
  TransGen fun a b => document.parentOrShadowHostElement a = some b

theorem parentOrShadowHostElement_of_parentElement
    (h : document.parentElement element = some parent) :
    document.parentOrShadowHostElement element = some parent := by
  unfold parentElement at h
  unfold parentOrShadowHostElement
  cases hnode : document.parentNode element with
  | none =>
    rw [hnode] at h
    cases h
  | some node =>
    rw [hnode] at h
    cases node with
    | document => cases h
    | element _ => exact h
    | shadowRoot _ => cases h

theorem isAncestor_of_parentElement (h : document.parentElement element = some parent) :
    document.IsAncestor element parent :=
  .single (parentOrShadowHostElement_of_parentElement h)

theorem IsShadowHost.isAncestor (h : document.IsShadowHost element host) :
    document.IsAncestor element host := by
  obtain ⟨top, hpath, htop⟩ := h
  apply tail' (b := top)
  · exact ReflTransGen.mono (fun _ _ => parentOrShadowHostElement_of_parentElement) _ _ hpath
  · unfold parentOrShadowHostElement
    rw [htop]
    rfl

theorem IsAncestor.of_sibling (hsibling : document.previousElementSibling element = some sibling)
    (h : document.IsAncestor sibling a) : document.IsAncestor element a := by
  have hparent : document.parentOrShadowHostElement sibling =
      document.parentOrShadowHostElement element := by
    unfold parentOrShadowHostElement
    rw [document.parentNode_sibling element sibling hsibling]
  obtain ⟨b, hb, hpath⟩ := head'_iff.mp h
  exact head' (hparent ▸ hb) hpath

theorem IsAncestor.mem_ancestors (h : document.IsAncestor element a)
    (hparent : document.parentOrShadowHostElement element = some parent) :
    a ∈ document.ancestors parent := by
  obtain ⟨b, hb, hpath⟩ := head'_iff.mp h
  obtain rfl : b = parent := Option.some.inj (hb.symm.trans hparent)
  clear h hb hparent
  induction hpath using ReflTransGen.head_induction_on with
  | refl =>
    exact List.mem_cons_self
  | head hstep _ ih =>
    rw [ancestors_of_some hstep]
    exact List.mem_cons_of_mem _ ih

end Document

inductive SelectorRelation
  | descendant
  | child
  | directAdjacent
  | indirectAdjacent
  | subSelector
  | shadowDescendant
  deriving DecidableEq, Repr

/-- What a simple selector matches. Attributes and pseudo classes are of some kind `κ`. -/
inductive SelectorMatch (κ : Type)
  | tag (tagQName : QualifiedName)
  | id (value : AtomicString)
  | className (value : AtomicString)
  | other (kind : κ)
  deriving DecidableEq, Repr

structure CSSSelector (κ : Type) where
  selectorMatch : SelectorMatch κ
  relation : SelectorRelation
  deriving DecidableEq, Repr

def QualifiedName.tagLowercaseLocalName (tagQName : QualifiedName) : AtomicString :=
  convertToASCIILowercase tagQName.localName

namespace Document

variable {ε κ : Type} (document : Document ε) (checkOther : κ → ε → Prop)

def tagMatches (element : ε) (tagQName : QualifiedName) : Bool :=
  if tagQName = anyQName then true
  else
    let data := document.data element
    let localName :=
      if data.isHTMLElement && document.isHTMLDocument then tagQName.tagLowercaseLocalName
      else tagQName.localName
    if localName ≠ starAtom && localName ≠ data.localName then false
    else tagQName.namespaceURI = some starAtom || tagQName.namespaceURI = data.namespaceURI

/-- `checkOne`; the selectors of the other kinds match in some way. -/
def checkOne (element : ε) : SelectorMatch κ → Prop
  | .tag tagQName => document.tagMatches element tagQName = true
  | .id value => (document.data element).hasID = true ∧
    (document.data element).idForStyleResolution = some value
  | .className value => (document.data element).hasClass = true ∧
    value ∈ (document.data element).classNames
  | .other kind => checkOther kind element

/-- The element to the left of a combinator. -/
def Related : SelectorRelation → ε → ε → Prop
  | .descendant => TransGen fun a b => document.parentElement a = some b
  | .child => fun a b => document.parentElement a = some b
  | .directAdjacent => fun a b => document.previousElementSibling a = some b
  | .indirectAdjacent => TransGen fun a b => document.previousElementSibling a = some b
  | .subSelector => fun a b => a = b
  | .shadowDescendant => document.IsShadowHost

/-- A complex selector, from right to left, matches an element. -/
def Matches : List (CSSSelector κ) → ε → Prop
  | [], _ => False
  | [selector], element => document.checkOne checkOther element selector.selectorMatch
  | selector :: next :: history, element =>
    document.checkOne checkOther element selector.selectorMatch ∧
      ∃ element', document.Related selector.relation element element' ∧
        Matches (next :: history) element'

variable {document checkOther} {element element' a : ε} {selector : CSSSelector κ}
  {history : List (CSSSelector κ)} {relation : SelectorRelation} {tagQName : QualifiedName}

theorem localName_eq_of_not_rejected {localName name : AtomicString} {matchesNamespace : Bool}
    (h : (if (localName ≠ starAtom && localName ≠ name) = true then false
      else matchesNamespace) = true) (hne : localName ≠ starAtom) : localName = name := by
  by_contra hname
  rw [decide_eq_true hne, decide_eq_true hname] at h
  cases h

theorem tagLowercaseLocalName_eq (hmatch : document.tagMatches element tagQName = true)
    (hne : tagQName.tagLowercaseLocalName ≠ starAtom) :
    tagQName.tagLowercaseLocalName = convertToASCIILowercase (document.data element).localName := by
  have hstar : convertToASCIILowercase starAtom = starAtom := by decide
  have hlocal : tagQName.localName ≠ starAtom := by
    intro heq
    rw [QualifiedName.tagLowercaseLocalName, heq] at hne
    exact hne hstar
  unfold tagMatches at hmatch
  rw [if_neg (fun hany => hlocal (congrArg QualifiedName.localName hany))] at hmatch
  dsimp only at hmatch
  by_cases hHTML : ((document.data element).isHTMLElement && document.isHTMLDocument) = true
  · rw [if_pos hHTML] at hmatch
    have hname := localName_eq_of_not_rejected hmatch hne
    rw [← hname]
    exact (convertToASCIILowercase_idem tagQName.localName).symm
  · rw [if_neg hHTML] at hmatch
    rw [← localName_eq_of_not_rejected hmatch hlocal]
    rfl

theorem Matches.checkOne (h : document.Matches checkOther (selector :: history) element) :
    document.checkOne checkOther element selector.selectorMatch := by
  cases history with
  | nil => exact h
  | cons next history => exact h.1

theorem Matches.tagHistory (h : document.Matches checkOther (selector :: history) element)
    (hne : history ≠ []) : ∃ element', document.Related selector.relation element element' ∧
      document.Matches checkOther history element' := by
  cases history with
  | nil => exact absurd rfl hne
  | cons next history => exact h.2

theorem Related.isAncestor (h : document.Related relation element element')
    (ha : document.IsAncestor element' a) : document.IsAncestor element a := by
  cases relation with
  | descendant =>
    exact (mono (fun _ _ => parentOrShadowHostElement_of_parentElement) _ _ h).trans ha
  | child => exact (isAncestor_of_parentElement h).trans ha
  | directAdjacent => exact ha.of_sibling h
  | indirectAdjacent =>
    induction h using head_induction_on with
    | single hstep => exact ha.of_sibling hstep
    | head hstep _ ih => exact ih.of_sibling hstep
  | subSelector => exact h ▸ ha
  | shadowDescendant => exact (IsShadowHost.isAncestor h).trans ha

end Document

end WebKit.CSS
