import WebKit.CSS.Selector
import WebKit.WTF.BloomFilter

/-!
# `SelectorFilter`

The filter has the hashes of the tags, identifiers and classes of an element and of all elements
above it, while style resolution goes down and up the tree. A selector is rejected when the hash
of a simple selector that has to match above an element is not in the filter.
-/

namespace WebKit.CSS

open WTF CountingBloomFilter

def tagNameSalt : ℕ := 13
def idAttributeSalt : ℕ := 17
def classAttributeSalt : ℕ := 19

def bloomFilterKeyBits : ℕ := 12

structure ParentStackFrame (ε : Type) where
  element : ε
  identifierHashes : List ℕ
  deriving DecidableEq, Repr

/-- The last frame of the stack comes first. -/
structure SelectorFilter (ε : Type) where
  parentStack : List (ParentStackFrame ε)
  ancestorIdentifierFilter : Option (CountingBloomFilter bloomFilterKeyBits)

section Hashes

variable {κ : Type} (existingHash : AtomicString → ℕ)

def saltedHash (salt : ℕ) (string : AtomicString) : ℕ := existingHash string * salt % 2 ^ 32

/-- Classes are collected for a `StyledElement` only. -/
def collectElementIdentifierHashes (element : ElementData) : List ℕ :=
  let tagHashes :=
    [saltedHash existingHash tagNameSalt (convertToASCIILowercase element.localName)]
  let idHashes := element.idForStyleResolution.toList.map (saltedHash existingHash idAttributeSalt)
  let classHashes :=
    if element.isStyledElement && element.hasClass then
      element.classNames.map (saltedHash existingHash classAttributeSalt)
    else []
  tagHashes ++ idHashes ++ classHashes

/-- The hash that is written for a simple selector, if any. -/
def collectDescendantSelectorIdentifierHashes : SelectorMatch κ → List ℕ
  | .id value => if value ≠ "" then [saltedHash existingHash idAttributeSalt value] else []
  | .className value =>
    if value ≠ "" then [saltedHash existingHash classAttributeSalt value] else []
  | .tag tagQName =>
    if tagQName.tagLowercaseLocalName ≠ starAtom then
      [saltedHash existingHash tagNameSalt tagQName.tagLowercaseLocalName]
    else []
  | .other _ => []

/-- The loop of `collectIdentifierHashes` over the selectors to the left of the last one. -/
def collectFrom (maximumIdentifierCount : ℕ) :
    SelectorRelation → Bool → List ℕ → List (CSSSelector κ) → List ℕ
  | _, _, hashes, [] => hashes ++ [0]
  | relation, skipOverSubselectors, hashes, selector :: history =>
    let collected :=
      hashes ++ collectDescendantSelectorIdentifierHashes existingHash selector.selectorMatch
    let (skipOverSubselectors, hashes) := match relation with
      | .subSelector =>
        if skipOverSubselectors then (skipOverSubselectors, hashes)
        else (skipOverSubselectors, collected)
      | .directAdjacent => (true, hashes)
      | .indirectAdjacent => (true, hashes)
      | .shadowDescendant => (true, hashes)
      | .descendant => (false, collected)
      | .child => (false, collected)
    if hashes.length = maximumIdentifierCount then hashes
    else collectFrom maximumIdentifierCount selector.relation skipOverSubselectors hashes history

/-- The topmost selector is skipped. -/
def collectIdentifierHashes (maximumIdentifierCount : ℕ) : List (CSSSelector κ) → List ℕ
  | [] => []
  | selector :: history =>
    collectFrom existingHash maximumIdentifierCount selector.relation true [] history

end Hashes

namespace SelectorFilter

variable {ε : Type} [DecidableEq ε] (document : Document ε) (existingHash : AtomicString → ℕ)
  (filter : SelectorFilter ε)

def initial : SelectorFilter ε := ⟨[], none⟩

def frame (element : ε) : ParentStackFrame ε :=
  ⟨element, collectElementIdentifierHashes existingHash (document.data element)⟩

def pushParentStackFrame (filter : SelectorFilter ε) (parent : ε) : Option (SelectorFilter ε) :=
  match filter.ancestorIdentifierFilter with
  | none => none
  | some identifiers =>
    let parentFrame := frame document existingHash parent
    some ⟨parentFrame :: filter.parentStack,
      some (parentFrame.identifierHashes.foldl add identifiers)⟩

def popParentStackFrame : Option (SelectorFilter ε) :=
  match filter.parentStack, filter.ancestorIdentifierFilter with
  | parentFrame :: parentStack, some identifiers =>
    let identifiers := parentFrame.identifierHashes.foldl remove identifiers
    some ⟨parentStack, if parentStack.isEmpty then none else some identifiers⟩
  | _, _ => none

/-- What was stored before does not matter. -/
def setupParentStack (parent : ε) : Option (SelectorFilter ε) :=
  let cleared : SelectorFilter ε := ⟨[], some create⟩
  if (document.parentNode parent).isNone then
    pushParentStackFrame document existingHash cleared parent
  else
    (document.ancestors parent).reverse.foldlM (pushParentStackFrame document existingHash) cleared

def pushParent (parent : ε) : Option (SelectorFilter ε) :=
  match filter.parentStack with
  | [] => none
  | parentFrame :: _ =>
    if some parentFrame.element ≠ document.parentOrShadowHostElement parent then some filter
    else pushParentStackFrame document existingHash filter parent

def popParent : Option (SelectorFilter ε) := filter.popParentStackFrame

def parentStackIsConsistent (parentNode : Option (ParentNode ε)) : Bool :=
  match filter.parentStack, parentNode with
  | parentFrame :: _, some (.element parent) => parentFrame.element = parent
  | _, _ => false

/-- The hashes of a selector end with 0, unless there are as many as possible. -/
def fastRejectSelector (maximumIdentifierCount : ℕ) (identifierHashes : List ℕ) : Option Bool :=
  filter.ancestorIdentifierFilter.map fun identifiers =>
    ((identifierHashes.take maximumIdentifierCount).takeWhile (· ≠ 0)).any
      fun hash => !identifiers.mayContain hash

inductive Operation (ε : Type)
  | setupParentStack (parent : ε)
  | pushParent (parent : ε)
  | popParent
  deriving DecidableEq, Repr

def execute : Operation ε → Option (SelectorFilter ε)
  | .setupParentStack parent => setupParentStack document existingHash parent
  | .pushParent parent => filter.pushParent document existingHash parent
  | .popParent => filter.popParent

end SelectorFilter

end WebKit.CSS
