import WebKit.ContentExtensions.NFA

/-!
# `Term`

A term of a URL filter: a set of characters or a group of terms, with a quantifier. A set is
kept as the set bits of its `BitVector`, which starts with 128 bits and grows for other
characters. An invalid term is `none`, where there can be one.

The assertions on characters being ASCII do nothing in a release build, so a set may have bits
from 128 on. `generateGraph` casts them to `char`.
-/

namespace WebKit.ContentExtensions

abbrev UChar := UInt16

def isASCII (character : UChar) : Bool := character.toNat < 128

def isASCIILower (character : ℕ) : Bool := 97 ≤ character && character ≤ 122

def isASCIIUpper (character : ℕ) : Bool := 65 ≤ character && character ≤ 90

def isASCIIAlpha (character : ℕ) : Bool := isASCIILower character || isASCIIUpper character

def toASCIIUpper (character : ℕ) : ℕ :=
  if isASCIILower character then character - 32 else character

def toASCIILower (character : ℕ) : ℕ :=
  if isASCIIUpper character then character + 32 else character

inductive AtomQuantifier
  | one
  | zeroOrOne
  | zeroOrMore
  | oneOrMore
  deriving DecidableEq, Repr

structure CharacterSet where
  inverted : Bool := false
  characters : Finset ℕ := ∅

namespace CharacterSet

instance : DecidableEq CharacterSet := fun set set' =>
  decidable_of_iff (set.inverted = set'.inverted ∧ set.characters = set'.characters)
    ⟨fun ⟨h, h'⟩ => by cases set; cases set'; cases h; cases h'; rfl, fun h => h ▸ ⟨rfl, rfl⟩⟩

/-- `characters.size()`: the vector has grown, by words of 64 bits, up to its last set bit. -/
def size (set : CharacterSet) : ℕ :=
  max 128 ((set.characters.sup (· + 1) + 63) / 64 * 64)

def addCharacter (set : CharacterSet) (character : UChar) (isCaseSensitive : Bool) : CharacterSet :=
  if isCaseSensitive || !isASCIIAlpha character.toNat then
    { set with characters := insert character.toNat set.characters }
  else
    { set with
      characters := insert (toASCIILower character.toNat)
        (insert (toASCIIUpper character.toNat) set.characters) }

def isEndOfLineAssertion (set : CharacterSet) : Bool :=
  set.characters.card = 1 && 0 ∈ set.characters

def isUniversalTransition (set : CharacterSet) : Bool :=
  (set.inverted && set.characters.card = 0) || (!set.inverted && set.characters.card = 128)

end CharacterSet

inductive Term
  | characterSet (quantifier : AtomQuantifier) (set : CharacterSet)
  | group (quantifier : AtomQuantifier) (terms : List Term)

namespace Term

mutual

def decEq : (a b : Term) → Decidable (a = b)
  | .characterSet q set, .characterSet q' set' =>
    decidable_of_iff (q = q' ∧ set = set') (by rw [characterSet.injEq])
  | .group q terms, .group q' terms' =>
    have := decEqList terms terms'
    decidable_of_iff (q = q' ∧ terms = terms') (by rw [group.injEq])
  | .characterSet _ _, .group _ _ => .isFalse nofun
  | .group _ _, .characterSet _ _ => .isFalse nofun

def decEqList : (a b : List Term) → Decidable (a = b)
  | [], [] => .isTrue rfl
  | [], _ :: _ => .isFalse nofun
  | _ :: _, [] => .isFalse nofun
  | a :: as, b :: bs =>
    have := decEq a b
    have := decEqList as bs
    decidable_of_iff (a = b ∧ as = bs) (by rw [List.cons.injEq])

end

instance : DecidableEq Term := decEq

def universalTransition : Term :=
  .characterSet .one { characters := Finset.range 128 }

def emptyGroup : Term := .group .one []

def endOfLineAssertion : Term := .characterSet .one { characters := {0} }

/-- `Term(char, bool)`. -/
def ofCharacter (character : UChar) (isCaseSensitive : Bool) : Term :=
  .characterSet .one (CharacterSet.addCharacter {} character isCaseSensitive)

def quantifier : Term → AtomQuantifier
  | .characterSet q _ => q
  | .group q _ => q

def quantify (q : AtomQuantifier) : Term → Term
  | .characterSet _ set => .characterSet q set
  | .group _ terms => .group q terms

def addCharacter (character : UChar) (isCaseSensitive : Bool) : Term → Term
  | .characterSet q set => .characterSet q (set.addCharacter character isCaseSensitive)
  | .group q terms => .group q terms

def extendGroupSubpattern : Term → Term → Term
  | .characterSet q set, _ => .characterSet q set
  | .group q terms, term => .group q (terms ++ [term])

def isEndOfLineAssertion : Term → Bool
  | .characterSet _ set => set.isEndOfLineAssertion
  | .group _ _ => false

mutual

def matchesAtLeastOneCharacter : Term → Bool
  | .characterSet q set =>
    if q = .zeroOrOne || q = .zeroOrMore then false else !set.isEndOfLineAssertion
  | .group q terms =>
    if q = .zeroOrOne || q = .zeroOrMore then false else anyMatchesAtLeastOneCharacter terms

def anyMatchesAtLeastOneCharacter : List Term → Bool
  | [] => false
  | term :: terms => matchesAtLeastOneCharacter term || anyMatchesAtLeastOneCharacter terms

end

/-- Exact for sets and conservative for groups. -/
def isUniversalTransition : Term → Bool
  | .characterSet _ set => set.isUniversalTransition
  | .group _ [term] => isUniversalTransition term
  | .group _ _ => false

def isKnownToMatchAnyString : Term → Bool
  | .characterSet q set => set.isUniversalTransition && q = .zeroOrMore
  | .group q [firstTermInGroup] =>
    -- `(.*)` with any quantifier, `(.)*`, `(.+)*`, `(.?)*`, `(.+)?` and `(.?)+`
    isKnownToMatchAnyString firstTermInGroup || (firstTermInGroup.isUniversalTransition &&
        (q = .zeroOrMore || (q = .zeroOrOne && firstTermInGroup.quantifier = .oneOrMore) ||
          (q = .oneOrMore && firstTermInGroup.quantifier = .zeroOrOne)))
  | .group _ _ => false

mutual

def hasFixedLength : Term → Bool
  | .characterSet q _ => q = .one
  | .group q terms => q = .one && allHaveFixedLength terms

def allHaveFixedLength : List Term → Bool
  | [] => true
  | term :: terms => hasFixedLength term && allHaveFixedLength terms

end

/-- `static_cast<char>` of a bit, as a key of the transitions: `char` is signed. -/
def characterKey (bit : ℕ) : ℕ :=
  if bit % 256 < 128 then bit % 256 else 65536 - 256 + bit % 256

/-- The bits for which a set has a transition. -/
def transitionBits (set : CharacterSet) : List ℕ :=
  if set.inverted then (List.range' 1 (set.size - 1)).filter (· ∉ set.characters)
  else (List.range set.size).filter (· ∈ set.characters)

def characterSetSubgraph (set : CharacterSet) (nfa : NFA) (source : ℕ) : NFA × ℕ :=
  let target := nfa.createNode.2
  let nfa := nfa.createNode.1
  if set.isUniversalTransition then (nfa.addTransitionsOnAnyCharacter source target, target)
  else
    ((transitionBits set).foldl (fun nfa bit =>
      nfa.addTransition source target (characterKey bit)) nfa, target)

/-- The switch of `generateGraph`, around the subgraph of the atom. -/
def quantifiedSubgraph (subgraph : NFA → ℕ → NFA × ℕ) (nfa : NFA) (start : ℕ) :
    AtomQuantifier → NFA × ℕ
  | .one => subgraph nfa start
  | .zeroOrOne =>
    let (nfa, newEnd) := subgraph nfa start
    (nfa.addEpsilonTransition start newEnd, newEnd)
  | .zeroOrMore =>
    let (nfa, repeatStart) := nfa.createNode
    let nfa := nfa.addEpsilonTransition start repeatStart
    let (nfa, repeatEnd) := subgraph nfa repeatStart
    let nfa := nfa.addEpsilonTransition repeatEnd repeatStart
    let (nfa, kleenEnd) := nfa.createNode
    let nfa := nfa.addEpsilonTransition repeatEnd kleenEnd
    (nfa.addEpsilonTransition start kleenEnd, kleenEnd)
  | .oneOrMore =>
    let (nfa, repeatStart) := nfa.createNode
    let nfa := nfa.addEpsilonTransition start repeatStart
    let (nfa, repeatEnd) := subgraph nfa repeatStart
    let nfa := nfa.addEpsilonTransition repeatEnd repeatStart
    let (nfa, afterRepeat) := nfa.createNode
    (nfa.addEpsilonTransition repeatEnd afterRepeat, afterRepeat)

mutual

def generateGraph (nfa : NFA) (start : ℕ) (finalActions : List ℕ) : Term → NFA × ℕ
  | .characterSet q set =>
    let (nfa, newEnd) := quantifiedSubgraph (characterSetSubgraph set) nfa start q
    (nfa.setActions newEnd finalActions, newEnd)
  | .group q terms =>
    let (nfa, newEnd) :=
      quantifiedSubgraph (fun nfa source => groupSubgraph nfa source terms) nfa start q
    (nfa.setActions newEnd finalActions, newEnd)

def groupSubgraph (nfa : NFA) (lastTarget : ℕ) : List Term → NFA × ℕ
  | [] => (nfa, lastTarget)
  | term :: terms =>
    let (nfa, lastTarget) := generateGraph nfa lastTarget [] term
    groupSubgraph nfa lastTarget terms

end

end Term

end WebKit.ContentExtensions
