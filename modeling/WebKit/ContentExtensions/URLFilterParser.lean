import Mathlib.Data.List.DropRight
import WebKit.ContentExtensions.CombinedURLFilters

/-!
# `URLFilterParser`

The delegate of the Yarr parser: every event extends a list of terms, the last one floating
until it is known that no quantifier follows. `finalize` simplifies the list and hands it to
the combined filters.

What the Yarr parser makes of a pattern, the events and whether there is an error, is a
parameter. A `Deque` used as a stack is a list with the top in front.
-/

namespace WebKit.ContentExtensions

open Term

inductive ParseStatus
  | ok
  | matchesEverything
  | nonASCII
  | unsupportedCharacterClass
  | backReference
  | misplacedStartOfLine
  | wordBoundary
  | atomCharacter
  | group
  | disjunction
  | misplacedEndOfLine
  | emptyPattern
  | yarrError
  | invalidQuantifier
  deriving DecidableEq, Repr

inductive BuiltInCharacterClassID
  | digitClassID
  | spaceClassID
  | wordClassID
  | newlineClassID
  deriving DecidableEq, Repr

/-- `JSC::Yarr::quantifyInfinite`. -/
def quantifyInfinite : UInt32 := 0xFFFFFFFF

/-- The calls of the Yarr parser. -/
inductive ParserEvent
  | atomPatternCharacter (character : UChar)
  | atomBuiltInCharacterClass (classID : BuiltInCharacterClassID) (inverted : Bool)
  | quantifyAtom (minimum maximum : UInt32)
  | atomBackReference
  | assertionBOL
  | assertionEOL
  | assertionWordBoundary
  | atomCharacterClassBegin (inverted : Bool)
  | atomCharacterClassAtom (character : UChar)
  | atomCharacterClassRange (a b : UChar)
  | atomCharacterClassEnd
  | atomCharacterClassBuiltIn
  | atomParenthesesSubpatternBegin
  | atomParentheticalAssertionBegin
  | atomParenthesesEnd
  | disjunction

/-- `canonicalDotStar`. -/
def canonicalDotStar : Term := universalTransition.quantify .zeroOrMore

structure PatternParser where
  patternIsCaseSensitive : Bool
  openGroups : List Term := []
  sunkTerms : List Term := []
  floatingTerm : Option Term := none
  hasBeginningOfLineAssertion : Bool := false
  hasProcessedEndOfLineAssertion : Bool := false
  parseStatus : ParseStatus := .ok

namespace PatternParser

variable (parser : PatternParser)

def hasError : Bool := parser.parseStatus ≠ .ok

def fail (reason : ParseStatus) : PatternParser :=
  if parser.hasError then parser else { parser with parseStatus := reason }

def sinkFloatingTermIfNecessary : PatternParser :=
  match parser.floatingTerm with
  | none => parser
  | some floatingTerm =>
    if parser.hasProcessedEndOfLineAssertion then
      { parser.fail .misplacedEndOfLine with floatingTerm := none }
    else
      let parser :=
        { parser with hasProcessedEndOfLineAssertion := floatingTerm.isEndOfLineAssertion }
      match parser.openGroups with
      | last :: rest =>
        { parser with
          openGroups := last.extendGroupSubpattern floatingTerm :: rest
          floatingTerm := none }
      | [] =>
        { parser with
          sunkTerms := parser.sunkTerms ++ [floatingTerm]
          floatingTerm := none }

/-- A handler that does nothing after an error. -/
def unlessError (handler : PatternParser → PatternParser) : PatternParser :=
  if parser.hasError then parser else handler parser

/-- The term that comes next, after the one before it has been sunk. -/
def float (term : Term) : PatternParser :=
  { parser.sinkFloatingTermIfNecessary with floatingTerm := some term }

/-! ## Events -/

def atomPatternCharacter (character : UChar) : PatternParser :=
  parser.unlessError fun parser =>
    if !isASCII character then parser.fail .nonASCII
    else parser.float (ofCharacter character parser.patternIsCaseSensitive)

def atomBuiltInCharacterClass (classID : BuiltInCharacterClassID) (inverted : Bool) :
    PatternParser :=
  parser.unlessError fun parser =>
    if classID = .newlineClassID && inverted then parser.float universalTransition
    else parser.sinkFloatingTermIfNecessary.fail .unsupportedCharacterClass

def quantify (quantifier : AtomQuantifier) : PatternParser :=
  { parser with floatingTerm := parser.floatingTerm.map (·.quantify quantifier) }

def quantifyAtom (minimum maximum : UInt32) : PatternParser :=
  parser.unlessError fun parser =>
    if minimum = 0 && maximum = 1 then parser.quantify .zeroOrOne
    else if minimum = 0 && maximum = quantifyInfinite then parser.quantify .zeroOrMore
    else if minimum = 1 && maximum = quantifyInfinite then parser.quantify .oneOrMore
    else parser.fail .invalidQuantifier

def assertionBOL : PatternParser :=
  parser.unlessError fun parser =>
    if parser.floatingTerm.isSome || !parser.sunkTerms.isEmpty || !parser.openGroups.isEmpty then
      parser.fail .misplacedStartOfLine
    else { parser with hasBeginningOfLineAssertion := true }

def assertionEOL : PatternParser :=
  parser.unlessError fun parser => parser.float endOfLineAssertion

def atomCharacterClassBegin (inverted : Bool) : PatternParser :=
  parser.unlessError fun parser =>
    parser.float (.characterSet .one { inverted := inverted })

def addCharacter (character : UChar) : PatternParser :=
  { parser with
    floatingTerm :=
      parser.floatingTerm.map (·.addCharacter character parser.patternIsCaseSensitive) }

def atomCharacterClassAtom (character : UChar) : PatternParser :=
  parser.unlessError fun parser => parser.addCharacter character

def atomCharacterClassRange (a b : UChar) : PatternParser :=
  parser.unlessError fun parser =>
    (List.range' a.toNat (b.toNat + 1 - a.toNat)).foldl (fun parser i =>
      parser.addCharacter (UInt16.ofNat i)) parser

def atomParenthesesSubpatternBegin : PatternParser :=
  parser.unlessError fun parser =>
    let parser := parser.sinkFloatingTermIfNecessary
    { parser with openGroups := emptyGroup :: parser.openGroups }

/-- The parentheses of the events are balanced. -/
def atomParenthesesEnd : PatternParser :=
  parser.unlessError fun parser =>
    let parser := parser.sinkFloatingTermIfNecessary
    match parser.openGroups with
    | [] => parser
    | last :: rest => { parser with openGroups := rest, floatingTerm := some last }

def handle : ParserEvent → PatternParser
  | .atomPatternCharacter character => parser.atomPatternCharacter character
  | .atomBuiltInCharacterClass classID inverted =>
    parser.atomBuiltInCharacterClass classID inverted
  | .quantifyAtom minimum maximum => parser.quantifyAtom minimum maximum
  | .atomBackReference => parser.fail .backReference
  | .assertionBOL => parser.assertionBOL
  | .assertionEOL => parser.assertionEOL
  | .assertionWordBoundary => parser.fail .wordBoundary
  | .atomCharacterClassBegin inverted => parser.atomCharacterClassBegin inverted
  | .atomCharacterClassAtom character => parser.atomCharacterClassAtom character
  | .atomCharacterClassRange a b => parser.atomCharacterClassRange a b
  | .atomCharacterClassEnd => parser
  | .atomCharacterClassBuiltIn => parser.fail .atomCharacter
  | .atomParenthesesSubpatternBegin => parser.atomParenthesesSubpatternBegin
  | .atomParentheticalAssertionBegin => parser.fail .group
  | .atomParenthesesEnd => parser.atomParenthesesEnd
  | .disjunction => parser.fail .disjunction

/-- The parser after all events of a pattern. -/
def parse (patternIsCaseSensitive : Bool) (events : List ParserEvent) : PatternParser :=
  events.foldl handle { patternIsCaseSensitive := patternIsCaseSensitive }

end PatternParser

/-! ## Simplification -/

/-- Replace every `.*`-like term by the canonical one, and remove any that follows another. -/
def replaceDotStars : Bool → List Term → List Term
  | _, [] => []
  | isAfterDotStar, term :: terms =>
    if isAfterDotStar && term.isKnownToMatchAnyString then replaceDotStars isAfterDotStar terms
    else if term.isKnownToMatchAnyString then canonicalDotStar :: replaceDotStars true terms
    else term :: replaceDotStars false terms

/-- Add `.*` in front if needed. -/
def addDotStar (hasBeginningOfLineAssertion : Bool) (terms : List Term) : List Term :=
  if !hasBeginningOfLineAssertion && !terms.head?.any isKnownToMatchAnyString then
    canonicalDotStar :: terms
  else terms

/-- Remove a trailing `.*$`. -/
def removeDotStarEndOfLine (terms : List Term) : List Term :=
  if 2 < terms.length && terms.getLast?.any isEndOfLineAssertion &&
      terms.dropLast.getLast?.any isKnownToMatchAnyString then
    terms.take (terms.length - 2)
  else terms

/-- Remove the last terms that can match empty. -/
def removeIrrelevantTerms (terms : List Term) : List Term :=
  if terms.getLast?.any isEndOfLineAssertion then terms
  else terms.rdropWhile fun term => !term.matchesAtLeastOneCharacter

def simplifySunkTerms (hasBeginningOfLineAssertion : Bool) (terms : List Term) : List Term :=
  if terms.isEmpty then terms
  else
    removeIrrelevantTerms <| removeDotStarEndOfLine <|
      addDotStar hasBeginningOfLineAssertion <| replaceDotStars false terms

namespace PatternParser

variable (parser : PatternParser)

/-- The parser without a floating term, and its simplified terms. -/
def simplified : PatternParser :=
  let parser := parser.sinkFloatingTermIfNecessary
  { parser with
    sunkTerms := simplifySunkTerms parser.hasBeginningOfLineAssertion parser.sunkTerms }

def finalize (patternId : ℕ) (combinedURLFilters : PrefixTreeVertex) :
    PatternParser × PrefixTreeVertex :=
  if parser.hasError then (parser, combinedURLFilters)
  else
    let parser := parser.simplified
    let matchesEverything := !parser.sunkTerms.any matchesAtLeastOneCharacter
    if matchesEverything then (parser.fail .matchesEverything, combinedURLFilters)
    else (parser, combinedURLFilters.addPattern patternId parser.sunkTerms)

end PatternParser

namespace URLFilterParser

/-- `yarrParse` gives the events of a pattern, and an error message if there is one. -/
def addPattern (yarrParse : String → List ParserEvent × Option String)
    (combinedURLFilters : PrefixTreeVertex) (pattern : String) (patternIsCaseSensitive : Bool)
    (patternId : ℕ) : ParseStatus × PrefixTreeVertex :=
  if !pattern.toList.all fun character => character.toNat < 128 then (.nonASCII, combinedURLFilters)
  else if pattern.isEmpty then (.emptyPattern, combinedURLFilters)
  else
    match yarrParse pattern with
    | (_, some _) => (.yarrError, combinedURLFilters)
    | (events, none) =>
      let finalized :=
        (PatternParser.parse patternIsCaseSensitive events).finalize patternId combinedURLFilters
      (finalized.1.parseStatus, finalized.2)

end URLFilterParser

/-!
## Errors of `URLFilterParser`

`finalize` leaves the combined filters alone after an error, except after the one that it finds
itself: a last term behind the end of line, which `sinkFloatingTermIfNecessary` drops before the
other terms are added.
-/

namespace Term

theorem matchesAtLeastOneCharacter_of_optional {term : Term}
    (h : term.quantifier = .zeroOrOne ∨ term.quantifier = .zeroOrMore) :
    term.matchesAtLeastOneCharacter = false := by
  cases term <;> rcases h with h | h <;>
    · simp only [quantifier] at h
      simp [matchesAtLeastOneCharacter, h]

theorem matchesAtLeastOneCharacter_of_endOfLine {term : Term}
    (h : term.isEndOfLineAssertion = true) : term.matchesAtLeastOneCharacter = false := by
  cases term with
  | characterSet q set =>
    have hset : set.isEndOfLineAssertion = true := h
    simp [matchesAtLeastOneCharacter, hset]
  | group q terms => cases h

theorem matchesAtLeastOneCharacter_of_anyString :
    (term : Term) → term.isKnownToMatchAnyString = true → term.matchesAtLeastOneCharacter = false
  | .characterSet q set, h => by
    simp only [isKnownToMatchAnyString, Bool.and_eq_true, decide_eq_true_eq] at h
    exact matchesAtLeastOneCharacter_of_optional (.inr h.2)
  | .group q [], h => by cases h
  | .group q (_ :: _ :: _), h => by cases h
  | .group q [first], h => by
    simp only [isKnownToMatchAnyString, Bool.or_eq_true, Bool.and_eq_true, decide_eq_true_eq] at h
    have hfirst : first.matchesAtLeastOneCharacter = false →
        (group q [first]).matchesAtLeastOneCharacter = false := by
      intro hfirst
      simp [matchesAtLeastOneCharacter, anyMatchesAtLeastOneCharacter, hfirst]
    rcases h with h | ⟨-, (h | ⟨h, -⟩) | ⟨-, h⟩⟩
    · exact hfirst (matchesAtLeastOneCharacter_of_anyString first h)
    · exact matchesAtLeastOneCharacter_of_optional (.inr h)
    · exact matchesAtLeastOneCharacter_of_optional (.inl h)
    · exact hfirst (matchesAtLeastOneCharacter_of_optional (.inl h))

end Term

open Term

theorem canonicalDotStar_matchesAtLeastOneCharacter :
    canonicalDotStar.matchesAtLeastOneCharacter = false :=
  matchesAtLeastOneCharacter_of_optional (.inr rfl)

theorem any_replaceDotStars (isAfterDotStar : Bool) (terms : List Term) :
    (replaceDotStars isAfterDotStar terms).any matchesAtLeastOneCharacter =
      terms.any matchesAtLeastOneCharacter := by
  induction terms generalizing isAfterDotStar with
  | nil => rfl
  | cons term terms ih =>
    unfold replaceDotStars
    by_cases hterm : term.isKnownToMatchAnyString = true
    · have hconsumes := matchesAtLeastOneCharacter_of_anyString term hterm
      split
      · simp [ih, hconsumes]
      · simp [ih, hconsumes, canonicalDotStar_matchesAtLeastOneCharacter]
    · simp [ih, hterm]

theorem any_addDotStar (hasBeginningOfLineAssertion : Bool) (terms : List Term) :
    (addDotStar hasBeginningOfLineAssertion terms).any matchesAtLeastOneCharacter =
      terms.any matchesAtLeastOneCharacter := by
  unfold addDotStar
  split
  · simp [canonicalDotStar_matchesAtLeastOneCharacter]
  · rfl

theorem eq_append_of_dotStarEndOfLine {terms : List Term}
    (hlast : terms.getLast?.any isEndOfLineAssertion = true)
    (hdotStar : terms.dropLast.getLast?.any isKnownToMatchAnyString = true) :
    ∃ dotStar endOfLine, terms = terms.take (terms.length - 2) ++ [dotStar, endOfLine] ∧
      dotStar.isKnownToMatchAnyString = true ∧ endOfLine.isEndOfLineAssertion = true := by
  obtain ⟨endOfLine, hget, hendOfLine⟩ := (Option.any_eq_true ..).mp hlast
  obtain ⟨dotStar, hget', hknown⟩ := (Option.any_eq_true ..).mp hdotStar
  refine ⟨dotStar, endOfLine, ?_, hknown, hendOfLine⟩
  have hterms := List.dropLast_append_getLast? endOfLine hget
  have hinit := List.dropLast_append_getLast? dotStar hget'
  have htake : terms.take (terms.length - 2) = terms.dropLast.dropLast := by
    rw [List.dropLast_eq_take, List.dropLast_eq_take, List.take_take]
    simp
    omega
  rw [htake]
  calc terms = terms.dropLast ++ [endOfLine] := hterms.symm
    _ = terms.dropLast.dropLast ++ [dotStar] ++ [endOfLine] := by rw [hinit]
    _ = terms.dropLast.dropLast ++ [dotStar, endOfLine] := by simp

theorem any_removeDotStarEndOfLine (terms : List Term) :
    (removeDotStarEndOfLine terms).any matchesAtLeastOneCharacter =
      terms.any matchesAtLeastOneCharacter := by
  unfold removeDotStarEndOfLine
  split
  · rename_i h
    simp only [Bool.and_eq_true] at h
    obtain ⟨⟨-, hlast⟩, hdotStar⟩ := h
    obtain ⟨dotStar, endOfLine, heq, hknown, hendOfLine⟩ :=
      eq_append_of_dotStarEndOfLine hlast hdotStar
    conv_rhs => rw [heq]
    simp [matchesAtLeastOneCharacter_of_anyString _ hknown,
      matchesAtLeastOneCharacter_of_endOfLine hendOfLine]
  · rfl

theorem any_rdropWhile (terms : List Term) :
    (terms.rdropWhile fun term => !term.matchesAtLeastOneCharacter).any
      matchesAtLeastOneCharacter = terms.any matchesAtLeastOneCharacter := by
  induction terms using List.reverseRecOn with
  | nil => rfl
  | append_singleton terms term ih =>
    cases hterm : term.matchesAtLeastOneCharacter with
    | true => rw [List.rdropWhile_concat_neg _ _ _ (by simp [hterm])]
    | false =>
      rw [List.rdropWhile_concat_pos _ _ _ (by simp [hterm]), ih]
      simp [hterm]

theorem any_removeIrrelevantTerms (terms : List Term) :
    (removeIrrelevantTerms terms).any matchesAtLeastOneCharacter =
      terms.any matchesAtLeastOneCharacter := by
  unfold removeIrrelevantTerms
  split
  · rfl
  · exact any_rdropWhile terms

theorem any_simplifySunkTerms (hasBeginningOfLineAssertion : Bool) (terms : List Term) :
    (simplifySunkTerms hasBeginningOfLineAssertion terms).any matchesAtLeastOneCharacter =
      terms.any matchesAtLeastOneCharacter := by
  unfold simplifySunkTerms
  split
  · rfl
  · rw [any_removeIrrelevantTerms, any_removeDotStarEndOfLine, any_addDotStar, any_replaceDotStars]

namespace PatternParser

variable {parser : PatternParser}

/-- No error has been seen, and the floating term is one behind the end of line. -/
structure MisplacedAtEnd (parser : PatternParser) : Prop where
  noError : parser.parseStatus = .ok
  floating : parser.floatingTerm.isSome = true
  endOfLine : parser.hasProcessedEndOfLineAssertion = true

theorem sink_of_misplacedAtEnd (h : parser.MisplacedAtEnd) : parser.sinkFloatingTermIfNecessary =
      { parser with parseStatus := .misplacedEndOfLine, floatingTerm := none } := by
  obtain ⟨floatingTerm, hfloat⟩ := Option.isSome_iff_exists.mp h.floating
  unfold sinkFloatingTermIfNecessary fail hasError
  rw [hfloat]
  simp [h.endOfLine, h.noError]

theorem parseStatus_sink_of_not_misplacedAtEnd (h : ¬ parser.MisplacedAtEnd)
    (hnone : parser.parseStatus = .ok) :
    parser.sinkFloatingTermIfNecessary.parseStatus = .ok := by
  unfold sinkFloatingTermIfNecessary
  split
  · exact hnone
  · rename_i floatingTerm hfloat
    split
    · rename_i hendOfLine
      exact absurd ⟨hnone, by rw [hfloat]; rfl, hendOfLine⟩ h
    · simp only
      split <;> exact hnone

theorem simplified_of_misplacedAtEnd (h : parser.MisplacedAtEnd) : parser.simplified =
      { parser with
        parseStatus := .misplacedEndOfLine
        floatingTerm := none
        sunkTerms := simplifySunkTerms parser.hasBeginningOfLineAssertion parser.sunkTerms } := by
  unfold simplified
  rw [sink_of_misplacedAtEnd h]

/-- `finalize` changes the filters after an error only when it is its own, about a pattern that
consumes a character and that the filters do not have. -/
theorem finalize_unchanged_iff {patternId : ℕ} {filters : PrefixTreeVertex} :
    ((parser.finalize patternId filters).1.parseStatus ≠ .ok →
        (parser.finalize patternId filters).2 = filters) ↔
      (parser.MisplacedAtEnd → parser.sunkTerms.any matchesAtLeastOneCharacter = true →
        filters.Has patternId
          (simplifySunkTerms parser.hasBeginningOfLineAssertion parser.sunkTerms)) := by
  unfold finalize hasError
  by_cases hnone : parser.parseStatus = .ok
  · rw [if_neg (by simp [hnone])]
    by_cases hmisplaced : parser.MisplacedAtEnd
    · rw [simplified_of_misplacedAtEnd hmisplaced]
      simp only [any_simplifySunkTerms]
      cases hany : parser.sunkTerms.any matchesAtLeastOneCharacter with
      | false => simp
      | true =>
        have hpat : simplifySunkTerms parser.hasBeginningOfLineAssertion parser.sunkTerms ≠ [] := by
          intro hnil
          rw [← any_simplifySunkTerms parser.hasBeginningOfLineAssertion, hnil] at hany
          cases hany
        simp [hmisplaced, PrefixTreeVertex.addPattern_eq_self_iff hpat]
    · have hsimplified : parser.simplified.parseStatus = .ok :=
        parseStatus_sink_of_not_misplacedAtEnd hmisplaced hnone
      simp only
      split <;> simp [hsimplified, hmisplaced]
  · rw [if_pos (by simpa using hnone)]
    exact ⟨fun _ h => absurd h.noError hnone, fun _ _ => rfl⟩

end PatternParser

namespace URLFilterParser

open PatternParser

variable {yarrParse : String → List ParserEvent × Option String} {filters : PrefixTreeVertex}
  {pattern : String} {patternIsCaseSensitive : Bool} {patternId : ℕ}

/-- A pattern that reaches `finalize`, with its events. -/
structure Parses (yarrParse : String → List ParserEvent × Option String) (pattern : String)
    (events : List ParserEvent) : Prop where
  ascii : pattern.toList.all (fun character => character.toNat < 128) = true
  nonempty : pattern.isEmpty = false
  parsed : yarrParse pattern = (events, none)

/-- A pattern that is refused leaves the filters alone, unless its last term comes right after
`$`, the terms before consume a character and the filters do not have them. -/
theorem refused_pattern_leaves_filters :
    ((addPattern yarrParse filters pattern patternIsCaseSensitive patternId).1 ≠ .ok →
        (addPattern yarrParse filters pattern patternIsCaseSensitive patternId).2 = filters) ↔
      ∀ events, Parses yarrParse pattern events →
        (parse patternIsCaseSensitive events).MisplacedAtEnd →
        (parse patternIsCaseSensitive events).sunkTerms.any matchesAtLeastOneCharacter = true →
        filters.Has patternId
          (simplifySunkTerms (parse patternIsCaseSensitive events).hasBeginningOfLineAssertion
            (parse patternIsCaseSensitive events).sunkTerms) := by
  unfold addPattern
  split
  · rename_i hascii
    refine ⟨fun _ events hparses => ?_, fun _ _ => rfl⟩
    rw [hparses.ascii] at hascii
    cases hascii
  split
  · rename_i hempty
    refine ⟨fun _ events hparses => ?_, fun _ _ => rfl⟩
    rw [hparses.nonempty] at hempty
    cases hempty
  rename_i hascii hempty
  split
  · rename_i message hparse
    refine ⟨fun _ events hparses => ?_, fun _ _ => rfl⟩
    cases hparse.symm.trans hparses.parsed
  · rename_i events hparse
    rw [finalize_unchanged_iff]
    constructor
    · intro h events' hparses
      cases hparse.symm.trans hparses.parsed
      exact h
    · intro h
      exact h events ⟨by simpa using hascii, by simpa using hempty, hparse⟩

/-- `a$b` is refused, and the filters have `a$` afterwards. -/
theorem not_refused_pattern_leaves_filters :
    ¬ ∀ (yarrParse : String → List ParserEvent × Option String) (filters : PrefixTreeVertex)
      (pattern : String) (patternIsCaseSensitive : Bool) (patternId : ℕ),
      (addPattern yarrParse filters pattern patternIsCaseSensitive patternId).1 ≠ .ok →
      (addPattern yarrParse filters pattern patternIsCaseSensitive patternId).2 = filters := by
  intro h
  have hunchanged := h (fun _ =>
    ([.atomPatternCharacter 97, .assertionEOL, .atomPatternCharacter 98], none)) .create "a$b"
    false 1 (by decide +kernel)
  have hedges := congrArg (fun filters => filters.edges.length) hunchanged
  exact absurd hedges (by decide +kernel)

end URLFilterParser

end WebKit.ContentExtensions
