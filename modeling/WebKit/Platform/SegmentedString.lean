import Mathlib.Data.List.Basic
import Mathlib.Tactic.Ring

/-!
# `SegmentedString`

The input of a tokenizer: up to two characters that have been pushed, the current substring and
the substrings after it. The functions that advance are chosen when the current substring changes
and cached in the string. A pointer into the characters of a substring is an index; counters are
integers, as signed overflow is not defined.
-/

namespace WebKit.Platform

abbrev UChar := UInt16

def newline : UChar := 10

/-- A `String` of 8-bit or 16-bit characters. -/
structure SourceString where
  characters : List UChar
  is8Bit : Bool
  deriving DecidableEq, Repr

structure SegmentedSubstring where
  data : Option ℕ
  length : ℕ
  doNotExcludeLineNumbers : Bool
  is8Bit : Bool
  string : SourceString
  deriving DecidableEq, Repr

namespace SegmentedSubstring

def empty : SegmentedSubstring := ⟨none, 0, true, false, ⟨[], true⟩⟩

def ofString (string : SourceString) : SegmentedSubstring :=
  if string.characters.length ≠ 0 then
    ⟨some 0, string.characters.length, true, string.is8Bit, string⟩
  else ⟨none, 0, true, false, string⟩

variable (substring : SegmentedSubstring)

/-- The string itself is kept. -/
def clear : SegmentedSubstring := { substring with length := 0, data := none, is8Bit := false }

def setExcludeLineNumbers : SegmentedSubstring :=
  { substring with doNotExcludeLineNumbers := false }

def numberOfCharactersConsumed : ℤ := substring.string.characters.length - substring.length

def currentSubString (length : ℕ) : List UChar :=
  (substring.string.characters.drop (substring.string.characters.length - substring.length)).take
    length

/-- What `appendTo` appends. -/
def toList : List UChar := substring.currentSubString substring.length

/-- The character at the pointer. -/
def getCurrentChar : UChar :=
  match substring.data with
  | none => 0
  | some position => substring.string.characters.getD position 0

def increment : SegmentedSubstring := { substring with data := substring.data.map (· + 1) }

end SegmentedSubstring

inductive AdvanceFunction
  | advance8
  | advance16
  | advanceAndUpdateLineNumber8
  | advanceAndUpdateLineNumber16
  | advanceSlowCase
  | advanceAndUpdateLineNumberSlowCase
  | advanceEmpty
  deriving DecidableEq, Repr

structure SegmentedString where
  pushedChar1 : UChar
  pushedChar2 : UChar
  currentString : SegmentedSubstring
  currentChar : UChar
  numberOfCharactersConsumedPriorToCurrentString : ℤ
  numberOfCharactersConsumedPriorToCurrentLine : ℤ
  currentLine : ℤ
  substrings : List SegmentedSubstring
  empty : Bool
  use8BitAdvanceAndUpdateLineNumbers : Bool
  use8BitAdvance : Bool
  advanceFunc : AdvanceFunction
  advanceAndUpdateLineNumberFunc : AdvanceFunction
  deriving DecidableEq, Repr

inductive AdvancePastResult
  | didNotMatch
  | didMatch
  | notEnoughCharacters
  deriving DecidableEq, Repr

namespace SegmentedString

variable (s : SegmentedString)

def isComposite : Bool := !s.substrings.isEmpty

/-- The character at the front of the current substring. -/
def frontChar : UChar :=
  if s.currentString.length ≠ 0 then s.currentString.getCurrentChar else 0

def updateSlowCaseFunctionPointers : SegmentedString :=
  { s with
    use8BitAdvanceAndUpdateLineNumbers := false
    use8BitAdvance := false
    advanceFunc := .advanceSlowCase
    advanceAndUpdateLineNumberFunc := .advanceAndUpdateLineNumberSlowCase }

/-- The slow functions, in the end, also for an empty string. -/
def updateAdvanceFunctionPointers : SegmentedString :=
  if 1 < s.currentString.length ∧ s.pushedChar1 = 0 then
    let doNotExcludeLineNumbers := s.currentString.doNotExcludeLineNumbers
    if s.currentString.is8Bit then
      { s with
        advanceFunc := .advance8
        use8BitAdvance := true
        use8BitAdvanceAndUpdateLineNumbers := doNotExcludeLineNumbers
        advanceAndUpdateLineNumberFunc :=
          if doNotExcludeLineNumbers then .advanceAndUpdateLineNumber8 else .advance8 }
    else
      { s with
        advanceFunc := .advance16
        use8BitAdvance := false
        use8BitAdvanceAndUpdateLineNumbers := false
        advanceAndUpdateLineNumberFunc :=
          if doNotExcludeLineNumbers then .advanceAndUpdateLineNumber16 else .advance16 }
  else s.updateSlowCaseFunctionPointers

/-- The current substring has been used up, and there is no other. -/
def becomeEmpty : SegmentedString :=
  { s with
    currentString := s.currentString.clear
    empty := true
    use8BitAdvanceAndUpdateLineNumbers := false
    use8BitAdvance := false
    advanceFunc := .advanceEmpty
    advanceAndUpdateLineNumberFunc := .advanceEmpty }

/-! ## Construction and observers -/

def create : SegmentedString where
  pushedChar1 := 0
  pushedChar2 := 0
  currentString := .empty
  currentChar := 0
  numberOfCharactersConsumedPriorToCurrentString := 0
  numberOfCharactersConsumedPriorToCurrentLine := 0
  currentLine := 0
  substrings := []
  empty := true
  use8BitAdvanceAndUpdateLineNumbers := false
  use8BitAdvance := false
  advanceFunc := .advanceEmpty
  advanceAndUpdateLineNumberFunc := .advanceEmpty

def ofString (string : SourceString) : SegmentedString :=
  let s := { create with
    currentString := .ofString string
    empty := string.characters.isEmpty }
  let s := { s with currentChar := s.frontChar }
  s.updateAdvanceFunctionPointers

/-- The copy constructor, and `operator=`. -/
def copy : SegmentedString :=
  { s with
    currentChar :=
      if s.pushedChar2 ≠ 0 then s.pushedChar2
      else if s.pushedChar1 ≠ 0 then s.pushedChar1
      else s.frontChar }

def numberOfPushedCharacters : ℕ :=
  if s.pushedChar1 ≠ 0 then if s.pushedChar2 ≠ 0 then 2 else 1 else 0

def length : ℕ :=
  s.currentString.length + s.numberOfPushedCharacters +
    (s.substrings.map SegmentedSubstring.length).sum

def numberOfCharactersConsumed : ℤ :=
  s.numberOfCharactersConsumedPriorToCurrentString + s.currentString.numberOfCharactersConsumed -
    s.numberOfPushedCharacters

def pushedCharacters : List UChar :=
  if s.pushedChar1 ≠ 0 then
    if s.pushedChar2 ≠ 0 then [s.pushedChar1, s.pushedChar2] else [s.pushedChar1]
  else []

def toList : List UChar :=
  s.pushedCharacters ++ s.currentString.toList ++ s.substrings.flatMap SegmentedSubstring.toList

def setExcludeLineNumbers : SegmentedString :=
  { s with
    currentString := s.currentString.setExcludeLineNumbers
    substrings := s.substrings.map SegmentedSubstring.setExcludeLineNumbers }

def push (c : UChar) : SegmentedString :=
  if s.pushedChar1 = 0 then
    let s := { s with
      pushedChar1 := c
      currentChar := if c ≠ 0 then c else s.currentString.getCurrentChar }
    s.updateSlowCaseFunctionPointers
  else { s with pushedChar2 := c }

def appendSubstring (substring : SegmentedSubstring) : SegmentedString :=
  if substring.length = 0 then s
  else
    let s :=
      if s.currentString.length = 0 then
        updateAdvanceFunctionPointers { s with
          numberOfCharactersConsumedPriorToCurrentString :=
            s.numberOfCharactersConsumedPriorToCurrentString +
              s.currentString.numberOfCharactersConsumed
          currentString := substring }
      else { s with substrings := s.substrings ++ [substring] }
    { s with empty := false }

def pushBackSubstring (substring : SegmentedSubstring) : SegmentedString :=
  if substring.length = 0 then s
  else
    let s := { s with
      numberOfCharactersConsumedPriorToCurrentString :=
        s.numberOfCharactersConsumedPriorToCurrentString +
          s.currentString.numberOfCharactersConsumed - substring.length }
    let s :=
      if s.currentString.length = 0 then { s with currentString := substring }
      else { s with
        substrings := s.currentString :: s.substrings
        currentString := substring }
    { s.updateAdvanceFunctionPointers with empty := false }

/-- `m_currentChar` after characters have been appended or put back. -/
def updateCurrentChar : SegmentedString :=
  { s with currentChar := if s.pushedChar1 ≠ 0 then s.pushedChar1 else s.frontChar }

def append (other : SegmentedString) : SegmentedString :=
  (other.substrings.foldl appendSubstring (s.appendSubstring other.currentString)).updateCurrentChar

def pushBack (other : SegmentedString) : SegmentedString :=
  ((other.substrings.reverse.foldl pushBackSubstring s).pushBackSubstring
    other.currentString).updateCurrentChar

/-! ## Advancing -/

def advanceSubstring : SegmentedString :=
  match s.substrings with
  | [] => s.becomeEmpty
  | substring :: substrings =>
    updateAdvanceFunctionPointers { s with
      numberOfCharactersConsumedPriorToCurrentString :=
        s.numberOfCharactersConsumedPriorToCurrentString +
          s.currentString.numberOfCharactersConsumed - substring.numberOfCharactersConsumed
      currentString := substring
      substrings := substrings }

def decrementLength : SegmentedString :=
  { s with currentString := { s.currentString with length := s.currentString.length - 1 } }

def decrementAndCheckLength : SegmentedString :=
  let s := s.decrementLength
  if s.currentString.length = 1 then s.updateSlowCaseFunctionPointers else s

/-- `m_currentChar = m_currentString.incrementAndGetCurrentChar()`. -/
def incrementAndGetCurrentChar : SegmentedString :=
  { s with
    currentString := s.currentString.increment
    currentChar := s.currentString.increment.getCurrentChar }

/-- `advance8` and `advance16`. -/
def advanceInSubstring : SegmentedString := s.decrementAndCheckLength.incrementAndGetCurrentChar

/-- A newline is about to be consumed. -/
def countNewline : SegmentedString :=
  { s with
    currentLine := s.currentLine + 1
    numberOfCharactersConsumedPriorToCurrentLine := s.numberOfCharactersConsumed + 1 }

/-- `advanceAndUpdateLineNumber8` and `advanceAndUpdateLineNumber16`. -/
def advanceAndUpdateLineNumberInSubstring : SegmentedString :=
  (if s.currentChar = newline then s.countNewline else s).advanceInSubstring

/-- Takes the first pushed character away. -/
def shiftPushed : SegmentedString := { s with pushedChar1 := s.pushedChar2, pushedChar2 := 0 }

def advanceSlowCase : SegmentedString :=
  if s.pushedChar1 ≠ 0 then
    let s := s.shiftPushed
    if s.pushedChar1 ≠ 0 then { s with currentChar := s.pushedChar1 }
    else
      let s := s.updateAdvanceFunctionPointers
      { s with currentChar := s.frontChar }
  else
    let s :=
      if s.currentString.length ≠ 0 then
        let s := s.decrementLength
        if s.currentString.length = 0 then s.advanceSubstring else s
      else if !s.isComposite then s.becomeEmpty
      else s
    { s with currentChar := s.frontChar }

def advanceAndUpdateLineNumberSlowCase : SegmentedString :=
  if s.pushedChar1 ≠ 0 then
    let s := s.shiftPushed
    if s.pushedChar1 ≠ 0 then { s with currentChar := s.pushedChar1 }
    else
      let s := s.updateAdvanceFunctionPointers
      { s with currentChar := s.frontChar }
  else
    let s :=
      if s.currentString.length ≠ 0 then
        let s :=
          if s.currentString.getCurrentChar = newline ∧
              s.currentString.doNotExcludeLineNumbers = true then s.countNewline
          else s
        let s := s.decrementLength
        if s.currentString.length = 0 then s.advanceSubstring
        else { s with currentString := s.currentString.increment }
      else if !s.isComposite then s.becomeEmpty
      else s
    { s with currentChar := s.frontChar }

def advanceEmpty : SegmentedString := { s with currentChar := 0 }

def call : AdvanceFunction → SegmentedString
  | .advance8 => s.advanceInSubstring
  | .advance16 => s.advanceInSubstring
  | .advanceAndUpdateLineNumber8 => s.advanceAndUpdateLineNumberInSubstring
  | .advanceAndUpdateLineNumber16 => s.advanceAndUpdateLineNumberInSubstring
  | .advanceSlowCase => s.advanceSlowCase
  | .advanceAndUpdateLineNumberSlowCase => s.advanceAndUpdateLineNumberSlowCase
  | .advanceEmpty => s.advanceEmpty

def advance : SegmentedString :=
  if s.use8BitAdvance then
    let haveOneCharacterLeft := s.currentString.length - 1 = 1
    let s := s.decrementLength.incrementAndGetCurrentChar
    if haveOneCharacterLeft then s.updateSlowCaseFunctionPointers else s
  else s.call s.advanceFunc

def advanceAndUpdateLineNumber : SegmentedString :=
  if s.use8BitAdvance then
    let haveNewLine := s.currentChar = newline ∧ s.use8BitAdvanceAndUpdateLineNumbers = true
    let haveOneCharacterLeft := s.currentString.length - 1 = 1
    let s := s.decrementLength.incrementAndGetCurrentChar
    let s :=
      if haveNewLine then
        { s with
          currentLine := s.currentLine + 1
          numberOfCharactersConsumedPriorToCurrentLine :=
            s.numberOfCharactersConsumedPriorToCurrentString +
              s.currentString.numberOfCharactersConsumed }
      else s
    if haveOneCharacterLeft then s.updateSlowCaseFunctionPointers else s
  else s.call s.advanceAndUpdateLineNumberFunc

def advancePastNewlineAndUpdateLineNumber : SegmentedString :=
  if s.pushedChar1 = 0 ∧ 1 < s.currentString.length then
    let s := if s.currentString.doNotExcludeLineNumbers then s.countNewline else s
    s.advanceInSubstring
  else s.advanceAndUpdateLineNumberSlowCase

/-- The characters that are consumed, and the string after them. -/
def advancePastNonNewlines : ℕ → SegmentedString → List UChar × SegmentedString
  | 0, s => ([], s)
  | count + 1, s =>
    let (consumed, t) := advancePastNonNewlines count s.advance
    (s.currentChar :: consumed, t)

section AdvancePast

variable (foldCase : UChar → UChar)

/-- Whether characters start with a literal, with letters folded unless case matters. -/
def startsWith (characters literal : List UChar) (caseSensitive : Bool) : Bool :=
  let fold := if caseSensitive then id else foldCase
  (literal.map fold).isPrefixOf (characters.map fold)

def advancePastSlowCase (literal : List UChar) (caseSensitive : Bool) :
    AdvancePastResult × SegmentedString :=
  if s.length < literal.length then (.notEnoughCharacters, s)
  else
    let (consumed, t) := advancePastNonNewlines literal.length s
    if startsWith foldCase consumed literal caseSensitive then (.didMatch, t)
    else (.didNotMatch, t.pushBack (ofString ⟨consumed, false⟩))

def advancePast (literal : List UChar) (caseSensitive : Bool) :
    AdvancePastResult × SegmentedString :=
  if s.pushedChar1 = 0 ∧ literal.length ≤ s.currentString.length then
    if startsWith foldCase (s.currentString.currentSubString literal.length) literal
        caseSensitive then
      (.didMatch, (advancePastNonNewlines literal.length s).2)
    else (.didNotMatch, s)
  else s.advancePastSlowCase foldCase literal caseSensitive

end AdvancePast

end SegmentedString

/-!
## A character queue with a position

What a `SegmentedString` stands for: the characters to come, how many have been consumed, and how
many lines have ended.
-/

/-- A character, and whether a line ends when it is consumed. -/
structure CharacterCell where
  character : UChar
  endsLine : Bool
  deriving DecidableEq, Repr

namespace CharacterCell

/-- A pushed character ends no line. -/
def pushed (character : UChar) : CharacterCell := ⟨character, false⟩

def read (countsLines : Bool) (character : UChar) : CharacterCell :=
  ⟨character, decide (character = newline) && countsLines⟩

def excludeLine (cell : CharacterCell) : CharacterCell := { cell with endsLine := false }

end CharacterCell

@[ext]
structure CharacterQueue where
  cells : List CharacterCell
  consumed : ℤ
  line : ℤ
  deriving DecidableEq, Repr

namespace CharacterQueue

variable (q r : CharacterQueue)

def empty : CharacterQueue := ⟨[], 0, 0⟩

def ofString (string : SourceString) : CharacterQueue :=
  ⟨string.characters.map (CharacterCell.read true), 0, 0⟩

def content : List UChar := q.cells.map CharacterCell.character

def excludeLines : CharacterQueue := { q with cells := q.cells.map CharacterCell.excludeLine }

def append : CharacterQueue := { q with cells := q.cells ++ r.cells }

/-- Cells are put back. -/
def putBack (cells : List CharacterCell) : CharacterQueue :=
  { q with
    cells := cells ++ q.cells
    consumed := q.consumed - cells.length }

theorem putBack_putBack (cells cells' : List CharacterCell) :
    (q.putBack cells).putBack cells' = q.putBack (cells' ++ cells) := by
  unfold putBack
  rw [List.append_assoc, List.length_append, Nat.cast_add]
  congr 1
  ring

def advance : CharacterQueue :=
  match q.cells with
  | [] => q
  | _ :: cells => { q with cells := cells, consumed := q.consumed + 1 }

def endLine : CharacterQueue :=
  { q with line := q.line + if (q.cells.head?.map CharacterCell.endsLine).getD false then 1 else 0 }

def advanceAndUpdateLineNumber : CharacterQueue := q.endLine.advance

section AdvancePast

variable (foldCase : UChar → UChar) (literal : List UChar) (caseSensitive : Bool)

def startsWith : Bool := SegmentedString.startsWith foldCase q.content literal caseSensitive

def advancePastResult : AdvancePastResult :=
  if q.startsWith foldCase literal caseSensitive then .didMatch
  else if q.content.length < literal.length then .notEnoughCharacters
  else .didNotMatch

def advancePast : CharacterQueue :=
  if q.startsWith foldCase literal caseSensitive then advance^[literal.length] q else q

end AdvancePast

end CharacterQueue

end WebKit.Platform
