import Mathlib
import WebKit.Blocks.Fill

/-!
# `StringBuilder`

The characters of a builder are in a string, in a buffer, or in both. Strings share the
characters of a `StringImpl`, and the buffer is a `StringImpl` too, whose characters can be
written as long as no string shows them. A program has any number of builders and of strings
that it was given or has made; an impl and a builder are known by their numbers.
-/

namespace WebKit.WTF

open Blocks Function

/-- A `StringImpl` with characters of its own. -/
structure StringImpl where
  is8Bit : Bool
  characters : List UInt16

/-- A `String` that is not null: a whole impl, or the substring of one. -/
structure StringRef where
  impl : ℕ
  offset : ℕ
  length : ℕ
  deriving DecidableEq

structure StringBuilder where
  length : ℕ
  string : Option StringRef
  buffer : Option ℕ
  is8Bit : Bool
  /-- The impl whose characters `m_bufferCharacters8` or `m_bufferCharacters16` points to. -/
  bufferCharacters : Option ℕ

def StringBuilder.empty : StringBuilder where
  length := 0
  string := none
  buffer := none
  is8Bit := true
  bufferCharacters := none

/-- How an operation ends that does not return. -/
inductive StringFault
  /-- `CRASH()`: the characters would not fit in memory. -/
  | crash
  /-- Characters are read at the wrong width, outside of a string or through a null pointer. -/
  | misread
  /-- Characters are written outside of a buffer. -/
  | overflow
  deriving DecidableEq

/-- All builders of a program, and the strings that it holds. -/
structure StringBuilders where
  impls : ℕ → StringImpl
  implCount : ℕ
  builders : ℕ → StringBuilder
  builderCount : ℕ
  strings : List StringRef

/-- `StringImpl::empty()`, the impl with number 0. -/
def StringRef.empty : StringRef := ⟨0, 0, 0⟩

/-- `StringImpl::createSubstringSharingImpl` for the first characters of a string. -/
def StringRef.left (string : StringRef) (length : ℕ) : StringRef :=
  if length = 0 then .empty else ⟨string.impl, string.offset, length⟩

def sizeofStringImpl : ℕ := 24

def maxStringLength (is8Bit : Bool) : ℕ :=
  (2 ^ 32 - 1 - sizeofStringImpl) / if is8Bit then 1 else 2

def expandedCapacity (capacity requiredLength : ℕ) : ℕ :=
  max requiredLength (max 16 (capacity * 2 % 2 ^ 32))

namespace StringBuilders

def initial : StringBuilders where
  impls := fun _ => ⟨true, []⟩
  implCount := 1
  builders := fun _ => .empty
  builderCount := 0
  strings := []

variable (uninitialized : ℕ → UInt16) (s : StringBuilders) (i j : ℕ)

/-! ## Strings -/

def contents (string : StringRef) : List UInt16 :=
  ((s.impls string.impl).characters.drop string.offset).take string.length

/-- `characters8()` or `characters16()` of an impl. -/
def implCharacters (is8Bit : Bool) (impl : ℕ) : Except StringFault (List UInt16) :=
  if (s.impls impl).is8Bit = is8Bit then .ok (s.impls impl).characters else .error .misread

/-- `characters8()` or `characters16()` of a string. -/
def stringCharacters (is8Bit : Bool) (string : StringRef) : Except StringFault (List UInt16) :=
  if (s.impls string.impl).is8Bit = is8Bit then .ok (s.contents string) else .error .misread

def setBuilder (builder : StringBuilder) : StringBuilders :=
  { s with builders := update s.builders i builder }

def setImpl (impl : ℕ) (value : StringImpl) : StringBuilders :=
  { s with impls := update s.impls impl value }

/-- A new impl, with the number `implCount`. -/
def addImpl (value : StringImpl) : StringBuilders :=
  { s with
    impls := update s.impls s.implCount value
    implCount := s.implCount + 1 }

/-- `hasOneRef()` of the buffer of a builder: no other builder, no substring and no string
refers to it. -/
def hasOneRef (impl : ℕ) : Bool :=
  (List.range s.builderCount).countP (fun k => (s.builders k).buffer = some impl) = 1 &&
    (List.range s.builderCount).all (fun k =>
      (s.builders k).string.all fun string => string.impl ≠ impl) &&
    s.strings.all fun string => string.impl ≠ impl

def uninitializedCharacters (offset length : ℕ) : List UInt16 :=
  (List.range' offset length).map uninitialized

/-- The new state, the new impl, and the pointer to its characters. -/
def createUninitialized (is8Bit : Bool) (length : ℕ) :
    Except StringFault (StringBuilders × ℕ × Option ℕ) :=
  if length = 0 then .ok (s, StringRef.empty.impl, none)
  else if maxStringLength is8Bit < length then .error .crash
  else
    .ok (s.addImpl ⟨is8Bit, uninitializedCharacters uninitialized 0 length⟩, s.implCount,
      some s.implCount)

/-- `StringImpl::reallocate`: the old impl is gone. -/
def reallocate (impl : ℕ) (is8Bit : Bool) (length : ℕ) :
    Except StringFault (StringBuilders × ℕ × Option ℕ) :=
  let old := (s.impls impl).characters
  let freed := s.setImpl impl ⟨is8Bit, []⟩
  if length = 0 then .ok (freed, StringRef.empty.impl, none)
  else if maxStringLength is8Bit < length then .error .crash
  else
    .ok (freed.addImpl ⟨is8Bit, old.take length ++
        uninitializedCharacters uninitialized old.length (length - old.length)⟩,
      s.implCount, some s.implCount)

/-- Writes characters of the given width behind a pointer. -/
def write (pointer : Option ℕ) (is8Bit : Bool) (offset : ℕ) (data : List UInt16) :
    Except StringFault StringBuilders :=
  if data = [] then .ok s
  else match pointer with
    | none => .error .overflow
    | some impl =>
      if (s.impls impl).is8Bit = is8Bit ∧ offset + data.length ≤ (s.impls impl).characters.length
      then .ok (s.setImpl impl ⟨is8Bit, overwrite (s.impls impl).characters offset data⟩)
      else .error .overflow

def capacity : ℕ :=
  match (s.builders i).buffer with
  | some impl => (s.impls impl).characters.length
  | none => (s.builders i).length

/-- Both `allocateBuffer`, with the characters that are read from `currentCharacters`. -/
def allocateBuffer (is8Bit : Bool) (currentCharacters : List UInt16) (requiredLength : ℕ) :
    Except StringFault StringBuilders :=
  let length := (s.builders i).length
  if currentCharacters.length < length then .error .misread
  else do
    let (s, impl, pointer) ← s.createUninitialized uninitialized is8Bit requiredLength
    let s ← s.write pointer is8Bit 0 (currentCharacters.take length)
    -- Update the builder state.
    .ok (s.setBuilder i
      { s.builders i with buffer := some impl, bufferCharacters := pointer, string := none })

def allocateBufferUpConvert (currentCharacters : List UInt16) (requiredLength : ℕ) :
    Except StringFault StringBuilders := do
  let s ← s.allocateBuffer uninitialized i false currentCharacters requiredLength
  .ok (s.setBuilder i { s.builders i with is8Bit := false })

/-- `reallocateBuffer<LChar>` and `reallocateBuffer<UChar>`. -/
def reallocateBuffer (is8Bit : Bool) (requiredLength : ℕ) : Except StringFault StringBuilders :=
  let s := s.setBuilder i { s.builders i with string := none }
  match (s.builders i).buffer with
  | none => .error .misread
  | some impl =>
    if is8Bit = false ∧ (s.impls impl).is8Bit = true then
      s.allocateBufferUpConvert uninitialized i (s.impls impl).characters requiredLength
    else do
      let characters ← s.implCharacters is8Bit impl
      if s.hasOneRef impl then
        let (s, impl, pointer) ← s.reallocate uninitialized impl is8Bit requiredLength
        .ok (s.setBuilder i
          { s.builders i with buffer := some impl, bufferCharacters := pointer })
      else s.allocateBuffer uninitialized i is8Bit characters requiredLength

def reserveCapacity (newCapacity : ℕ) : Except StringFault StringBuilders :=
  match (s.builders i).buffer with
  | some impl =>
    -- If there is already a buffer, then grow if necessary.
    if (s.impls impl).characters.length < newCapacity then
      s.reallocateBuffer uninitialized i (s.impls impl).is8Bit newCapacity
    else .ok s
  | none =>
    -- Grow the string, if necessary.
    if (s.builders i).length < newCapacity then
      if (s.builders i).length = 0 then s.allocateBuffer uninitialized i true [] newCapacity
      else match (s.builders i).string with
        | none => .error .misread
        | some string =>
          s.allocateBuffer uninitialized i (s.impls string.impl).is8Bit (s.contents string)
            newCapacity
    else .ok s

/-! ## Appending -/

/-- The characters that are copied to a new buffer when there was none. -/
def currentCharacters (is8Bit : Bool) : Except StringFault (List UInt16) :=
  if (s.builders i).length = 0 then .ok []
  else match (s.builders i).string with
    | none => .error .misread
    | some string => s.stringCharacters is8Bit string

def appendUninitializedSlow (is8Bit : Bool) (requiredLength : ℕ) :
    Except StringFault (StringBuilders × ℕ) := do
  let newCapacity := expandedCapacity (s.capacity i) requiredLength
  let s ← (match (s.builders i).buffer with
    | some _ => s.reallocateBuffer uninitialized i is8Bit newCapacity
    | none => do
      let characters ← s.currentCharacters i is8Bit
      s.allocateBuffer uninitialized i is8Bit characters newCapacity)
  .ok (s.setBuilder i { s.builders i with length := requiredLength }, (s.builders i).length)

/-- The new state, and where in the buffer the new characters are to be written. -/
def appendUninitialized (is8Bit : Bool) (length : ℕ) : Except StringFault (StringBuilders × ℕ) :=
  let requiredLength := (length + (s.builders i).length) % 2 ^ 32
  if requiredLength < length then .error .crash
  else match (s.builders i).buffer with
    | some impl =>
      if requiredLength ≤ (s.impls impl).characters.length then
        .ok (s.setBuilder i { s.builders i with string := none, length := requiredLength },
          (s.builders i).length)
      else s.appendUninitializedSlow uninitialized i is8Bit requiredLength
    | none => s.appendUninitializedSlow uninitialized i is8Bit requiredLength

/-- The characters are copied to what `appendUninitialized` returns. -/
def appendToBuffer (is8Bit : Bool) (characters : List UInt16) :
    Except StringFault StringBuilders := do
  let (s, position) ← s.appendUninitialized uninitialized i is8Bit characters.length
  s.write (s.builders i).bufferCharacters is8Bit position characters

/-- `append(const LChar*, unsigned)` -/
def append8 (characters : List UInt16) : Except StringFault StringBuilders :=
  if characters = [] then .ok s
  else s.appendToBuffer uninitialized i (s.builders i).is8Bit characters

/-- `!(c & ~0xff)` -/
def isLatin1 (c : UInt16) : Bool := c < 256

/-- `append(const UChar*, unsigned)` -/
def append16 (characters : List UInt16) : Except StringFault StringBuilders :=
  if characters = [] then .ok s
  else if (s.builders i).is8Bit = true then
    if characters.length = 1 ∧ characters.all isLatin1 then
      -- Append as 8 bit character
      s.append8 uninitialized i characters
    else do
      -- Calculate the new size of the builder after appending.
      let length := (s.builders i).length
      let requiredLength := (characters.length + length) % 2 ^ 32
      if requiredLength < characters.length then .error .crash
      else
        let newCapacity := expandedCapacity (s.capacity i) requiredLength
        let current ← (match (s.builders i).buffer with
          | some impl => s.implCharacters true impl
          | none => match (s.builders i).string with
            | none => .ok []
            | some string => s.stringCharacters true string)
        let s ← s.allocateBufferUpConvert uninitialized i current newCapacity
        let s ← s.write (s.builders i).bufferCharacters false length characters
        .ok (s.setBuilder i { s.builders i with length := requiredLength })
  else s.appendToBuffer uninitialized i false characters

/-- There is room in the buffer for one more character. -/
def hasRoom : Bool :=
  match (s.builders i).buffer, (s.builders i).string with
  | some impl, none => (s.builders i).length < (s.impls impl).characters.length
  | _, _ => false

def appendInPlace (is8Bit : Bool) (c : UInt16) : Except StringFault StringBuilders := do
  let length := (s.builders i).length
  let s ← s.write (s.builders i).bufferCharacters is8Bit length [c]
  .ok (s.setBuilder i { s.builders i with length := length + 1 })

def appendUChar (c : UInt16) : Except StringFault StringBuilders :=
  if s.hasRoom i = true ∧ ((s.builders i).is8Bit = false ∨ isLatin1 c = true) then
    s.appendInPlace i (s.builders i).is8Bit c
  else s.append16 uninitialized i [c]

def appendLChar (c : UInt16) : Except StringFault StringBuilders :=
  if s.hasRoom i = true then s.appendInPlace i (s.builders i).is8Bit c
  else s.append8 uninitialized i [c]

/-- The overload for the width of the characters. -/
def appendCharacters (is8Bit : Bool) (characters : List UInt16) :
    Except StringFault StringBuilders :=
  if is8Bit then s.append8 uninitialized i characters else s.append16 uninitialized i characters

def appendString (string : StringRef) : Except StringFault StringBuilders :=
  if string.length = 0 then .ok s
  else if (s.builders i).length = 0 ∧ (s.builders i).buffer = none then
    -- If we're appending to an empty string, and there is not a buffer, just retain the string.
    .ok (s.setBuilder i
      { s.builders i with
        string := some string
        length := string.length
        is8Bit := (s.impls string.impl).is8Bit })
  else s.appendCharacters uninitialized i (s.impls string.impl).is8Bit (s.contents string)

/-- `characters8()` or `characters16()` of a builder, with as many characters as there are
behind the pointer. -/
def characters (is8Bit : Bool) : Except StringFault (List UInt16) :=
  if (s.builders i).length = 0 then .ok []
  else match (s.builders i).string with
    | some string => s.stringCharacters is8Bit string
    | none => match (s.builders i).buffer with
      | none => .error .misread
      | some impl => s.implCharacters is8Bit impl

/-- `length` characters from a pointer on. -/
def readCharacters (characters : List UInt16) (offset length : ℕ) :
    Except StringFault (List UInt16) :=
  if offset + length ≤ characters.length then .ok ((characters.drop offset).take length)
  else .error .misread

def appendBuilder : Except StringFault StringBuilders :=
  let other := s.builders j
  if other.length = 0 then .ok s
  else match other.string with
    | some string =>
      if (s.builders i).length = 0 ∧ (s.builders i).buffer = none then
        .ok (s.setBuilder i { s.builders i with string := some string, length := other.length })
      else do
        let characters ← s.characters j other.is8Bit
        let characters ← readCharacters characters 0 other.length
        s.appendCharacters uninitialized i other.is8Bit characters
    | none => do
      let characters ← s.characters j other.is8Bit
      let characters ← readCharacters characters 0 other.length
      s.appendCharacters uninitialized i other.is8Bit characters

def appendSubstring (string : StringRef) (offset length : ℕ) :
    Except StringFault StringBuilders :=
  if string.length = 0 then .ok s
  else if string.length < (offset + length) % 2 ^ 32 then .ok s
  else do
    let characters ← readCharacters (s.contents string) offset length
    s.appendCharacters uninitialized i (s.impls string.impl).is8Bit characters

/-! ## The other operations -/

/-- `operator[]` -/
def characterAt (k : ℕ) : Except StringFault UInt16 := do
  let characters ← s.characters i (s.builders i).is8Bit
  match characters[k]? with
  | some c => .ok c
  | none => .error .misread

def resize (newSize : ℕ) : Except StringFault StringBuilders :=
  if newSize = (s.builders i).length then .ok s
  else match (s.builders i).buffer with
    | some impl => do
      -- Clear the string to remove the reference to the buffer before its count is checked.
      let s := s.setBuilder i { s.builders i with string := none }
      let s ← (if s.hasOneRef impl then .ok s
        else
          s.allocateBuffer uninitialized i (s.impls impl).is8Bit (s.impls impl).characters
            (s.impls impl).characters.length)
      .ok (s.setBuilder i { s.builders i with length := newSize })
    | none => match (s.builders i).string with
      | none => .error .misread
      | some string =>
        .ok (s.setBuilder i
          { s.builders i with length := newSize, string := some (string.left newSize) })

def canShrink : Bool :=
  match (s.builders i).buffer with
  | some impl =>
    (s.builders i).length + (s.builders i).length / 4 < (s.impls impl).characters.length
  | none => false

def shrinkToFit : Except StringFault StringBuilders :=
  if s.canShrink i then do
    let s ← s.reallocateBuffer uninitialized i (s.builders i).is8Bit (s.builders i).length
    match (s.builders i).buffer with
    | none => .error .misread
    | some impl =>
      .ok (s.setBuilder i
        { s.builders i with
          string := some ⟨impl, 0, (s.impls impl).characters.length⟩, buffer := none })
  else .ok s

def reifyString : Except StringFault StringBuilders :=
  match (s.builders i).string with
  | some _ => .ok s
  | none =>
    -- Check for empty.
    if (s.builders i).length = 0 then
      .ok (s.setBuilder i { s.builders i with string := some .empty })
    else match (s.builders i).buffer with
      | none => .error .misread
      | some impl =>
        -- Must be valid in the buffer, take a substring (unless string fills the buffer).
        .ok (s.setBuilder i
          { s.builders i with string := some ⟨impl, 0, (s.builders i).length⟩ })

/-- The string of the builder is handed out. -/
def handOut : Except StringFault StringBuilders :=
  match (s.builders i).string with
  | none => .error .misread
  | some string => .ok { s with strings := s.strings ++ [string] }

def toStringPreserveCapacity : Except StringFault StringBuilders := do
  let s ← s.reifyString i
  s.handOut i

def toString : Except StringFault StringBuilders := do
  let s ← s.shrinkToFit uninitialized i
  s.toStringPreserveCapacity i

def clear : StringBuilders := s.setBuilder i .empty

def swap : StringBuilders :=
  (s.setBuilder i (s.builders j)).setBuilder j (s.builders i)

end StringBuilders

inductive StringBuilderOperation
  | create
  /-- The program makes a string of its own. -/
  | newString (is8Bit : Bool) (characters : List UInt16)
  /-- The program drops the string at an index of `strings`. -/
  | release (k : ℕ)
  | append8 (i : ℕ) (characters : List UInt16)
  | append16 (i : ℕ) (characters : List UInt16)
  | appendLChar (i : ℕ) (c : UInt16)
  | appendUChar (i : ℕ) (c : UInt16)
  | appendString (i k : ℕ)
  | appendSubstring (i k offset length : ℕ)
  | appendBuilder (i j : ℕ)
  | resize (i newSize : ℕ)
  | reserveCapacity (i newCapacity : ℕ)
  | shrinkToFit (i : ℕ)
  | toString (i : ℕ)
  | toStringPreserveCapacity (i : ℕ)
  | clear (i : ℕ)
  | swap (i j : ℕ)

/-- A string that the program does not hold is a null string. -/
def StringBuilders.perform (uninitialized : ℕ → UInt16) (s : StringBuilders) :
    StringBuilderOperation → Except StringFault StringBuilders
  | .create => .ok
    { s with
      builders := update s.builders s.builderCount .empty
      builderCount := s.builderCount + 1 }
  | .newString is8Bit characters => .ok
    { s.addImpl ⟨is8Bit, characters⟩ with
      strings := s.strings ++ [⟨s.implCount, 0, characters.length⟩] }
  | .release k => .ok { s with strings := s.strings.eraseIdx k }
  | .append8 i characters => s.append8 uninitialized i characters
  | .append16 i characters => s.append16 uninitialized i characters
  | .appendLChar i c => s.appendLChar uninitialized i c
  | .appendUChar i c => s.appendUChar uninitialized i c
  | .appendString i k =>
    match s.strings[k]? with
    | none => .ok s
    | some string => s.appendString uninitialized i string
  | .appendSubstring i k offset length =>
    match s.strings[k]? with
    | none => .ok s
    | some string => s.appendSubstring uninitialized i string offset length
  | .appendBuilder i j => s.appendBuilder uninitialized i j
  | .resize i newSize => s.resize uninitialized i newSize
  | .reserveCapacity i newCapacity => s.reserveCapacity uninitialized i newCapacity
  | .shrinkToFit i => s.shrinkToFit uninitialized i
  | .toString i => s.toString uninitialized i
  | .toStringPreserveCapacity i => s.toStringPreserveCapacity i
  | .clear i => .ok (s.clear i)
  | .swap i j => .ok (s.swap i j)

end WebKit.WTF
