import WebKit.WTF.Memory

/-!
# `BitVector`

Bits in one word, with its highest bit as a marker, or in words out of line, for pointers of
64 bits. `size_t` and `unsigned` wrap around where the code computes with them.
-/

namespace WebKit.WTF

/-- `uintptr_t`. -/
abbrev Word := BitVec 64

def bitsInPointer : ℕ := 64

def maxInlineBits : ℕ := bitsInPointer - 1

/-- The value of an `unsigned`. -/
def unsigned (n : ℕ) : ℕ := n % 2 ^ 32

/-- `static_cast<uintptr_t>(1) << n`. -/
def bitMask (n : ℕ) : Word := 1#64 <<< n

def makeInlineBits (bits : Word) : Word := bits ||| bitMask maxInlineBits

def cleanseInlineBits (bits : Word) : Word := bits &&& ~~~bitMask maxInlineBits

/-- `bitCount(unsigned)`. -/
def bitCount32 (bits : BitVec 32) : ℕ :=
  let bits := bits - ((bits >>> 1) &&& 0x55555555#32)
  let bits := (bits &&& 0x33333333#32) + ((bits >>> 2) &&& 0x33333333#32)
  ((((bits + (bits >>> 4)) &&& 0xF0F0F0F#32) * 0x1010101#32) >>> 24).toNat

/-- `bitCount(uint64_t)`. -/
def bitCount64 (bits : Word) : ℕ :=
  bitCount32 (bits.setWidth 32) + bitCount32 ((bits >>> 32).setWidth 32)

/-- `intHash(uint64_t)`. -/
def intHash (key : Word) : BitVec 32 :=
  let key := key + ~~~(key <<< 32)
  let key := key ^^^ (key >>> 22)
  let key := key + ~~~(key <<< 13)
  let key := key ^^^ (key >>> 8)
  let key := key + (key <<< 3)
  let key := key ^^^ (key >>> 15)
  let key := key + ~~~(key <<< 27)
  let key := key ^^^ (key >>> 31)
  key.setWidth 32

/-- The loop of `findBitInWord`: whether it found the value, and the index it stopped at. -/
def findBitInWordLoop (word : Word) (index endIndex : ℕ) (value : Bool) : Bool × ℕ :=
  if index < endIndex then
    if (word &&& 1#64) = (if value then 1#64 else 0#64) then (true, index)
    else findBitInWordLoop (word >>> 1) (index + 1) endIndex value
  else (false, endIndex)
termination_by endIndex - index

def findBitInWord (word : Word) (index endIndex : ℕ) (value : Bool) : Bool × ℕ :=
  findBitInWordLoop (word >>> index) index endIndex value

/-- `m_bitsOrPointer`: bits with the marker, or a pointer to words, whose number is `m_numBits`
over the bits of a word. The values that hash tables use for empty and deleted slots are not
bit vectors. -/
inductive BitVector where
  | inline (bitsOrPointer : Word)
  | outOfLine (words : List Word)
  deriving DecidableEq

namespace BitVector

def create : BitVector := .inline (makeInlineBits 0)

def isInline : BitVector → Bool
  | .inline _ => true
  | .outOfLine _ => false

def size : BitVector → ℕ
  | .inline _ => maxInlineBits
  | .outOfLine words => bitsInPointer * words.length

/-- What `bits()` points to. -/
def bits : BitVector → List Word
  | .inline bitsOrPointer => [bitsOrPointer]
  | .outOfLine words => words

def setBitsTo (words : List Word) : BitVector → BitVector
  | .inline bitsOrPointer => .inline (words.headD bitsOrPointer)
  | .outOfLine _ => .outOfLine words

/-- The number of words of `OutOfLineBits::create`, where the size is rounded up in a
`size_t`. -/
def outOfLineWords (numBits : ℕ) : ℕ :=
  (numBits + bitsInPointer - 1) % 2 ^ 64 / bitsInPointer

def resizeOutOfLine (vector : BitVector) (numBits : ℕ) : Except Failure BitVector :=
  let newNumWords := outOfLineWords numBits
  match vector with
  | .inline bitsOrPointer =>
    if newNumWords = 0 then throw .badAccess
    else pure (.outOfLine (cleanseInlineBits bitsOrPointer :: List.replicate (newNumWords - 1) 0))
  | .outOfLine words =>
    if bitsInPointer * words.length < numBits then
      if newNumWords < words.length then throw .badAccess
      else pure (.outOfLine (words ++ List.replicate (newNumWords - words.length) 0))
    else pure (.outOfLine (words.take newNumWords))

def ensureSize (vector : BitVector) (numBits : ℕ) : Except Failure BitVector :=
  if numBits ≤ vector.size then pure vector else vector.resizeOutOfLine numBits

def quickGet (vector : BitVector) (bit : ℕ) : Except Failure Bool := do
  let word ← load vector.bits (bit / bitsInPointer)
  pure ((word &&& bitMask (bit &&& (bitsInPointer - 1))) != 0)

def quickSet (vector : BitVector) (bit : ℕ) : Except Failure (BitVector × Bool) := do
  let word ← load vector.bits (bit / bitsInPointer)
  let mask := bitMask (bit &&& (bitsInPointer - 1))
  let words ← store vector.bits (bit / bitsInPointer) (word ||| mask)
  pure (vector.setBitsTo words, (word &&& mask) != 0)

def quickClear (vector : BitVector) (bit : ℕ) : Except Failure (BitVector × Bool) := do
  let word ← load vector.bits (bit / bitsInPointer)
  let mask := bitMask (bit &&& (bitsInPointer - 1))
  let words ← store vector.bits (bit / bitsInPointer) (word &&& ~~~mask)
  pure (vector.setBitsTo words, (word &&& mask) != 0)

def get (vector : BitVector) (bit : ℕ) : Except Failure Bool :=
  if vector.size ≤ bit then pure false else vector.quickGet bit

def set (vector : BitVector) (bit : ℕ) : Except Failure (BitVector × Bool) := do
  let vector ← vector.ensureSize ((bit + 1) % 2 ^ 64)
  vector.quickSet bit

def clear (vector : BitVector) (bit : ℕ) : Except Failure (BitVector × Bool) :=
  if vector.size ≤ bit then pure (vector, false) else vector.quickClear bit

def clearAll : BitVector → BitVector
  | .inline _ => .inline (makeInlineBits 0)
  | .outOfLine words => .outOfLine (List.replicate words.length 0)

/-- `operator=`. `byteCount` of a size out of line is the size of all its words. -/
def assign (other : BitVector) : BitVector :=
  match other with
  | .inline bitsOrPointer => .inline bitsOrPointer
  | .outOfLine words => .outOfLine (words.take (outOfLineWords (bitsInPointer * words.length)))

/-- `for (unsigned i = ...; i--;) a[i] = combine(a[i], b[i]);` -/
def combineWords (combine : Word → Word → Word) (a b : List Word) : ℕ → Except Failure (List Word)
  | 0 => pure a
  | i + 1 => do
    let mine ← load a i
    let others ← load b i
    let a ← store a i (combine mine others)
    combineWords combine a b i

/-- `for (unsigned i = ...; i < numWords; ++i) a[i] = 0;` for `fuel` iterations at most. -/
def clearWords (a : List Word) (i : ℕ) : ℕ → Except Failure (List Word)
  | 0 => throw .diverges
  | fuel + 1 =>
    if i < a.length then do
      let a ← store a i 0
      clearWords a (unsigned (i + 1)) fuel
    else pure a

/-- `*bits()` combined with a word. -/
def combineFirst (combine : Word → Word → Word) (words : List Word) (word : Word) :
    Except Failure (List Word) := do
  let first ← load words 0
  store words 0 (combine first word)

def mergeSlow (vector other : BitVector) : Except Failure BitVector :=
  match other with
  | .inline bitsOrPointer => do
    let words ← combineFirst (· ||| ·) vector.bits (cleanseInlineBits bitsOrPointer)
    pure (vector.setBitsTo words)
  | .outOfLine b => do
    let vector ← vector.ensureSize other.size
    let words ← combineWords (· ||| ·) vector.bits b (unsigned vector.bits.length)
    pure (vector.setBitsTo words)

def merge (vector other : BitVector) : Except Failure BitVector :=
  match vector, other with
  | .inline mine, .inline others => pure (.inline (mine ||| others))
  | _, _ => vector.mergeSlow other

def filterSlow (vector other : BitVector) : Except Failure BitVector :=
  match vector, other with
  | _, .inline bitsOrPointer => do
    let words ← combineFirst (· &&& ·) vector.bits (cleanseInlineBits bitsOrPointer)
    pure (vector.setBitsTo words)
  | .inline bitsOrPointer, .outOfLine b => do
    let first ← load b 0
    pure (.inline ((bitsOrPointer &&& first) ||| bitMask maxInlineBits))
  | .outOfLine a, .outOfLine b => do
    let words ← combineWords (· &&& ·) a b (unsigned (min a.length b.length))
    let words ← clearWords words (unsigned b.length) (a.length + 1)
    pure (.outOfLine words)

def filter (vector other : BitVector) : Except Failure BitVector :=
  match vector, other with
  | .inline mine, .inline others => pure (.inline (mine &&& others))
  | _, _ => vector.filterSlow other

def excludeSlow (vector other : BitVector) : Except Failure BitVector :=
  match vector, other with
  | _, .inline bitsOrPointer => do
    let words ← combineFirst (· &&& ~~~·) vector.bits (cleanseInlineBits bitsOrPointer)
    pure (vector.setBitsTo words)
  | .inline bitsOrPointer, .outOfLine b => do
    let first ← load b 0
    pure (.inline ((bitsOrPointer &&& ~~~first) ||| bitMask maxInlineBits))
  | .outOfLine a, .outOfLine b => do
    let words ← combineWords (· &&& ~~~·) a b (unsigned (min a.length b.length))
    pure (.outOfLine words)

def exclude (vector other : BitVector) : Except Failure BitVector :=
  match vector, other with
  | .inline mine, .inline others =>
    pure (.inline ((mine &&& ~~~others) ||| bitMask maxInlineBits))
  | _, _ => vector.excludeSlow other

/-- `for (unsigned i = ...; i--;) result = combine(result, words[i]);` -/
def foldWords {α : Type} (combine : α → Word → α) (words : List Word) (result : α) :
    ℕ → Except Failure α
  | 0 => pure result
  | i + 1 => do
    let word ← load words i
    foldWords combine words (combine result word) i

def bitCount : BitVector → Except Failure ℕ
  | .inline bitsOrPointer => pure (bitCount64 (cleanseInlineBits bitsOrPointer))
  | .outOfLine words =>
    foldWords (fun result word => result + bitCount64 word) words 0 (unsigned words.length)

/-- `hashSlowCase`, or the bits of a vector inline. -/
def hashValue : BitVector → Except Failure Word
  | .inline bitsOrPointer => pure (cleanseInlineBits bitsOrPointer)
  | .outOfLine words => foldWords (· ^^^ ·) words 0 (unsigned words.length)

def hash (vector : BitVector) : Except Failure (BitVec 32) := do
  let value ← vector.hashValue
  pure (intHash value)

/-- The loop of `equalsSlowCaseSimple`. -/
def equalBits (vector other : BitVector) : ℕ → Except Failure Bool
  | 0 => pure true
  | i + 1 => do
    let mine ← vector.get i
    let others ← other.get i
    if mine != others then pure false else equalBits vector other i

def equalsSlowCaseSimple (vector other : BitVector) : Except Failure Bool :=
  equalBits vector other (unsigned (max vector.size other.size))

/-- The loop of `equalsSlowCaseFast` over the words that only the longer vector has. -/
def zeroWords (words : List Word) (i maxNumWords : ℕ) : Except Failure Bool :=
  if i < maxNumWords then do
    let word ← load words i
    if word != 0 then pure false else zeroWords words (i + 1) maxNumWords
  else pure true
termination_by maxNumWords - i

/-- The loop of `equalsSlowCaseFast` over the words that both vectors have. -/
def equalWords (a b : List Word) : ℕ → Except Failure Bool
  | 0 => pure true
  | i + 1 => do
    let mine ← load a i
    let others ← load b i
    if mine != others then pure false else equalWords a b i

def equalsSlowCaseFast (vector other : BitVector) : Except Failure Bool :=
  match vector, other with
  | .outOfLine a, .outOfLine b => do
    let longer := if a.length < b.length then b else a
    if ← zeroWords longer (min a.length b.length) (max a.length b.length) then
      equalWords a b (min a.length b.length)
    else pure false
  | _, _ => vector.equalsSlowCaseSimple other

/-- `operator==`. -/
def equals (vector other : BitVector) : Except Failure Bool :=
  match vector, other with
  | .inline mine, .inline others => pure (mine == others)
  | _, _ => vector.equalsSlowCaseFast other

/-- The loop of `findBitFast` over the words from an index on. -/
def findBitInWords (words : List Word) (wordIndex startIndexInWord : ℕ) (value : Bool) :
    Except Failure ℕ :=
  if wordIndex < words.length then do
    let word ← load words wordIndex
    let found := findBitInWord word startIndexInWord bitsInPointer value
    let skipValue : Word := if value then 0 else BitVec.allOnes 64
    if word ≠ skipValue ∧ found.1 = true then pure (wordIndex * bitsInPointer + found.2)
    else findBitInWords words (wordIndex + 1) 0 value
  else pure (bitsInPointer * words.length)
termination_by words.length - wordIndex

def findBitFast (vector : BitVector) (startIndex : ℕ) (value : Bool) : Except Failure ℕ :=
  match vector with
  | .inline bitsOrPointer =>
    pure (findBitInWord bitsOrPointer startIndex maxInlineBits value).2
  | .outOfLine words =>
    let wordIndex := startIndex / bitsInPointer
    findBitInWords words wordIndex (startIndex - wordIndex * bitsInPointer) value

def findBitSimple (vector : BitVector) (index : ℕ) (value : Bool) : Except Failure ℕ :=
  if index < vector.size then do
    let bit ← vector.get index
    if bit = value then pure index else vector.findBitSimple (index + 1) value
  else pure vector.size
termination_by vector.size - index

def findBit (vector : BitVector) (index : ℕ) (value : Bool) : Except Failure ℕ :=
  vector.findBitFast index value

/-- The iteration over `setBits()` from an index on, for `fuel` steps at most. -/
def setBitsFrom (vector : BitVector) (index : ℕ) : ℕ → Except Failure (List ℕ)
  | 0 => throw .diverges
  | fuel + 1 =>
    if index = vector.size then pure []
    else do
      let next ← vector.findBit (index + 1) true
      let rest ← vector.setBitsFrom next fuel
      pure (index :: rest)

def setBits (vector : BitVector) : Except Failure (List ℕ) := do
  let first ← vector.findBit 0 true
  vector.setBitsFrom first (vector.size + 1)

end BitVector

end WebKit.WTF
