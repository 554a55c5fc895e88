import WebKit.WTF.Memory

/-!
# Base64

The encoder writes to a vector whose size is computed beforehand, and the decoder collects the
values of the characters in a vector and converts them to bytes in place. A vector checks its
indices, and what `grow` adds to it is not initialized. Indices and sizes are `unsigned`; where a
result depends on the width, the reduction modulo `2 ^ 32` is written out. The characters of a line
are counted by an `int`, which is taken to wrap around.
-/

namespace WebKit.WTF.Base64

inductive EncodePolicy
  | doNotInsertLFs
  | insertLFs
  /-- No padding, no LFs. -/
  | urlPolicy
  deriving DecidableEq

inductive DecodePolicy
  | failOnInvalidCharacterOrExcessPadding
  | failOnInvalidCharacter
  | ignoreWhitespace
  | ignoreInvalidCharacters
  deriving DecidableEq

def nonAlphabet : UInt8 := 0xFF

def base64EncMap : List UInt8 :=
  [0x41, 0x42, 0x43, 0x44, 0x45, 0x46, 0x47, 0x48, 0x49, 0x4A, 0x4B, 0x4C, 0x4D, 0x4E, 0x4F, 0x50,
    0x51, 0x52, 0x53, 0x54, 0x55, 0x56, 0x57, 0x58,
    0x59, 0x5A, 0x61, 0x62, 0x63, 0x64, 0x65, 0x66,
    0x67, 0x68, 0x69, 0x6A, 0x6B, 0x6C, 0x6D, 0x6E,
    0x6F, 0x70, 0x71, 0x72, 0x73, 0x74, 0x75, 0x76,
    0x77, 0x78, 0x79, 0x7A, 0x30, 0x31, 0x32, 0x33,
    0x34, 0x35, 0x36, 0x37, 0x38, 0x39, 0x2B, 0x2F]

def base64DecMap : List UInt8 :=
  List.replicate 43 nonAlphabet ++
  [0x3E, nonAlphabet, nonAlphabet, nonAlphabet, 0x3F,
    0x34, 0x35, 0x36, 0x37, 0x38, 0x39, 0x3A, 0x3B,
    0x3C, 0x3D, nonAlphabet, nonAlphabet, nonAlphabet, nonAlphabet, nonAlphabet, nonAlphabet,
    nonAlphabet, 0x00, 0x01, 0x02, 0x03, 0x04, 0x05, 0x06,
    0x07, 0x08, 0x09, 0x0A, 0x0B, 0x0C, 0x0D, 0x0E,
    0x0F, 0x10, 0x11, 0x12, 0x13, 0x14, 0x15, 0x16,
    0x17, 0x18, 0x19, nonAlphabet, nonAlphabet, nonAlphabet, nonAlphabet, nonAlphabet,
    nonAlphabet, 0x1A, 0x1B, 0x1C, 0x1D, 0x1E, 0x1F, 0x20,
    0x21, 0x22, 0x23, 0x24, 0x25, 0x26, 0x27, 0x28,
    0x29, 0x2A, 0x2B, 0x2C, 0x2D, 0x2E, 0x2F, 0x30,
    0x31, 0x32, 0x33, nonAlphabet, nonAlphabet, nonAlphabet, nonAlphabet, nonAlphabet]

def base64URLEncMap : List UInt8 :=
  [0x41, 0x42, 0x43, 0x44, 0x45, 0x46, 0x47, 0x48, 0x49, 0x4A, 0x4B, 0x4C, 0x4D, 0x4E, 0x4F, 0x50,
    0x51, 0x52, 0x53, 0x54, 0x55, 0x56, 0x57, 0x58,
    0x59, 0x5A, 0x61, 0x62, 0x63, 0x64, 0x65, 0x66,
    0x67, 0x68, 0x69, 0x6A, 0x6B, 0x6C, 0x6D, 0x6E,
    0x6F, 0x70, 0x71, 0x72, 0x73, 0x74, 0x75, 0x76,
    0x77, 0x78, 0x79, 0x7A, 0x30, 0x31, 0x32, 0x33,
    0x34, 0x35, 0x36, 0x37, 0x38, 0x39, 0x2D, 0x5F]

def base64URLDecMap : List UInt8 :=
  List.replicate 45 nonAlphabet ++
  [0x3E, nonAlphabet, nonAlphabet, 0x34, 0x35, 0x36, 0x37, 0x38, 0x39, 0x3A, 0x3B,
    0x3C, 0x3D, nonAlphabet, nonAlphabet, nonAlphabet, nonAlphabet, nonAlphabet, nonAlphabet,
    nonAlphabet, 0x00, 0x01, 0x02, 0x03, 0x04, 0x05, 0x06,
    0x07, 0x08, 0x09, 0x0A, 0x0B, 0x0C, 0x0D, 0x0E,
    0x0F, 0x10, 0x11, 0x12, 0x13, 0x14, 0x15, 0x16,
    0x17, 0x18, 0x19, nonAlphabet, nonAlphabet, nonAlphabet, nonAlphabet, 0x3F,
    nonAlphabet, 0x1A, 0x1B, 0x1C, 0x1D, 0x1E, 0x1F, 0x20,
    0x21, 0x22, 0x23, 0x24, 0x25, 0x26, 0x27, 0x28,
    0x29, 0x2A, 0x2B, 0x2C, 0x2D, 0x2E, 0x2F, 0x30,
    0x31, 0x32, 0x33, nonAlphabet, nonAlphabet, nonAlphabet, nonAlphabet, nonAlphabet]

/-- What `grow` makes of a vector that was cleared. -/
def grow (uninitialized : ℕ → UInt8) (size : ℕ) : List UInt8 :=
  (List.range size).map uninitialized

/-- `out` and `didx`. -/
structure Output where
  out : List UInt8
  didx : ℕ

/-- `out[didx++] = c`. -/
def Output.push (s : Output) (c : UInt8) : Except Failure Output := do
  let out ← store s.out s.didx c
  pure ⟨out, s.didx + 1⟩

def lineFeed : UInt8 := 0x0A

def equalsSign : UInt8 := 0x3D

/-- `count && !(count % 76)`. -/
def endsLine (count : Int32) : Bool := count ≠ 0 && count % 76 = 0

section Encoder

variable (encodeMap data : List UInt8)

/-- `encodeMap[i]`. -/
def encodeCharacter (i : UInt8) : UInt8 := encodeMap.getD i.toNat nonAlphabet

def firstSextet (a : UInt8) : UInt8 := (a >>> 2) &&& 0o77

def secondSextet (a b : UInt8) : UInt8 := ((b >>> 4) &&& (0o17 : UInt8)) ||| ((a <<< 4) &&& 0o77)

def thirdSextet (b c : UInt8) : UInt8 := ((c >>> 6) &&& (0o3 : UInt8)) ||| ((b <<< 2) &&& 0o77)

def fourthSextet (c : UInt8) : UInt8 := c &&& 0o77

/-- Three bytes are written as four characters. -/
def encodeGroup (sidx : ℕ) (s : Output) : Except Failure Output := do
  let a ← load data sidx
  let b ← load data (sidx + 1)
  let c ← load data (sidx + 2)
  let s ← s.push (encodeCharacter encodeMap (firstSextet a))
  let s ← s.push (encodeCharacter encodeMap (secondSextet a b))
  let s ← s.push (encodeCharacter encodeMap (thirdSextet b c))
  s.push (encodeCharacter encodeMap (fourthSextet c))

/-- 3-byte to 4-byte conversion + 0-63 to ascii printable conversion. -/
def encodeGroups (len : ℕ) (insertLFs : Bool) (sidx : ℕ) (count : Int32) (s : Output) :
    Except Failure (ℕ × Int32 × Output) :=
  if sidx < len - 2 then do
    let s ← (if insertLFs && endsLine count then s.push lineFeed else pure s)
    let s ← encodeGroup encodeMap data sidx s
    encodeGroups len insertLFs (sidx + 3) (if insertLFs then count + 4 else count) s
  else pure (sidx, count, s)
termination_by len - sidx

/-- The one or two bytes that are left. -/
def encodeRest (len : ℕ) (insertLFs : Bool) (sidx : ℕ) (count : Int32) (s : Output) :
    Except Failure Output := do
  let s ← (if insertLFs && (0 < count && count % 76 = 0) then s.push lineFeed else pure s)
  let a ← load data sidx
  let s ← s.push (encodeCharacter encodeMap (firstSextet a))
  if sidx < len - 1 then
    let b ← load data (sidx + 1)
    let s ← s.push (encodeCharacter encodeMap (secondSextet a b))
    s.push (encodeCharacter encodeMap ((b <<< 2) &&& 0o77))
  else
    s.push (encodeCharacter encodeMap ((a <<< 4) &&& 0o77))

/-- Add padding. -/
def addPadding (s : Output) : Output :=
  if s.didx < s.out.length then addPadding ⟨s.out.set s.didx equalsSign, s.didx + 1⟩ else s
termination_by s.out.length - s.didx
decreasing_by
  rw [List.length_set]
  omega

def maxInputBufferSize : ℕ := (2 ^ 32 - 1) / 77 * 76 / 4 * 3 - 2

variable (uninitialized : ℕ → UInt8) (policy : EncodePolicy)

def base64EncodeInternal : Except Failure (List UInt8) :=
  let len := data.length
  if len = 0 then pure []
  -- If the input string is pathologically large, just return nothing.
  else if maxInputBufferSize < len then pure []
  else do
    let outLength := (len + 2) / 3 * 4
    -- Deal with the 76 character per line limit specified in RFC 2045.
    let insertLFs := policy = .insertLFs && 76 < outLength
    let outLength := if insertLFs then outLength + (outLength - 1) / 76 else outLength
    let s : Output := ⟨grow uninitialized outLength, 0⟩
    let (sidx, count, s) ←
      (if 1 < len then encodeGroups encodeMap data len insertLFs 0 0 s else pure (0, 0, s))
    let s ← (if sidx < len then encodeRest encodeMap data len insertLFs sidx count s else pure s)
    pure (if policy = .urlPolicy then s.out.take s.didx else (addPadding s).out)

end Encoder

section

variable (uninitialized : ℕ → UInt8) (data : List UInt8)

def base64Encode (policy : EncodePolicy) : Except Failure (List UInt8) :=
  base64EncodeInternal base64EncMap data uninitialized policy

def base64URLEncode : Except Failure (List UInt8) :=
  base64EncodeInternal base64URLEncMap data uninitialized .urlPolicy

end

/-- What the loop over the characters works on. -/
structure Digits where
  out : List UInt8
  equalsSignCount : ℕ
  outLength : ℕ

section Decoder

-- `u_charDirection(c) == U_WHITE_SPACE_NEUTRAL`
variable (isWhiteSpaceNeutral : UInt16 → Bool)

def isASCIISpace (c : UInt16) : Bool := c ≤ 0x20 && (c = 0x20 || (c ≤ 0xD && 0x9 ≤ c))

def isSpaceOrNewline (c : UInt16) : Bool :=
  if c ≤ 0x7F then isASCIISpace c else isWhiteSpaceNeutral c

variable (policy : DecodePolicy) (decodeMap : List UInt8)

/-- `ch < WTF_ARRAY_LENGTH(decodeMap) ? decodeMap[ch] : nonAlphabet`. -/
def decodeCharacter (ch : UInt16) : UInt8 :=
  if ch.toNat < decodeMap.length then decodeMap.getD ch.toNat nonAlphabet else nonAlphabet

/-- Whether the policy rejects a character outside of the alphabet. -/
def rejects (ch : UInt16) : Bool :=
  policy = .failOnInvalidCharacterOrExcessPadding || policy = .failOnInvalidCharacter ||
    (policy = .ignoreWhitespace && !isSpaceOrNewline isWhiteSpaceNeutral ch)

/-- One character; `none` is the return of false. -/
def scanCharacter (length : ℕ) (s : Digits) (ch : UInt16) : Except Failure (Option Digits) :=
  if ch = equalsSign.toUInt16 then
    -- There should be no padding if length is a multiple of 4, and there
    -- should never be more than 2 padding characters.
    if policy = .failOnInvalidCharacterOrExcessPadding &&
        (length % 4 ≠ 0 || 2 < s.equalsSignCount + 1) then pure none
    else pure (some { s with equalsSignCount := s.equalsSignCount + 1 })
  else if decodeCharacter decodeMap ch ≠ nonAlphabet then
    if s.equalsSignCount ≠ 0 then pure none
    else do
      let out ← store s.out s.outLength (decodeCharacter decodeMap ch)
      pure (some { s with out := out, outLength := s.outLength + 1 })
  else if rejects isWhiteSpaceNeutral policy ch then pure none
  else pure (some s)

def scanCharacters (length : ℕ) : List UInt16 → Digits → Except Failure (Option Digits)
  | [], s => pure (some s)
  | ch :: rest, s => do
    match ← scanCharacter isWhiteSpaceNeutral policy decodeMap length s ch with
    | none => pure none
    | some s => scanCharacters length rest s

/-- What the conversion does to an element of `out`. -/
inductive Access
  | read (i : ℕ)
  | write (i : ℕ)
  deriving DecidableEq

/-- `out` during the conversion, with the accesses so far, the last one first. -/
structure Conversion where
  out : List UInt8
  accesses : List Access

/-- `out[d] = f(out[i], out[j])`. -/
def Conversion.assign (s : Conversion) (d i j : ℕ) (f : UInt8 → UInt8 → UInt8) :
    Except Failure Conversion := do
  let x ← load s.out i
  let y ← load s.out j
  let out ← store s.out d (f x y)
  pure ⟨out, .write d :: .read j :: .read i :: s.accesses⟩

def firstByte (x y : UInt8) : UInt8 := ((x <<< 2) &&& (255 : UInt8)) ||| ((y >>> 4) &&& 0o3)

def secondByte (x y : UInt8) : UInt8 := ((x <<< 4) &&& (255 : UInt8)) ||| ((y >>> 2) &&& 0o17)

def thirdByte (x y : UInt8) : UInt8 := ((x <<< 6) &&& (255 : UInt8)) ||| (y &&& 0o77)

def convertGroup (sidx didx : ℕ) (s : Conversion) : Except Failure Conversion := do
  let s ← s.assign didx sidx (sidx + 1) firstByte
  let s ← s.assign (didx + 1) (sidx + 1) (sidx + 2) secondByte
  s.assign (didx + 2) (sidx + 2) (sidx + 3) thirdByte

/-- 4-byte to 3-byte conversion. -/
def convertGroups (outLength sidx didx : ℕ) (s : Conversion) :
    Except Failure (ℕ × ℕ × Conversion) :=
  if didx < outLength - 2 then do
    let s ← convertGroup sidx didx s
    convertGroups outLength (sidx + 4) (didx + 3) s
  else pure (sidx, didx, s)
termination_by outLength - didx

def convert (outLength : ℕ) (s : Conversion) : Except Failure Conversion := do
  let (sidx, didx, s) ←
    (if 1 < outLength then convertGroups outLength 0 0 s else pure (0, 0, s))
  let s ← (if didx < outLength then s.assign didx sidx (sidx + 1) firstByte else pure s)
  if didx + 1 < outLength then s.assign (didx + 1) (sidx + 1) (sidx + 2) secondByte else pure s

/-- What is returned, `out` and the accesses of the conversion. -/
structure DecodeResult where
  succeeded : Bool
  out : List UInt8
  accesses : List Access
  deriving DecidableEq

variable (uninitialized : ℕ → UInt8)

def base64DecodeInternal (data : List UInt16) : Except Failure DecodeResult :=
  let length := data.length
  if length = 0 then pure ⟨true, [], []⟩
  else do
    let start : Digits := ⟨grow uninitialized length, 0, 0⟩
    match ← scanCharacters isWhiteSpaceNeutral policy decodeMap length data start with
    | none => pure ⟨false, [], []⟩
    | some s =>
      if s.outLength = 0 then pure ⟨s.equalsSignCount = 0, s.out, []⟩
      -- Valid data is (n * 4 + [0,2,3]) characters long.
      else if s.outLength % 4 = 1 then pure ⟨false, s.out, []⟩
      else
        let outLength := s.outLength - (s.outLength + 3) % 2 ^ 32 / 4
        if outLength = 0 then pure ⟨false, s.out, []⟩
        else
          let s ← convert outLength ⟨s.out, []⟩
          pure ⟨true, if outLength < s.out.length then s.out.take outLength else s.out, s.accesses⟩

def base64Decode (data : List UInt16) : Except Failure DecodeResult :=
  base64DecodeInternal isWhiteSpaceNeutral policy base64DecMap uninitialized data

def base64URLDecode (data : List UInt16) : Except Failure DecodeResult :=
  base64DecodeInternal isWhiteSpaceNeutral .failOnInvalidCharacter base64URLDecMap uninitialized
    data

end Decoder

end WebKit.WTF.Base64
