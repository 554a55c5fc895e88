import Mathlib.Data.List.TakeDrop
import WebKit.Bits.Bytes
import WebKit.Transition.Program

/-!
# The buffers of IPC arguments

`ArgumentEncoder` appends data to a buffer at offsets that are multiples of an alignment,
and `ArgumentDecoder` reads it from a copy at addresses that are multiples of it. The
decoder has no failure flag: it is invalid when its position lies beyond the end of the
buffer, and marking it invalid moves the position there.
-/

open List

namespace WebKit.IPC

/-- Both sides assert that an alignment is a power of two. -/
structure Alignment where
  log : ℕ

namespace Alignment

def toNat (alignment : Alignment) : ℕ := 2 ^ alignment.log

theorem toNat_pos (alignment : Alignment) : 0 < alignment.toNat := Nat.two_pow_pos _

end Alignment

/-! ## The encoder -/

/-- The first `bufferSize` bytes of `m_buffer` and its capacity. -/
structure ArgumentEncoder where
  buffer : List UInt8
  bufferCapacity : ℕ
  capacity_pos : 0 < bufferCapacity
  size_le : buffer.length ≤ bufferCapacity

namespace ArgumentEncoder

def inlineBufferSize : ℕ := 512

def initial : ArgumentEncoder where
  buffer := []
  bufferCapacity := inlineBufferSize
  capacity_pos := by decide
  size_le := by decide

def bufferSize (encoder : ArgumentEncoder) : ℕ := encoder.buffer.length

def roundUpToAlignment (value alignment : ℕ) : ℕ := Bits.roundUp value alignment

/-- The loop of `reserve`. -/
def doubleUntil (newCapacity size : ℕ) : ℕ :=
  if 0 < newCapacity ∧ newCapacity < size then doubleUntil (newCapacity * 2) size
  else newCapacity
termination_by size - newCapacity

theorem le_doubleUntil (newCapacity size : ℕ) : newCapacity ≤ doubleUntil newCapacity size := by
  fun_induction doubleUntil newCapacity size with
  | case1 newCapacity h ih => omega
  | case2 newCapacity h => exact le_rfl

theorem size_le_doubleUntil {newCapacity size : ℕ} (h : 0 < newCapacity) :
    size ≤ doubleUntil newCapacity size := by
  fun_induction doubleUntil newCapacity size with
  | case1 newCapacity hlt ih => exact ih (by omega)
  | case2 newCapacity hlt => omega

theorem capacity_lt_roundUp {capacity : ℕ} (h : 0 < capacity) :
    capacity < roundUpToAlignment (capacity * 2) 4096 := by
  have hle : capacity * 2 ≤ roundUpToAlignment (capacity * 2) 4096 := Bits.le_roundUp (by decide)
  omega

/-- The memory that is asked for is always there: an allocation that fails ends the
process. -/
def reserve (encoder : ArgumentEncoder) (size : ℕ) : ArgumentEncoder :=
  if size ≤ encoder.bufferCapacity then encoder
  else
    { buffer := encoder.buffer
      bufferCapacity := doubleUntil (roundUpToAlignment (encoder.bufferCapacity * 2) 4096) size
      capacity_pos := by
        have hlt := capacity_lt_roundUp encoder.capacity_pos
        have hle := le_doubleUntil (roundUpToAlignment (encoder.bufferCapacity * 2) 4096) size
        omega
      size_le := by
        have hsize := encoder.size_le
        have hlt := capacity_lt_roundUp encoder.capacity_pos
        have hle := le_doubleUntil (roundUpToAlignment (encoder.bufferCapacity * 2) 4096) size
        omega }

@[simp] theorem reserve_buffer (encoder : ArgumentEncoder) (size : ℕ) :
    (encoder.reserve size).buffer = encoder.buffer := by
  unfold reserve
  split <;> rfl

theorem size_le_reserve (encoder : ArgumentEncoder) (size : ℕ) :
    size ≤ (encoder.reserve size).bufferCapacity := by
  unfold reserve
  split
  · assumption
  · have hlt := capacity_lt_roundUp encoder.capacity_pos
    exact size_le_doubleUntil (by omega)

variable (uninitialized : ℕ → UInt8)

/-- The bytes that `grow` skips to reach the aligned size: nothing writes them. -/
def padding (bufferSize : ℕ) (alignment : Alignment) : List UInt8 :=
  (List.range' bufferSize
    (roundUpToAlignment bufferSize alignment.toNat - bufferSize)).map uninitialized

theorem length_padding (bufferSize : ℕ) (alignment : Alignment) :
    (padding uninitialized bufferSize alignment).length =
      roundUpToAlignment bufferSize alignment.toNat - bufferSize := by
  rw [padding, length_map, length_range']

/-- `grow`, and the copy of the data to the position it returns. -/
def encodeFixedLengthData (encoder : ArgumentEncoder) (data : List UInt8) (alignment : Alignment) :
    ArgumentEncoder :=
  let alignedSize := roundUpToAlignment encoder.bufferSize alignment.toNat
  let grown := encoder.reserve (alignedSize + data.length)
  { buffer := grown.buffer ++ padding uninitialized encoder.bufferSize alignment ++ data
    bufferCapacity := grown.bufferCapacity
    capacity_pos := grown.capacity_pos
    size_le := by
      have haligned : encoder.bufferSize ≤ alignedSize := Bits.le_roundUp alignment.toNat_pos
      have hcapacity := encoder.size_le_reserve (alignedSize + data.length)
      have hsize : grown.buffer.length = encoder.bufferSize := by rw [reserve_buffer, bufferSize]
      rw [length_append, length_append, length_padding, hsize]
      show encoder.bufferSize + (alignedSize - encoder.bufferSize) + data.length ≤
        (encoder.reserve (alignedSize + data.length)).bufferCapacity
      omega }

end ArgumentEncoder

/-! ## The decoder -/

/-- What a decoder does to memory: it reads `size` bytes at an address of its buffer, or it
gives a container of arithmetic elements room for `size` bytes that are to be copied from
that address on. -/
inductive Access
  | read (address size : ℕ)
  | resize (address size : ℕ)

/-- The buffer starts at the address `buffer`, a copy of the bytes that were received. The
accesses are recorded for the proofs. -/
structure ArgumentDecoder where
  buffer : ℕ
  bytes : List UInt8
  bufferPos : ℕ
  accesses : List Access

/-- A decode that does not succeed returns false, or the process ends in it. -/
inductive Stop
  | failed
  | crashed
  deriving DecidableEq

abbrev Decode (α : Type) := ExceptT Stop (StateM ArgumentDecoder) α

namespace ArgumentDecoder

open Transition

def ofBuffer (buffer : ℕ) (bytes : List UInt8) : ArgumentDecoder where
  buffer := buffer
  bytes := bytes
  bufferPos := buffer
  accesses := []

def bufferEnd (decoder : ArgumentDecoder) : ℕ := decoder.buffer + decoder.bytes.length

def isInvalid (decoder : ArgumentDecoder) : Prop := decoder.bufferEnd < decoder.bufferPos

instance (decoder : ArgumentDecoder) : Decidable decoder.isInvalid :=
  inferInstanceAs (Decidable (_ < _))

def markInvalid : Decode Unit :=
  modify fun decoder => { decoder with bufferPos := decoder.bufferEnd + 1 }

def roundUpToAlignment (ptr alignment : ℕ) : ℕ :=
  let alignmentMask := BitVec.ofNat 64 (alignment - 1)
  ((BitVec.ofNat 64 ptr + alignmentMask) &&& ~~~alignmentMask).toNat

def alignedBufferIsLargeEnoughToContain (alignedPosition bufferEnd size : ℕ) : Prop :=
  alignedPosition ≤ bufferEnd ∧ size ≤ bufferEnd - alignedPosition

instance (alignedPosition bufferEnd size : ℕ) :
    Decidable (alignedBufferIsLargeEnoughToContain alignedPosition bufferEnd size) :=
  inferInstanceAs (Decidable (_ ∧ _))

def alignBufferPosition (alignment : Alignment) (size : ℕ) : Decode Unit := do
  let decoder ← get
  let alignedPosition := roundUpToAlignment decoder.bufferPos alignment.toNat
  if alignedBufferIsLargeEnoughToContain alignedPosition decoder.bufferEnd size then
    modify fun decoder => { decoder with bufferPos := alignedPosition }
  else
    -- We've walked off the end of this buffer.
    markInvalid
    throw .failed

theorem exec_alignBufferPosition {decoder : ArgumentDecoder} {alignment : Alignment} {size : ℕ}
    (h : alignedBufferIsLargeEnoughToContain
      (roundUpToAlignment decoder.bufferPos alignment.toNat) decoder.bufferEnd size) :
    exec (alignBufferPosition alignment size) decoder =
      (.ok (), { decoder with
        bufferPos := roundUpToAlignment decoder.bufferPos alignment.toNat }) := by
  unfold alignBufferPosition
  rw [exec_bind_ok (exec_get decoder), if_pos h]
  rfl

/-- The bytes from the position on, and the position moved behind them. -/
def readBuffer (size : ℕ) : Decode (List UInt8) := do
  let decoder ← get
  modify fun decoder => { decoder with
    bufferPos := decoder.bufferPos + size
    accesses := .read decoder.bufferPos size :: decoder.accesses }
  pure ((decoder.bytes.drop (decoder.bufferPos - decoder.buffer)).take size)

theorem exec_readBuffer (size : ℕ) (decoder : ArgumentDecoder) : exec (readBuffer size) decoder =
      (.ok ((decoder.bytes.drop (decoder.bufferPos - decoder.buffer)).take size),
        { decoder with
          bufferPos := decoder.bufferPos + size
          accesses := .read decoder.bufferPos size :: decoder.accesses }) := rfl

def decodeFixedLengthData (size : ℕ) (alignment : Alignment) : Decode (List UInt8) := do
  alignBufferPosition alignment size
  readBuffer size

/-- `bufferIsLargeEnoughToContain<T>`, with the size and the alignment of `T`. -/
def bufferIsLargeEnoughToContain (sizeof : ℕ) (alignment : Alignment) (numElements : ℕ) :
    Decode Bool := do
  let decoder ← get
  pure (decide (numElements ≤ (2 ^ 64 - 1) / sizeof ∧
    alignedBufferIsLargeEnoughToContain (roundUpToAlignment decoder.bufferPos alignment.toNat)
      decoder.bufferEnd (numElements * sizeof % 2 ^ 64)))

theorem exec_bufferIsLargeEnoughToContain (sizeof : ℕ) (alignment : Alignment) (numElements : ℕ)
    (decoder : ArgumentDecoder) :
    exec (bufferIsLargeEnoughToContain sizeof alignment numElements) decoder =
      (.ok (decide (numElements ≤ (2 ^ 64 - 1) / sizeof ∧ alignedBufferIsLargeEnoughToContain
          (roundUpToAlignment decoder.bufferPos alignment.toNat) decoder.bufferEnd
          (numElements * sizeof % 2 ^ 64))), decoder) := rfl

/-- Room for elements of `size` bytes that are about to be copied from the buffer. -/
def recordResize (size : ℕ) : Decode Unit :=
  modify fun decoder => { decoder with
    accesses := .resize decoder.bufferPos size :: decoder.accesses }

end ArgumentDecoder

/-!
## Coders of IPC arguments

The coders of integers, strings, pairs, optionals, vectors and hash tables, over
`ArgumentEncoder` and `ArgumentDecoder`. A type of arguments is an `ArgType`, and the coder
of a type is put together from the coders of its parts, as the templates are.
-/

inductive Number
  | uint8 | uint16 | uint32 | uint64
  | int8 | int16 | int32 | int64
  | float | double
  deriving DecidableEq

inductive Arithmetic
  | bool
  | number (type : Number)
  deriving DecidableEq

def Number.alignment : Number → Alignment
  | .uint8 | .int8 => ⟨0⟩
  | .uint16 | .int16 => ⟨1⟩
  | .uint32 | .int32 | .float => ⟨2⟩
  | .uint64 | .int64 | .double => ⟨3⟩

def Number.bits : Number → ℕ
  | .uint8 | .int8 => 8
  | .uint16 | .int16 => 16
  | .uint32 | .int32 | .float => 32
  | .uint64 | .int64 | .double => 64

namespace Arithmetic

abbrev uint8 : Arithmetic := number .uint8
abbrev uint16 : Arithmetic := number .uint16
abbrev uint32 : Arithmetic := number .uint32
abbrev uint64 : Arithmetic := number .uint64

def alignment : Arithmetic → Alignment
  | bool => ⟨0⟩
  | number type => type.alignment

/-- An arithmetic type is as large as its alignment. -/
def sizeof (type : Arithmetic) : ℕ := type.alignment.toNat

/-- The value of a number is its bit pattern. -/
@[reducible] def Carrier : Arithmetic → Type
  | bool => Bool
  | number type => BitVec type.bits

instance : (type : Arithmetic) → DecidableEq type.Carrier
  | bool => inferInstanceAs (DecidableEq Bool)
  | number type => inferInstanceAs (DecidableEq (BitVec type.bits))

instance : (type : Arithmetic) → Inhabited type.Carrier
  | bool => ⟨false⟩
  | number type => ⟨BitVec.zero type.bits⟩

def toBytes : (type : Arithmetic) → type.Carrier → List UInt8
  | bool, b => [if b = true then 1 else 0]
  | number type, x => Bits.toBytes (number type).sizeof (BitVec.toNat x)

/-- A byte that is neither 0 nor 1 is no bool that C++ knows; it is taken as true here. -/
def ofBytes : (type : Arithmetic) → List UInt8 → type.Carrier
  | bool, bytes => decide (Bits.ofBytes bytes ≠ 0)
  | number type, bytes => BitVec.ofNat type.bits (Bits.ofBytes bytes)

/-- The elements of a vector as they lie in memory. -/
def vectorBytes (type : Arithmetic) (vector : List type.Carrier) : List UInt8 :=
  vector.flatMap type.toBytes

/-- The `size` elements that lie at the start of the bytes. -/
def vectorOfBytes (type : Arithmetic) : ℕ → List UInt8 → List type.Carrier
  | 0, _ => []
  | size + 1, bytes =>
    type.ofBytes (bytes.take type.sizeof) :: type.vectorOfBytes size (bytes.drop type.sizeof)

variable (uninitialized : ℕ → UInt8)

/-- The overloads of `ArgumentEncoder::encode`. -/
def encode (type : Arithmetic) (value : type.Carrier) (encoder : ArgumentEncoder) :
    ArgumentEncoder :=
  encoder.encodeFixedLengthData uninitialized (type.toBytes value) type.alignment

/-- The overloads of `ArgumentDecoder::decode`. -/
def decode (type : Arithmetic) : Decode type.Carrier := do
  let data ← ArgumentDecoder.decodeFixedLengthData type.sizeof type.alignment
  pure (type.ofBytes data)

/-- `encodeFixedLengthData` with the memory of a vector or of a string. -/
def encodeElements (type : Arithmetic) (elements : List type.Carrier) (encoder : ArgumentEncoder) :
    ArgumentEncoder :=
  encoder.encodeFixedLengthData uninitialized (type.vectorBytes elements) type.alignment

/-- Room for `size` elements, and `decodeFixedLengthData` into it. -/
def decodeElements (type : Arithmetic) (size : ℕ) : Decode (List type.Carrier) := do
  ArgumentDecoder.recordResize (size * type.sizeof)
  let data ← ArgumentDecoder.decodeFixedLengthData (size * type.sizeof % 2 ^ 64) type.alignment
  pure (type.vectorOfBytes size data)

/-- The templates of `bufferIsLargeEnoughToContain`, and the failure when it is not. -/
def checkBuffer (type : Arithmetic) (numElements : ℕ) : Decode Unit := do
  if ← ArgumentDecoder.bufferIsLargeEnoughToContain type.sizeof type.alignment numElements then
    pure ()
  else
    ArgumentDecoder.markInvalid
    throw .failed

end Arithmetic

abbrev LChar := Arithmetic.Carrier .uint8
abbrev UChar := Arithmetic.Carrier .uint16

def sizeofStringImpl : ℕ := 24

def sizeofCStringBuffer : ℕ := 16

/-- The longest string that `StringImpl::createUninitialized` allocates. -/
def maxStringLength (sizeofCharacter : ℕ) : ℕ := (2 ^ 32 - 1 - sizeofStringImpl) / sizeofCharacter

/-- `WTF::String`: the length is an unsigned integer, and an empty string is an 8-bit
string. -/
inductive WTFString
  | null
  | of8Bit (characters : List LChar) (length_lt : characters.length < 2 ^ 32)
  | of16Bit (characters : List UChar) (ne_nil : characters ≠ [])
      (length_lt : characters.length < 2 ^ 32)
  deriving DecidableEq

/-- `WTF::CString`: `CStringBuffer::createUninitialized` asserts the bound. -/
inductive CString
  | null
  | ofBytes (bytes : List LChar) (length_lt : bytes.length < 2 ^ 32 - 1 - sizeofCStringBuffer)
  deriving DecidableEq

variable (uninitialized : ℕ → UInt8)

def encodeUInt32 (n : ℕ) : ArgumentEncoder → ArgumentEncoder :=
  Arithmetic.uint32.encode uninitialized (BitVec.ofNat 32 n)

def encodeUInt64 (n : ℕ) : ArgumentEncoder → ArgumentEncoder :=
  Arithmetic.uint64.encode uninitialized (BitVec.ofNat 64 n)

def decodeUInt32 : Decode ℕ := do
  let n ← Arithmetic.uint32.decode
  pure (BitVec.toNat n)

def decodeUInt64 : Decode ℕ := do
  let n ← Arithmetic.uint64.decode
  pure (BitVec.toNat n)

/-- `std::numeric_limits<uint32_t>::max()`, the length that stands for a null string. -/
def nullLength : ℕ := 2 ^ 32 - 1

namespace CString

def encode (string : CString) (encoder : ArgumentEncoder) : ArgumentEncoder :=
  match string with
  | null => encodeUInt32 uninitialized nullLength encoder
  | ofBytes bytes _ =>
    Arithmetic.uint8.encodeElements uninitialized bytes
      (encodeUInt32 uninitialized bytes.length encoder)

def decode : Decode CString := do
  let length ← decodeUInt32
  if length = nullLength then
    -- This is the null string.
    pure null
  else
    Arithmetic.uint8.checkBuffer length
    -- `CString::newUninitialized` asserts the bound also in release builds.
    if h : length < 2 ^ 32 - 1 - sizeofCStringBuffer then
      let bytes ← Arithmetic.uint8.decodeElements length
      pure (ofBytes (bytes.takeD length default) (by rw [takeD_length]; exact h))
    else throw .crashed

end CString

namespace WTFString

def encode (string : WTFString) (encoder : ArgumentEncoder) : ArgumentEncoder :=
  match string with
  | null => encodeUInt32 uninitialized nullLength encoder
  | of8Bit characters _ =>
    Arithmetic.uint8.encodeElements uninitialized characters
      (Arithmetic.bool.encode uninitialized true
        (encodeUInt32 uninitialized characters.length encoder))
  | of16Bit characters _ _ =>
    Arithmetic.uint16.encodeElements uninitialized characters
      (Arithmetic.bool.encode uninitialized false
        (encodeUInt32 uninitialized characters.length encoder))

/-- `decodeStringText<LChar>`. -/
def decodeText8 (length : ℕ) : Decode WTFString := do
  Arithmetic.uint8.checkBuffer length
  if h : length ≤ maxStringLength 1 then
    let characters ← Arithmetic.uint8.decodeElements length
    pure (of8Bit (characters.takeD length default) (by
      rw [takeD_length]
      exact Nat.lt_of_le_of_lt h (by decide)))
  else throw .crashed

/-- `decodeStringText<UChar>`: the string that is created for no characters is an 8-bit
string. -/
def decodeText16 (length : ℕ) : Decode WTFString := do
  Arithmetic.uint16.checkBuffer length
  if h : length ≤ maxStringLength 2 then
    let characters ← Arithmetic.uint16.decodeElements length
    if hempty : length = 0 then
      pure (of8Bit [] (by decide))
    else
      pure (of16Bit (characters.takeD length default) (by
          rw [← length_pos_iff_ne_nil, takeD_length]
          omega)
        (by
          rw [takeD_length]
          exact Nat.lt_of_le_of_lt h (by decide)))
  else throw .crashed

def decode : Decode WTFString := do
  let length ← decodeUInt32
  if length = nullLength then
    -- This is the null string.
    pure null
  else
    let is8Bit ← Arithmetic.bool.decode
    if is8Bit = true then decodeText8 length else decodeText16 length

end WTFString

/-- The hash and key traits that a table is instantiated with, as far as they show: which
keys are equal, and which bit patterns mark an empty or a deleted bucket. -/
structure HashTraits (α : Type) where
  equal : α → α → Bool
  isEmptyValue : α → Bool
  isDeletedValue : α → Bool

def HashTraits.isValidKey {α : Type} (traits : HashTraits α) (key : α) : Bool :=
  !traits.isEmptyValue key && !traits.isDeletedValue key

/-- The types without tables in them: those that are keys of tables. -/
inductive KeyType
  | arithmetic (type : Arithmetic)
  | string
  | cString
  | pair (first second : KeyType)

namespace KeyType

@[reducible] def Value : KeyType → Type
  | arithmetic type => type.Carrier
  | string => WTFString
  | cString => CString
  | pair first second => first.Value × second.Value

def encode : (type : KeyType) → type.Value → ArgumentEncoder → ArgumentEncoder
  | arithmetic type, value, encoder => type.encode uninitialized value encoder
  | string, value, encoder => value.encode uninitialized encoder
  | cString, value, encoder => value.encode uninitialized encoder
  | pair first second, value, encoder =>
    second.encode value.2 (first.encode value.1 encoder)

def decode : (type : KeyType) → Decode type.Value
  | arithmetic type => type.decode
  | string => WTFString.decode
  | cString => CString.decode
  | pair first second => do
    let a ← first.decode
    let b ← second.decode
    pure (a, b)

end KeyType

/-- The types of arguments: arithmetic types, strings and pairs of them, byte arrays
(`DataReference`), and the templates over them. -/
inductive ArgType
  | plain (type : KeyType)
  | byteArray
  | optional (type : ArgType)
  | pair (first second : ArgType)
  | vector (type : ArgType)
  | hashMap (key : KeyType) (traits : HashTraits key.Value) (mapped : ArgType)
  | hashSet (key : KeyType) (traits : HashTraits key.Value)

/-- A hash table is the list of its entries in the order of iteration. -/
@[reducible] def ArgType.Value : ArgType → Type
  | plain type => type.Value
  | byteArray => List UInt8
  | optional type => Option type.Value
  | pair first second => first.Value × second.Value
  | vector type => List type.Value
  | hashMap key _ mapped => List (key.Value × mapped.Value)
  | hashSet key _ => List key.Value

/-- What the coders do not fix about hash tables: where the hash function puts a new entry
in the order of iteration, and what becomes of a table when a key is added that marks an
empty or a deleted bucket. -/
structure Tables where
  place : (α : Type) → List α → α → List α
  place_perm : ∀ (α : Type) (table : List α) (entry : α),
    (place α table entry).Perm (entry :: table)
  addInvalid : (α : Type) → List α → α → Option (List α × Bool)

/-- `add` of a table whose entries have the keys `keyOf`, and whether the entry is new. -/
def Tables.add (tables : Tables) {κ ε : Type} (traits : HashTraits κ) (keyOf : ε → κ)
    (table : List ε) (entry : ε) : Option (List ε × Bool) :=
  if traits.isValidKey (keyOf entry) then
    if table.any fun present => traits.equal (keyOf present) (keyOf entry) then
      some (table, false)
    else some (tables.place ε table entry, true)
  else tables.addInvalid ε table entry

/-- The loop over the elements of a vector or a table. -/
def encodeEach {α : Type} (encodeOne : α → ArgumentEncoder → ArgumentEncoder) (l : List α)
    (encoder : ArgumentEncoder) : ArgumentEncoder :=
  l.foldl (fun encoder a => encodeOne a encoder) encoder

/-- The loop of `VectorArgumentCoder<false>`. -/
def decodeEach {α : Type} (decodeOne : Decode α) : ℕ → Decode (List α)
  | 0 => pure []
  | size + 1 => do
    let element ← decodeOne
    let rest ← decodeEach decodeOne size
    pure (element :: rest)

/-- The loop of the tables, over the entries that are still to come. -/
def decodeTable {α : Type} (decodeOne : Decode α) (add : List α → α → Option (List α × Bool)) :
    ℕ → List α → Decode (List α)
  | 0, table => pure table
  | size + 1, table => do
    let entry ← decodeOne
    match add table entry with
    | some (table, true) => decodeTable decodeOne add size table
    | some (_, false) =>
      -- The table already has the specified key, bail.
      ArgumentDecoder.markInvalid
      throw .failed
    | none => throw .crashed

def ArgType.IsArithmetic (type : ArgType) : Prop :=
  ∃ arithmetic, type = .plain (.arithmetic arithmetic)

namespace VectorArgumentCoder

/-- `std::is_arithmetic<T>` chooses between the two coders. -/
def encode : (type : ArgType) → (type.Value → ArgumentEncoder → ArgumentEncoder) →
    List type.Value → ArgumentEncoder → ArgumentEncoder
  | .plain (.arithmetic type), _, vector, encoder =>
    type.encodeElements uninitialized vector (encodeUInt64 uninitialized vector.length encoder)
  | _, encodeOne, vector, encoder =>
    encodeEach encodeOne vector (encodeUInt64 uninitialized vector.length encoder)

def decode : (type : ArgType) → Decode type.Value → Decode (List type.Value)
  | .plain (.arithmetic type), _ => do
    let size ← decodeUInt64
    -- Before allocating we must make sure that the decoder buffer is big enough.
    type.checkBuffer size
    -- The result of the copy is not looked at.
    tryCatch (type.decodeElements size) fun _ => pure (List.replicate size default)
  | _, decodeOne => do
    let size ← decodeUInt64
    decodeEach decodeOne size

theorem encode_of_not_isArithmetic {type : ArgType} (h : ¬type.IsArithmetic)
    (encodeOne : type.Value → ArgumentEncoder → ArgumentEncoder) (vector : List type.Value)
    (encoder : ArgumentEncoder) :
    encode uninitialized type encodeOne vector encoder =
      encodeEach encodeOne vector (encodeUInt64 uninitialized vector.length encoder) := by
  unfold encode
  split
  · exact absurd ⟨_, rfl⟩ h
  · rfl

theorem decode_of_not_isArithmetic {type : ArgType} (h : ¬type.IsArithmetic)
    (decodeOne : Decode type.Value) :
    decode type decodeOne = (do
      let size ← decodeUInt64
      decodeEach decodeOne size) := by
  unfold decode
  split
  · exact absurd ⟨_, rfl⟩ h
  · rfl

end VectorArgumentCoder

def encodeVariableLengthByteArray (bytes : List UInt8) (encoder : ArgumentEncoder) :
    ArgumentEncoder :=
  (encodeUInt64 uninitialized bytes.length encoder).encodeFixedLengthData uninitialized bytes ⟨0⟩

def decodeVariableLengthByteArray : Decode (List UInt8) := do
  let size ← decodeUInt64
  ArgumentDecoder.alignBufferPosition ⟨0⟩ size
  ArgumentDecoder.readBuffer size

namespace ArgType

def encode : (type : ArgType) → type.Value → ArgumentEncoder → ArgumentEncoder
  | plain type, value, encoder => type.encode uninitialized value encoder
  | byteArray, bytes, encoder => encodeVariableLengthByteArray uninitialized bytes encoder
  | optional _, none, encoder => Arithmetic.bool.encode uninitialized false encoder
  | optional type, some value, encoder =>
    type.encode value (Arithmetic.bool.encode uninitialized true encoder)
  | pair first second, value, encoder =>
    second.encode value.2 (first.encode value.1 encoder)
  | vector type, l, encoder => VectorArgumentCoder.encode uninitialized type type.encode l encoder
  | hashMap key _ mapped, l, encoder =>
    encodeEach
      (fun entry encoder => mapped.encode entry.2 (key.encode uninitialized entry.1 encoder))
      l (encodeUInt64 uninitialized l.length encoder)
  | hashSet key _, l, encoder =>
    encodeEach (key.encode uninitialized) l (encodeUInt64 uninitialized l.length encoder)

variable (tables : Tables)

def decode : (type : ArgType) → Decode type.Value
  | plain type => type.decode
  | byteArray => decodeVariableLengthByteArray
  | optional type => do
    let isEngaged ← Arithmetic.bool.decode
    if isEngaged = true then
      let value ← type.decode
      pure (some value)
    else pure none
  | pair first second => do
    let a ← first.decode
    let b ← second.decode
    pure (a, b)
  | vector type => VectorArgumentCoder.decode type type.decode
  | hashMap key traits mapped => do
    let hashMapSize ← decodeUInt64
    decodeTable (do
        let k ← key.decode
        let value ← mapped.decode
        pure (k, value))
      (tables.add traits Prod.fst) hashMapSize []
  | hashSet key traits => do
    let hashSetSize ← decodeUInt64
    decodeTable key.decode (tables.add traits id) hashSetSize []

end ArgType

end WebKit.IPC
