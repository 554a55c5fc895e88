import Mathlib.Data.List.FinRange
import WebKit.WTF.Memory

/-!
# Frames of a web socket

`parseFrame` reads a frame from the front of a buffer and removes its mask in place, and
`makeFrameData` writes one. A pointer into a buffer is an offset; the payload pointer of a frame
is the rest of the memory from there on. An access outside the buffer is a `badAccess`. The
difference of two pointers into one buffer is an integer, the casts to `size_t` and the
arithmetic on it are done with 64 bits.

The masking key is what `cryptographicallyRandomValues` writes. A vector that cannot grow to a
size crashes (`canGrow`).
-/

namespace WebKit.WebSockets

open WTF (Failure load store)

def finalBit : UInt8 := 0x80
def compressBit : UInt8 := 0x40
def reserved2Bit : UInt8 := 0x20
def reserved3Bit : UInt8 := 0x10
def opCodeMask : UInt8 := 0xF
def maskBit : UInt8 := 0x80
def payloadLengthMask : UInt8 := 0x7F
def maxPayloadLengthWithoutExtendedLengthField : UInt64 := 125
def payloadLengthWithTwoByteExtendedLengthField : UInt64 := 126
def payloadLengthWithEightByteExtendedLengthField : UInt64 := 127
def maskingKeyWidthInBytes : ℕ := 4
def maxPayloadLength : UInt64 := 0x7FFFFFFFFFFFFFFF

inductive ParseFrameResult where
  | frameOK
  | frameIncomplete
  | frameError
  deriving DecidableEq, Repr

/-- `opCode` has the values that are cast to the enumeration, with or without a name. -/
structure WebSocketFrame where
  opCode : UInt8
  final : Bool
  compress : Bool
  reserved2 : Bool
  reserved3 : Bool
  masked : Bool
  payload : List UInt8
  payloadLength : UInt64
  deriving DecidableEq, Repr

/-- The buffer and what `parseFrame` returns through references. -/
structure ParseState where
  data : List UInt8
  frame : WebSocketFrame
  frameEnd : ℕ
  errorString : String
  deriving DecidableEq, Repr

/-- The bytes of an extended length, the most significant one first. -/
def readPayloadLength (data : List UInt8) : ℕ → ℕ → UInt64 → Except Failure (UInt64 × ℕ)
  | 0, p, payloadLength64 => pure (payloadLength64, p)
  | i + 1, p, payloadLength64 => do
    let byte ← load data p
    readPayloadLength data i (p + 1) (payloadLength64 <<< 8 ||| byte.toUInt64)

/-- The loop that masks a payload, or removes its mask. -/
def maskPayload (data : List UInt8) (maskingKey payload payloadLength : ℕ) :
    Except Failure (List UInt8) :=
  (List.range payloadLength).foldlM (fun data i => do
    let byte ← load data (payload + i)
    let key ← load data (maskingKey + i % maskingKeyWidthInBytes)
    store data (payload + i) (byte ^^^ key)) data

/-- What follows the length of a frame. -/
def parsePayload (state : ParseState) (firstByte : UInt8) (masked : Bool) (p : ℕ)
    (payloadLength64 : UInt64) : Except Failure (ParseFrameResult × ParseState) :=
  let maskingKeyLength : UInt64 := if masked then 4 else 0
  if payloadLength64 > maxPayloadLength ∨
      payloadLength64 + maskingKeyLength > 0xFFFFFFFFFFFFFFFF then
    pure (.frameError, { state with errorString :=
      "WebSocket frame length too large: " ++ toString payloadLength64.toNat ++ " bytes" })
  else
    let payloadLength := payloadLength64
    if UInt64.ofNat (state.data.length - p) < maskingKeyLength + payloadLength then
      pure (.frameIncomplete, state)
    else do
      let data ← (if masked then
          maskPayload state.data p (p + maskingKeyWidthInBytes) payloadLength.toNat
        else pure state.data)
      let frame : WebSocketFrame :=
        { opCode := firstByte &&& opCodeMask
          final := firstByte &&& finalBit != 0
          compress := firstByte &&& compressBit != 0
          reserved2 := firstByte &&& reserved2Bit != 0
          reserved3 := firstByte &&& reserved3Bit != 0
          masked
          payload := data.drop (p + maskingKeyLength.toNat)
          payloadLength }
      pure (.frameOK, { state with
        data, frame, frameEnd := p + maskingKeyLength.toNat + payloadLength.toNat })

def notMinimal : String := "The minimal number of bytes MUST be used to encode the length"

def parseFrame (state : ParseState) : Except Failure (ParseFrameResult × ParseState) :=
  if state.data.length < 2 then pure (.frameIncomplete, state)
  else do
    let firstByte ← load state.data 0
    let secondByte ← load state.data 1
    let masked := secondByte &&& maskBit != 0
    let payloadLength64 := (secondByte &&& payloadLengthMask).toUInt64
    if payloadLength64 > maxPayloadLengthWithoutExtendedLengthField then
      let extendedPayloadLengthSize : ℕ :=
        if payloadLength64 = payloadLengthWithTwoByteExtendedLengthField then 2 else 8
      if (state.data.length : ℤ) - 2 < (extendedPayloadLengthSize : ℤ) then
        pure (.frameIncomplete, state)
      else
        let (payloadLength64, p) ← readPayloadLength state.data extendedPayloadLengthSize 2 0
        if extendedPayloadLengthSize = 2 ∧
            payloadLength64 ≤ maxPayloadLengthWithoutExtendedLengthField then
          pure (.frameError, { state with errorString := notMinimal })
        else if extendedPayloadLengthSize = 8 ∧ payloadLength64 ≤ 0xFFFF then
          pure (.frameError, { state with errorString := notMinimal })
        else parsePayload state firstByte masked p payloadLength64
    else parsePayload state firstByte masked 2 payloadLength64

variable (canGrow : ℕ → Bool)

/-- `Vector::append` -/
def append (data more : List UInt8) : Except Failure (List UInt8) :=
  if canGrow (data.length + more.length) then pure (data ++ more) else throw .crash

/-- A length of eight bytes, filled in from the last one. -/
def extendedPayloadLength : ℕ → UInt64 → List UInt8 → List UInt8
  | 0, _, bytes => bytes
  | i + 1, remaining, bytes =>
    extendedPayloadLength i (remaining >>> 8) ((remaining &&& 0xFF).toUInt8 :: bytes)

/-- The memory that a pointer and a length stand for. -/
def bytesOf (pointer : List UInt8) (length : UInt64) : Except Failure (List UInt8) :=
  if length.toNat ≤ pointer.length then pure (pointer.take length.toNat) else throw .badAccess

/-- The random values are written over the placeholder. -/
def writeMaskingKey (data : List UInt8) (maskingKeyStart : ℕ) (maskingKey : Fin 4 → UInt8) :
    List UInt8 :=
  (List.finRange 4).foldl
    (fun data (i : Fin 4) => data.set (maskingKeyStart + i.val) (maskingKey i)) data

def appendFramePayload (frame : WebSocketFrame) (maskingKey : Fin 4 → UInt8)
    (frameData : List UInt8) : Except Failure (List UInt8) := do
  let maskingKeyStart := frameData.length
  let frameData ← (if frame.masked then append canGrow frameData [0, 0, 0, 0] else pure frameData)
  let payloadStart := frameData.length
  let frameData ← append canGrow frameData (← bytesOf frame.payload frame.payloadLength)
  if frame.masked then
    maskPayload (writeMaskingKey frameData maskingKeyStart maskingKey) maskingKeyStart payloadStart
      frame.payloadLength.toNat
  else pure frameData

def makeFrameData (frame : WebSocketFrame) (maskingKey : Fin 4 → UInt8) :
    Except Failure (List UInt8) := do
  let first := (if frame.final then finalBit else 0) |||
    (if frame.compress then compressBit else 0) ||| frame.opCode
  let second := if frame.masked then maskBit else 0
  let frameData ← append canGrow [] [first, second]
  let frameData ← (if frame.payloadLength ≤ maxPayloadLengthWithoutExtendedLengthField then
      pure (frameData.modify 1 (· ||| frame.payloadLength.toUInt8))
    else if frame.payloadLength ≤ 0xFFFF then do
      let frameData :=
        frameData.modify 1 (· ||| payloadLengthWithTwoByteExtendedLengthField.toUInt8)
      let frameData ← append canGrow frameData [((frame.payloadLength &&& 0xFF00) >>> 8).toUInt8]
      append canGrow frameData [(frame.payloadLength &&& 0xFF).toUInt8]
    else
      let frameData :=
        frameData.modify 1 (· ||| payloadLengthWithEightByteExtendedLengthField.toUInt8)
      append canGrow frameData (extendedPayloadLength 8 frame.payloadLength []))
  appendFramePayload canGrow frame maskingKey frameData

end WebKit.WebSockets
