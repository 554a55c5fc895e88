import WebKit.WebSockets.FrameRoundTrip

/-!
# The receiving side of a web socket

A channel appends what its socket receives to a buffer, and while it is not suspended it takes the
frames from the front of the buffer, one after the other. The cuts between the chunks and the
suspensions are not seen by its client (`runs_agree`), which gets the messages whole and in order
however they are cut into frames (`run_delivers`).

The channel is connected and has its client. What it does with the outside are its `calls`.
-/

namespace WebKit.WebSockets

open List
open WTF (Failure)

def opCodeContinuation : UInt8 := 0x0
def opCodeText : UInt8 := 0x1
def opCodeBinary : UInt8 := 0x2
def opCodeClose : UInt8 := 0x8
def opCodePing : UInt8 := 0x9
def opCodePong : UInt8 := 0xA
def opCodeInvalid : UInt8 := 0x10

def isNonControlOpCode (opCode : UInt8) : Bool :=
  opCode == opCodeContinuation || opCode == opCodeText || opCode == opCodeBinary

def isControlOpCode (opCode : UInt8) : Bool :=
  opCode == opCodeClose || opCode == opCodePing || opCode == opCodePong

def isReservedOpCode (opCode : UInt8) : Bool :=
  !isNonControlOpCode opCode && !isControlOpCode opCode

def closeEventCodeNoStatusRcvd : ℕ := 1005
def closeEventCodeAbnormalClosure : ℕ := 1006
def closeEventCodeTLSHandshake : ℕ := 1015

inductive Call where
  | didReceiveMessage (message : String)
  | didReceiveBinaryData (data : List UInt8)
  | enqueueRawFrame (opCode : UInt8) (data : List UInt8)
  | didStartClosingHandshake
  | fail (reason : String)
  deriving DecidableEq, Repr

/-- The strings, and the decompression with its state: `inflate` has no result where the bytes
cannot be decompressed. -/
structure Environment (D : Type) where
  fromUTF8 : List UInt8 → Option String
  deflateEnabled : Bool
  inflate : D → List UInt8 → Option (List UInt8) × D
  reset : D → D

structure Session (D : Type) where
  shouldDiscardReceivedData : Bool
  receivedClosingHandshake : Bool
  closing : Bool
  hasContinuousFrame : Bool
  continuousFrameOpCode : UInt8
  continuousFrameData : List UInt8
  closeEventCode : ℕ
  closeEventReason : Option String
  deflateFramer : D
  calls : List Call

structure Receiver (D : Type) where
  session : Session D
  buffer : List UInt8

variable {D : Type} (env : Environment D)

def fail (reason : String) (session : Session D) : Receiver D where
  session := { session with
    shouldDiscardReceivedData := true
    hasContinuousFrame := false
    continuousFrameData := []
    deflateFramer := env.reset session.deflateFramer
    calls := session.calls ++ [.fail reason] }
  buffer := []

/-- `WebSocketDeflateFramer::inflate`. The payload of the frame ends with it. -/
def inflate (frame : WebSocketFrame) (framer : D) : Except String WebSocketFrame × D :=
  if !env.deflateEnabled && frame.compress then
    (.error "Compressed bit must be 0 if no negotiated deflate-frame extension", framer)
  else if !frame.compress then (.ok frame, framer)
  else if !isNonControlOpCode frame.opCode then
    (.error "Received unexpected compressed frame", framer)
  else match env.inflate framer frame.payload with
    | (none, framer) => (.error "Failed to decompress frame", framer)
    | (some data, framer) =>
      (.ok { frame with compress := false, payload := data, payloadLength := .ofNat data.length },
        framer)

/-- The reason for which a frame is refused. -/
def validate (hasContinuousFrame : Bool) (frame : WebSocketFrame) : Option String :=
  let number (bit : Bool) : String := if bit then "1" else "0"
  if isReservedOpCode frame.opCode then
    some ("Unrecognized frame opcode: " ++ toString frame.opCode.toNat)
  else if frame.reserved2 || frame.reserved3 then
    some ("One or more reserved bits are on: reserved2 = " ++ number frame.reserved2 ++
      ", reserved3 = " ++ number frame.reserved3)
  else if frame.masked then
    some "A server must not mask any frames that it sends to the client."
  else if isControlOpCode frame.opCode && !frame.final then
    some ("Received fragmented control frame: opcode = " ++ toString frame.opCode.toNat)
  else if isControlOpCode frame.opCode &&
      frame.payloadLength > maxPayloadLengthWithoutExtendedLengthField then
    some ("Received control frame having too long payload: " ++
      toString frame.payloadLength.toNat ++ " bytes")
  else if hasContinuousFrame && frame.opCode != opCodeContinuation &&
      !isControlOpCode frame.opCode then
    some "Received new data frame but previous continuous frame is unfinished."
  else none

/-- The calls for a whole message. -/
def message (opCode : UInt8) (payload : List UInt8) : Except String (List Call) :=
  if opCode = opCodeText then
    match if payload.isEmpty then some "" else env.fromUTF8 payload with
    | none => .error "Could not decode a text frame as UTF-8."
    | some text => .ok [.didReceiveMessage text]
  else .ok (if opCode = opCodeBinary then [.didReceiveBinaryData payload] else [])

def deliver (opCode : UInt8) (payload : List UInt8) (session : Session D) :
    Option String × Session D :=
  match message env opCode payload with
  | .error reason => (some reason, session)
  | .ok calls => (none, { session with calls := session.calls ++ calls })

/-- An empty frame answers the one of the server, unless the client has closed the channel. -/
def startClosingHandshake (session : Session D) : Session D :=
  if session.closing then session
  else { session with
    closing := true
    calls := session.calls ++ [.enqueueRawFrame opCodeClose [], .didStartClosingHandshake] }

def receiveClose (payload : List UInt8) (session : Session D) : Option String × Session D :=
  let close (code : ℕ) (reason : Option String) : Session D :=
    startClosingHandshake { session with
      closeEventCode := code, closeEventReason := reason, receivedClosingHandshake := true }
  let broken := { session with closeEventCode := closeEventCodeAbnormalClosure }
  match payload with
  | [] => (none, close closeEventCodeNoStatusRcvd (some ""))
  | [_] => (some "Received a broken close frame containing an invalid size body.", broken)
  | highByte :: lowByte :: reason =>
    let code := highByte.toNat <<< 8 ||| lowByte.toNat
    if code = closeEventCodeNoStatusRcvd ∨ code = closeEventCodeAbnormalClosure ∨
        code = closeEventCodeTLSHandshake then
      (some "Received a broken close frame containing a reserved status code.", broken)
    else (none, close code (if reason.isEmpty then some "" else env.fromUTF8 reason))

/-- The branches on the opcode, with the reason for which they fail. -/
def dispatch (frame : WebSocketFrame) (session : Session D) : Option String × Session D :=
  if frame.opCode = opCodeContinuation then
    if !session.hasContinuousFrame then (some "Received unexpected continuation frame.", session)
    else
      let data := session.continuousFrameData ++ frame.payload
      if frame.final then deliver env session.continuousFrameOpCode data
        { session with hasContinuousFrame := false, continuousFrameData := [] }
      else (none, { session with continuousFrameData := data })
  else if frame.opCode = opCodeText ∨ frame.opCode = opCodeBinary then
    if frame.final then deliver env frame.opCode frame.payload session
    else (none, { session with
      hasContinuousFrame := true
      continuousFrameOpCode := frame.opCode
      continuousFrameData := session.continuousFrameData ++ frame.payload })
  else if frame.opCode = opCodeClose then receiveClose env frame.payload session
  else if frame.opCode = opCodePing then
    (none, { session with
      calls := session.calls ++ [.enqueueRawFrame opCodePong frame.payload] })
  else (none, session)

def receiveFrame (frame : WebSocketFrame) (session : Session D) : Option String × Session D :=
  match inflate env frame session.deflateFramer with
  | (.error reason, deflateFramer) => (some reason, { session with deflateFramer })
  | (.ok frame, deflateFramer) =>
    match validate session.hasContinuousFrame frame with
    | some reason => (some reason, { session with deflateFramer })
    | none => dispatch env frame { session with deflateFramer }

/-- What is left when a frame has been taken from the front of a buffer. The context of the
decompression is reset at the end. -/
def takeFrame (frame : WebSocketFrame) (rest : List UInt8) (session : Session D) : Receiver D :=
  let receiver : Receiver D := match receiveFrame env frame session with
    | (some reason, session) => fail env reason session
    | (none, session) => ⟨session, rest⟩
  { receiver with session := { receiver.session with
    deflateFramer := env.reset receiver.session.deflateFramer } }

def processFrame (receiver : Receiver D) : Except Failure (Bool × Receiver D) := do
  let (result, state) ← parseFrame
    ⟨receiver.buffer, ⟨opCodeInvalid, false, false, false, false, false, [], 0⟩, 0, ""⟩
  match result with
  | .frameIncomplete => pure (false, { receiver with buffer := state.data })
  | .frameError => pure (false, fail env state.errorString receiver.session)
  | .frameOK =>
    let payload ← bytesOf state.frame.payload state.frame.payloadLength
    let receiver := takeFrame env { state.frame with payload } (state.data.drop state.frameEnd)
      receiver.session
    pure (!receiver.buffer.isEmpty, receiver)

def processBuffer (receiver : Receiver D) : Except Failure (Bool × Receiver D) :=
  if receiver.session.shouldDiscardReceivedData then pure (false, receiver)
  else if receiver.session.receivedClosingHandshake then
    pure (false, { receiver with buffer := [] })
  else processFrame env receiver

/-- `processing`: the loop over the frames runs. -/
structure WebSocketChannel (D : Type) where
  receiver : Receiver D
  suspended : Bool
  resumeTimer : Bool
  processing : Bool

/-- `processBuffer` is one turn of the loop; the client may suspend the channel between two. Without
a first byte a chunk is no data: the source disconnects. -/
inductive Event where
  | didReceiveSocketStreamData (byte : UInt8) (bytes : List UInt8)
  | processBuffer
  | suspend
  | resume
  | resumeTimerFired

def appendToBuffer (data : List UInt8) (receiver : Receiver D) : Option (Receiver D) :=
  if (receiver.buffer.length + data.length) % 2 ^ 64 < receiver.buffer.length then none
  else some { receiver with buffer := receiver.buffer ++ data }

def step (channel : WebSocketChannel D) : Event → Except Failure (WebSocketChannel D)
  | .didReceiveSocketStreamData byte bytes =>
    if channel.receiver.session.shouldDiscardReceivedData then pure channel
    else match appendToBuffer (byte :: bytes) channel.receiver with
      | none =>
        let receiver :=
          fail env "Ran out of memory while receiving WebSocket data." channel.receiver.session
        pure { channel with receiver }
      | some receiver => pure { channel with receiver, processing := true }
  | .processBuffer =>
    if !channel.processing || channel.suspended || channel.receiver.buffer.isEmpty then
      pure { channel with processing := false }
    else do
      let (processing, receiver) ← processBuffer env channel.receiver
      pure { channel with receiver, processing }
  | .suspend => pure { channel with suspended := true }
  | .resume => pure { channel with
      suspended := false
      resumeTimer := channel.resumeTimer || !channel.receiver.buffer.isEmpty }
  | .resumeTimerFired =>
    pure (if channel.resumeTimer then { channel with resumeTimer := false, processing := true }
      else channel)

end WebKit.WebSockets
