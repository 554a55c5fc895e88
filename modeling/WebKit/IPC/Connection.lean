import Mathlib.Data.List.Basic

/-!
# Connections that share a client run loop

A `Connection` has a receive queue of its own. The client thread runs the functions of its run
loop, and these may wait for a message or send a synchronous one, from inside a message handler
too. What comes in while the client thread waits for a reply goes through a `SyncMessageState`
that all connections of the run loop share, with one semaphore.

The parties are the receive queues and the client thread. A step is a section under one mutex
with the code up to the next one, so that other parties may step between any two sections. The
client thread is a stack of `Frame`s, one for every call that is not finished.
-/

namespace WebKit.IPC

/-- A decoded message; `serial` tells apart messages with the same contents. -/
structure MessageDecoder where
  serial : ℕ
  messageReceiverName : String
  messageName : String
  destinationID : ℕ
  isSyncMessage : Bool
  shouldDispatchMessageWhenWaitingForSyncReply : Bool
  deriving DecidableEq, Repr

namespace MessageDecoder

def isSyncMessageReply (message : MessageDecoder) : Bool :=
  message.messageReceiverName = "IPC" && message.messageName = "SyncMessageReply"

end MessageDecoder

/-- What `waitForMessage` waits for. -/
structure MessageRequest where
  messageReceiverName : String
  messageName : String
  destinationID : ℕ
  interruptWaitingIfSyncMessageArrives : Bool
  deriving DecidableEq, Repr

def MessageRequest.matches (request : MessageRequest) (message : MessageDecoder) : Bool :=
  message.messageReceiverName = request.messageReceiverName &&
    message.messageName = request.messageName && message.destinationID = request.destinationID

structure WaitForMessageState where
  request : MessageRequest
  messageWaitingInterrupted : Bool
  decoder : Option MessageDecoder
  deriving DecidableEq, Repr

structure PendingSyncReply where
  syncRequestID : ℕ
  replyDecoder : Option MessageDecoder
  didReceiveReply : Bool
  deriving DecidableEq, Repr

/-! ## The parties -/

/-- How far the receive queue of a connection is with a message. -/
inductive ReceiveQueue
  | idle
  /-- The message is in the queue of the `SyncMessageState`; `wakeUpClientRunLoop` comes next. -/
  | wakingUp
  | checkingWaiter (message : MessageDecoder)
  | enqueueing (message : MessageDecoder)
  /-- `connectionDidClose` has let go of the sync replies. -/
  | closing
  | closed
  deriving DecidableEq, Repr

structure Connection where
  /-- `m_client` is not null. -/
  isValid : Bool
  incomingMessages : List MessageDecoder
  waitingForMessage : Option WaitForMessageState
  /-- The last request comes first. -/
  pendingSyncReplies : List PendingSyncReply
  shouldWaitForSyncReplies : Bool
  receiveQueue : ReceiveQueue
  deriving DecidableEq, Repr

def Connection.initial : Connection where
  isValid := true
  incomingMessages := []
  waitingForMessage := none
  pendingSyncReplies := []
  shouldWaitForSyncReplies := true
  receiveQueue := .idle

variable {ι : Type} [DecidableEq ι]

structure SyncMessageState (ι : Type) where
  waitForSyncReplySemaphore : Bool
  didScheduleDispatchMessagesWorkSet : List ι
  messagesToDispatchWhileWaitingForSyncReply : List (ι × MessageDecoder)
  deriving DecidableEq, Repr

def SyncMessageState.initial : SyncMessageState ι where
  waitForSyncReplySemaphore := false
  didScheduleDispatchMessagesWorkSet := []
  messagesToDispatchWhileWaitingForSyncReply := []

/-- A function that is dispatched to the client run loop. -/
inductive RunLoopFunction (ι : Type)
  | dispatchOneMessage (connection : ι)
  | dispatchMessageAndResetDidScheduleDispatchMessagesForConnection (connection : ι)
  | dispatchConnectionDidClose (connection : ι)
  deriving DecidableEq, Repr

/-- Where `waitForMessage` is. -/
inductive WaitPhase
  | checkQueue
  | register
  /-- At the head of the loop. -/
  | checkDecoder
  /-- In `wait_for`. -/
  | waiting
  /-- After the loop. -/
  | giveUp
  deriving DecidableEq, Repr

/-- Where `waitForSyncReply` is. -/
inductive SyncPhase
  /-- `dispatchMessages` has been called and has returned if nothing is above this frame. -/
  | dispatched
  | checkValid
  /-- In `SyncMessageState::wait`. -/
  | wait
  /-- The run loop runs inside `waitForSyncReply`. -/
  | spin
  /-- It has a result. -/
  | finish (reply : Option MessageDecoder)
  deriving DecidableEq, Repr

/-- A call on the stack of the client thread. -/
inductive Frame (ι : Type)
  /-- Code of a client: a message handler, or a function of the run loop. -/
  | client
  /-- `SyncMessageState::dispatchMessages` before it takes the messages. -/
  | dispatchMessages (allowedConnection : Option ι)
  /-- The loop of `dispatchMessages`. -/
  | dispatching (allowedConnection : Option ι) (messages putBack : List (ι × MessageDecoder))
  | waitForMessage (connection : ι) (request : MessageRequest) (phase : WaitPhase)
  | sendSyncMessage (connection : ι) (syncRequestID : ℕ) (spin : Bool) (phase : SyncPhase)
  deriving DecidableEq, Repr

/-- What a finished `sendSyncMessage` returned. -/
structure SyncResult (ι : Type) where
  connection : ι
  syncRequestID : ℕ
  reply : Option MessageDecoder
  deriving DecidableEq, Repr

structure ConnectionSystem (ι : Type) where
  connections : ι → Connection
  syncMessageState : SyncMessageState ι
  clientRunLoop : List (RunLoopFunction ι)
  /-- The innermost call comes first. -/
  frames : List (Frame ι)
  /-- The number of messages so far. -/
  received : ℕ
  /-- The messages that receive queues have handed over. -/
  arrived : List (ι × MessageDecoder)
  /-- The messages that were dispatched to a client or returned by `waitForMessage`. -/
  delivered : List (ι × MessageDecoder)
  returned : List (SyncResult ι)

namespace ConnectionSystem

def initial : ConnectionSystem ι where
  connections := fun _ => .initial
  syncMessageState := .initial
  clientRunLoop := []
  frames := []
  received := 0
  arrived := []
  delivered := []
  returned := []

variable (s : ConnectionSystem ι) (c : ι)

def setConnection (connection : Connection) : ConnectionSystem ι :=
  { s with connections := Function.update s.connections c connection }

theorem connections_setConnection (connection : Connection) (c' : ι) :
    (s.setConnection c connection).connections c' =
      if c' = c then connection else s.connections c' :=
  Function.update_apply _ _ _ _

/-- `RunLoop::dispatch` -/
def dispatch (function : RunLoopFunction ι) : ConnectionSystem ι :=
  { s with clientRunLoop := s.clientRunLoop ++ [function] }

def wakeUpClientRunLoop : ConnectionSystem ι :=
  { s with syncMessageState := { s.syncMessageState with waitForSyncReplySemaphore := true } }

/-! ## The receive queue -/

/-- The reply goes to the innermost request with its identifier. The flag says whether that is
the last one. -/
def fillReply (message : MessageDecoder) :
    List PendingSyncReply → Option (Bool × List PendingSyncReply)
  | [] => none
  | pendingSyncReply :: rest =>
    if pendingSyncReply.syncRequestID = message.destinationID then
      some (true, { pendingSyncReply with replyDecoder := some message, didReceiveReply := true }
        :: rest)
    else (fillReply message rest).map fun r => (false, pendingSyncReply :: r.2)

/-- A reply that no request waits for is ignored. -/
def processIncomingSyncReply (message : MessageDecoder) : ConnectionSystem ι :=
  match fillReply message (s.connections c).pendingSyncReplies with
  | none => s
  | some (isLast, pendingSyncReplies) =>
    let s := s.setConnection c { s.connections c with pendingSyncReplies }
    if isLast then s.wakeUpClientRunLoop else s

/-- `SyncMessageState::processIncomingMessage` up to the end of its section. -/
def appendSyncMessage (message : MessageDecoder) : ConnectionSystem ι :=
  let workSet := s.syncMessageState.didScheduleDispatchMessagesWorkSet
  let s :=
    if c ∈ workSet then s
    else
      { s with
        syncMessageState :=
          { s.syncMessageState with didScheduleDispatchMessagesWorkSet := workSet ++ [c] } }.dispatch
        (.dispatchMessageAndResetDidScheduleDispatchMessagesForConnection c)
  { s with
    syncMessageState :=
      { s.syncMessageState with
        messagesToDispatchWhileWaitingForSyncReply :=
          s.syncMessageState.messagesToDispatchWhileWaitingForSyncReply ++ [(c, message)] }
    arrived := s.arrived ++ [(c, message)] }

/-- `Connection::processIncomingMessage` up to its first section. -/
def processIncomingMessage (message : MessageDecoder) : ConnectionSystem ι :=
  let message := { message with serial := s.received }
  let s := { s with received := s.received + 1 }
  if message.isSyncMessageReply then s.processIncomingSyncReply c message
  else if message.shouldDispatchMessageWhenWaitingForSyncReply then
    let s := s.appendSyncMessage c message
    s.setConnection c { s.connections c with receiveQueue := .wakingUp }
  else s.setConnection c { s.connections c with receiveQueue := .checkingWaiter message }

/-- The section of `processIncomingMessage` that looks at the waiter. -/
def checkWaiter (message : MessageDecoder) : ConnectionSystem ι :=
  let connection := s.connections c
  match connection.waitingForMessage with
  | none => s.setConnection c { connection with receiveQueue := .enqueueing message }
  | some waiting =>
    if waiting.request.matches message then
      { s.setConnection c
          { connection with
            waitingForMessage := some { waiting with decoder := some message }
            receiveQueue := .idle } with
        arrived := s.arrived ++ [(c, message)] }
    else if waiting.request.interruptWaitingIfSyncMessageArrives && message.isSyncMessage then
      s.setConnection c
        { connection with
          waitingForMessage := some { waiting with messageWaitingInterrupted := true }
          receiveQueue := .enqueueing message }
    else s.setConnection c { connection with receiveQueue := .enqueueing message }

def enqueueIncomingMessage (message : MessageDecoder) : ConnectionSystem ι :=
  let connection := s.connections c
  { s.setConnection c
      { connection with
        incomingMessages := connection.incomingMessages ++ [message]
        receiveQueue := .idle } with
    arrived := s.arrived ++ [(c, message)] }.dispatch (.dispatchOneMessage c)

/-- `connectionDidClose` up to the end of its first section. -/
def connectionDidClose : ConnectionSystem ι :=
  let connection := s.connections c
  let s := s.setConnection c
    { connection with shouldWaitForSyncReplies := false, receiveQueue := .closing }
  if connection.pendingSyncReplies ≠ [] then s.wakeUpClientRunLoop else s

/-- The rest of `connectionDidClose`. -/
def interruptWaiter : ConnectionSystem ι :=
  let connection := s.connections c
  (s.setConnection c
    { connection with
      waitingForMessage :=
        connection.waitingForMessage.map fun w => { w with messageWaitingInterrupted := true }
      receiveQueue := .closed }).dispatch (.dispatchConnectionDidClose c)

/-- The next section of a receive queue. -/
def receiveQueueStep : Option (ConnectionSystem ι) :=
  match (s.connections c).receiveQueue with
  | .idle => none
  | .wakingUp =>
    some (s.wakeUpClientRunLoop.setConnection c { s.connections c with receiveQueue := .idle })
  | .checkingWaiter message => some (s.checkWaiter c message)
  | .enqueueing message => some (s.enqueueIncomingMessage c message)
  | .closing => some (s.interruptWaiter c)
  | .closed => none

/-! ## The client thread -/

/-- `Connection::dispatchMessage`: the client's handler runs, if there is a client. -/
def dispatchMessage (message : MessageDecoder) : ConnectionSystem ι :=
  if (s.connections c).isValid then
    { s with delivered := s.delivered ++ [(c, message)], frames := .client :: s.frames }
  else s

def dispatchOneMessage : ConnectionSystem ι :=
  match (s.connections c).incomingMessages with
  | [] => s
  | message :: rest =>
    (s.setConnection c { s.connections c with incomingMessages := rest }).dispatchMessage c message

/-- The client thread takes a function from the run loop. -/
def callFunction : RunLoopFunction ι → ConnectionSystem ι
  | .dispatchOneMessage c => s.dispatchOneMessage c
  | .dispatchMessageAndResetDidScheduleDispatchMessagesForConnection c =>
    { s with
      syncMessageState :=
        { s.syncMessageState with
          didScheduleDispatchMessagesWorkSet :=
            s.syncMessageState.didScheduleDispatchMessagesWorkSet.erase c }
      frames := .dispatchMessages (some c) :: s.frames }
  | .dispatchConnectionDidClose c =>
    if (s.connections c).isValid then
      { s.setConnection c { s.connections c with isValid := false } with
        frames := .client :: s.frames }
    else s

/-- The first section of `dispatchMessages` takes all messages. -/
def swapMessages (allowedConnection : Option ι) (frames : List (Frame ι)) : ConnectionSystem ι :=
  { s with
    syncMessageState :=
      { s.syncMessageState with messagesToDispatchWhileWaitingForSyncReply := [] }
    frames := .dispatching allowedConnection
      s.syncMessageState.messagesToDispatchWhileWaitingForSyncReply [] :: frames }

/-- The last section of `dispatchMessages` puts messages of other connections back. -/
def putBackMessages (putBack : List (ι × MessageDecoder)) (frames : List (Frame ι)) :
    ConnectionSystem ι :=
  { s with
    syncMessageState :=
      { s.syncMessageState with
        messagesToDispatchWhileWaitingForSyncReply :=
          s.syncMessageState.messagesToDispatchWhileWaitingForSyncReply ++ putBack }
    frames }

/-- One iteration of the loop of `dispatchMessages`. -/
def dispatchNext (allowedConnection : Option ι) (message : ι × MessageDecoder)
    (messages putBack : List (ι × MessageDecoder)) (frames : List (Frame ι)) :
    ConnectionSystem ι :=
  if allowedConnection = none ∨ allowedConnection = some message.1 then
    { s with frames := .dispatching allowedConnection messages putBack :: frames }.dispatchMessage
      message.1 message.2
  else
    { s with frames := .dispatching allowedConnection messages (putBack ++ [message]) :: frames }

/-- `waitForMessage` has found its message. -/
def returnMessage (message : MessageDecoder) (frames : List (Frame ι)) : ConnectionSystem ι :=
  { s with delivered := s.delivered ++ [(c, message)], frames }

/-- The next section of `waitForMessage`. -/
def waitForMessageStep (request : MessageRequest) (frames : List (Frame ι)) :
    WaitPhase → Option (ConnectionSystem ι)
  | .checkQueue =>
    let connection := s.connections c
    match connection.incomingMessages.find? request.matches with
    | some message =>
      some ((s.setConnection c
        { connection with
          incomingMessages := connection.incomingMessages.erase message }).returnMessage
          c message frames)
    | none =>
      if connection.incomingMessages.any MessageDecoder.isSyncMessage &&
          request.interruptWaitingIfSyncMessageArrives then
        some { s.setConnection c { connection with waitingForMessage := none } with frames }
      else some { s with frames := .waitForMessage c request .register :: frames }
  | .register =>
    some { s.setConnection c
        { s.connections c with waitingForMessage := some ⟨request, false, none⟩ } with
      frames := .waitForMessage c request .checkDecoder :: frames }
  | .checkDecoder =>
    match (s.connections c).waitingForMessage.bind WaitForMessageState.decoder with
    | some message =>
      some ((s.setConnection c { s.connections c with waitingForMessage := none }).returnMessage
        c message frames)
    | none => some { s with frames := .waitForMessage c request .waiting :: frames }
  | .waiting => none
  | .giveUp =>
    some { s.setConnection c { s.connections c with waitingForMessage := none } with frames }

/-- `wait_for` returns, with or without a notification. -/
def wakeWaiter (timeout : Bool) : Option (ConnectionSystem ι) :=
  match s.frames with
  | .waitForMessage c request .waiting :: frames =>
    let interrupted :=
      ((s.connections c).waitingForMessage.map
        WaitForMessageState.messageWaitingInterrupted).getD false
    let phase := if timeout || interrupted then WaitPhase.giveUp else .checkDecoder
    some { s with frames := .waitForMessage c request phase :: frames }
  | _ => none

/-- `sendSyncMessage` up to the end of its first section, and the call of `dispatchMessages` in
the first iteration of `waitForSyncReply`. -/
def sendSyncMessage (syncRequestID : ℕ) (spin : Bool) : ConnectionSystem ι :=
  let connection := s.connections c
  if !connection.isValid || !connection.shouldWaitForSyncReplies then
    { s with returned := s.returned ++ [⟨c, syncRequestID, none⟩] }
  else
    { s.setConnection c
        { connection with
          pendingSyncReplies := ⟨syncRequestID, none, false⟩ :: connection.pendingSyncReplies } with
      frames := .dispatchMessages none :: .sendSyncMessage c syncRequestID spin .dispatched ::
        s.frames }

/-- The loop of `waitForSyncReply` begins again. -/
def nextIteration (syncRequestID : ℕ) (spin : Bool) (frames : List (Frame ι)) :
    ConnectionSystem ι :=
  { s with
    frames := .dispatchMessages none :: .sendSyncMessage c syncRequestID spin .dispatched :: frames }

/-- The next section of `waitForSyncReply`, or the last one of `sendSyncMessage`. -/
def sendSyncMessageStep (syncRequestID : ℕ) (spin : Bool) (frames : List (Frame ι)) :
    SyncPhase → Option (ConnectionSystem ι)
  | .dispatched =>
    match (s.connections c).pendingSyncReplies with
    | [] => none
    | pendingSyncReply :: _ =>
      let phase :=
        if pendingSyncReply.didReceiveReply || !(s.connections c).shouldWaitForSyncReplies then
          SyncPhase.finish pendingSyncReply.replyDecoder
        else .checkValid
      some { s with frames := .sendSyncMessage c syncRequestID spin phase :: frames }
  | .checkValid =>
    let phase :=
      if !(s.connections c).isValid then SyncPhase.finish none
      else if spin then .spin
      else .wait
    some { s with frames := .sendSyncMessage c syncRequestID spin phase :: frames }
  | .wait => none
  | .spin => none
  | .finish reply =>
    some { s.setConnection c
        { s.connections c with
          pendingSyncReplies := (s.connections c).pendingSyncReplies.tail } with
      frames
      returned := s.returned ++ [⟨c, syncRequestID, reply⟩] }

/-- The client thread goes on with its innermost call. -/
def clientStep : Option (ConnectionSystem ι) :=
  match s.frames with
  | .dispatchMessages allowedConnection :: frames => some (s.swapMessages allowedConnection frames)
  | .dispatching allowedConnection (message :: messages) putBack :: frames =>
    some (s.dispatchNext allowedConnection message messages putBack frames)
  | .dispatching _ [] putBack :: frames => some (s.putBackMessages putBack frames)
  | .waitForMessage c request phase :: frames => s.waitForMessageStep c request frames phase
  | .sendSyncMessage c syncRequestID spin phase :: frames =>
    s.sendSyncMessageStep c syncRequestID spin frames phase
  | _ => none

/-- `SyncMessageState::wait` returns; it has reset the semaphore unless it timed out. -/
def wakeSender (timedOut : Bool) : Option (ConnectionSystem ι) :=
  match s.frames with
  | .sendSyncMessage c syncRequestID spin .wait :: frames =>
    if timedOut then
      some { s with frames := .sendSyncMessage c syncRequestID spin (.finish none) :: frames }
    else if s.syncMessageState.waitForSyncReplySemaphore then
      some ({ s with
        syncMessageState :=
          { s.syncMessageState with waitForSyncReplySemaphore := false } }.nextIteration
        c syncRequestID spin frames)
    else none
  | _ => none

/-- The run loop inside `waitForSyncReply` returns. -/
def stopSpinning (timedOut : Bool) : Option (ConnectionSystem ι) :=
  match s.frames with
  | .sendSyncMessage c syncRequestID spin .spin :: frames =>
    if timedOut then
      some { s with frames := .sendSyncMessage c syncRequestID spin (.finish none) :: frames }
    else some (s.nextIteration c syncRequestID spin frames)
  | _ => none

/-- The run loop runs at the bottom of the stack, or inside `waitForSyncReply`. -/
def isInRunLoop : Bool :=
  match s.frames with
  | [] => true
  | .sendSyncMessage _ _ _ .spin :: _ => true
  | _ => false

/-- The run loop runs the first function of its queue. -/
def performWork : Option (ConnectionSystem ι) :=
  match s.isInRunLoop, s.clientRunLoop with
  | true, function :: rest => some ({ s with clientRunLoop := rest }.callFunction function)
  | _, _ => none

/-- What the code of a client may do. -/
inductive ClientAction (ι : Type)
  | return
  | invalidate (connection : ι)
  | waitForMessage (connection : ι) (request : MessageRequest)
  | sendSyncMessage (connection : ι) (syncRequestID : ℕ) (spin : Bool)
  deriving DecidableEq, Repr

def clientAction (action : ClientAction ι) : Option (ConnectionSystem ι) :=
  match s.frames with
  | .client :: frames =>
    match action with
    | .return => some { s with frames }
    | .invalidate c => some (s.setConnection c { s.connections c with isValid := false })
    | .waitForMessage c request =>
      some { s with frames := .waitForMessage c request .checkQueue :: s.frames }
    | .sendSyncMessage c syncRequestID spin => some (s.sendSyncMessage c syncRequestID spin)
  | _ => none

inductive Label (ι : Type)
  /-- A message comes in. -/
  | receive (connection : ι) (message : MessageDecoder)
  | connectionDidClose (connection : ι)
  | receiveQueueStep (connection : ι)
  | performWork
  /-- The run loop runs some other function. -/
  | runClient
  | clientAction (action : ClientAction ι)
  | clientStep
  | wakeWaiter (timeout : Bool)
  | wakeSender (timedOut : Bool)
  | stopSpinning (timedOut : Bool)
  deriving DecidableEq, Repr

def step : Label ι → Option (ConnectionSystem ι)
  | .receive c message =>
    if (s.connections c).receiveQueue = .idle then some (s.processIncomingMessage c message)
    else none
  | .connectionDidClose c =>
    if (s.connections c).receiveQueue = .idle then some (s.connectionDidClose c) else none
  | .receiveQueueStep c => s.receiveQueueStep c
  | .performWork => s.performWork
  | .runClient => if s.isInRunLoop then some { s with frames := .client :: s.frames } else none
  | .clientAction action => s.clientAction action
  | .clientStep => s.clientStep
  | .wakeWaiter timeout => s.wakeWaiter timeout
  | .wakeSender timedOut => s.wakeSender timedOut
  | .stopSpinning timedOut => s.stopSpinning timedOut

end ConnectionSystem

end WebKit.IPC
