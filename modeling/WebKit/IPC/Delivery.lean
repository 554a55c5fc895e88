import WebKit.IPC.Connection
import WebKit.Transition.Run
import Mathlib.Data.List.Count
import Mathlib.Data.List.Nodup

/-!
# Every message is delivered once

A message that has arrived is in the incoming queue, in the queue of the `SyncMessageState`, in
the slot of a waiter, or it has been delivered, and it is there once (`Delivery`). A step moves
it from one of these places to another, with three exceptions (`Keeps`). A waiter that gives up
drops what the receive queue has just put into its slot; a second message that matches replaces
the first one in the slot; and a dispatch that runs inside another one finds the queue empty,
because the outer one holds the messages that it will put back.
-/

namespace WebKit.IPC

open Transition List

variable {ι : Type} [DecidableEq ι]

/-- The messages a call of `dispatchMessages` holds. -/
def Frame.messages : Frame ι → List (ι × MessageDecoder)
  | .dispatching _ messages putBack => messages ++ putBack
  | _ => []

/-- Those of them that it will not dispatch. -/
def Frame.messagesToPutBack : Frame ι → List (ι × MessageDecoder)
  | .dispatching allowedConnection messages putBack =>
    putBack ++ messages.filter fun message =>
      allowedConnection ≠ none ∧ allowedConnection ≠ some message.1
  | _ => []

/-- What the waiter has been given. -/
def Connection.slot (connection : Connection) : List MessageDecoder :=
  (connection.waitingForMessage.bind WaitForMessageState.decoder).toList

/-- Where a message can be. -/
inductive Place
  | incomingQueue
  | syncQueue
  | waiter
  | delivered
  deriving DecidableEq, Repr

/-- The message a receive queue has in hand. -/
def ReceiveQueue.message? : ReceiveQueue → Option MessageDecoder
  | .checkingWaiter message => some message
  | .enqueueing message => some message
  | _ => none

namespace ConnectionSystem

/-- How often a message is at a place. A running dispatch holds part of the sync queue. -/
def occurrences (s : ConnectionSystem ι) (c : ι) (message : MessageDecoder) : Place → ℕ
  | .incomingQueue => (s.connections c).incomingMessages.count message
  | .syncQueue =>
    (s.syncMessageState.messagesToDispatchWhileWaitingForSyncReply ++
      s.frames.flatMap Frame.messages).count (c, message)
  | .waiter => (s.connections c).slot.count message
  | .delivered => s.delivered.count (c, message)

/-- What is asked of a state: an arrived message of an open connection is at one place, and
something will fetch it from a queue. -/
structure Delivery (s : ConnectionSystem ι) : Prop where
  once : ∀ p ∈ s.arrived, (s.connections p.1).isValid = true →
    ∃ place, s.occurrences p.1 p.2 place = 1 ∧
      ∀ place', place' ≠ place → s.occurrences p.1 p.2 place' = 0
  incoming_scheduled : ∀ c,
    (s.connections c).incomingMessages.length ≤ s.clientRunLoop.count (.dispatchOneMessage c)
  sync_scheduled : ∀ p ∈ s.syncMessageState.messagesToDispatchWhileWaitingForSyncReply,
    .dispatchMessageAndResetDidScheduleDispatchMessagesForConnection p.1 ∈ s.clientRunLoop ∨
      ∃ allowedConnection frames, s.frames = .dispatchMessages allowedConnection :: frames ∧
        (allowedConnection = none ∨ allowedConnection = some p.1)

/-- The step does not lose a message: no waiter drops or overwrites what is in its slot, and no
dispatch for a connection begins inside one that holds messages of it to be put back. -/
def Keeps (s : ConnectionSystem ι) : Label ι → Prop
  | .receiveQueueStep c =>
    ∀ message waiting, (s.connections c).receiveQueue = .checkingWaiter message →
      (s.connections c).waitingForMessage = some waiting →
      waiting.request.matches message = true → waiting.decoder = none
  | .clientStep =>
    ∀ c request frames, s.frames = .waitForMessage c request .giveUp :: frames →
      (s.connections c).slot = []
  | .performWork =>
    ∀ c rest, s.clientRunLoop =
        .dispatchMessageAndResetDidScheduleDispatchMessagesForConnection c :: rest →
      ∀ frame ∈ s.frames, ∀ p ∈ frame.messagesToPutBack, p.1 ≠ c
  | _ => True

/-- The messages that are not kept in a connection. -/
def shared (s : ConnectionSystem ι) : List (ι × MessageDecoder) :=
  s.syncMessageState.messagesToDispatchWhileWaitingForSyncReply ++
    s.frames.flatMap Frame.messages ++ s.delivered

/-- How often a message is anywhere. -/
def total (s : ConnectionSystem ι) (c : ι) (message : MessageDecoder) : ℕ :=
  (s.connections c).incomingMessages.count message + (s.connections c).slot.count message +
    s.shared.count (c, message)

/-- No message is lost or doubled, and what will fetch the messages from the queues has been
scheduled. -/
structure Accounted (s : ConnectionSystem ι) : Prop where
  total_eq : ∀ c, (s.connections c).isValid = true → ∀ message,
    s.total c message = s.arrived.count (c, message)
  arrived_nodup : s.arrived.Nodup
  arrived_lt : ∀ p ∈ s.arrived, p.2.serial < s.received
  inHand_lt : ∀ c message, (s.connections c).receiveQueue.message? = some message →
    message.serial < s.received
  inHand_new : ∀ c message, (s.connections c).receiveQueue.message? = some message →
    (c, message) ∉ s.arrived
  waiter_running : ∀ c, (s.connections c).waitingForMessage ≠ none →
    ∃ request phase frames, s.frames = .waitForMessage c request phase :: frames ∧
      phase ≠ .checkQueue ∧ phase ≠ .register
  incoming_scheduled : ∀ c,
    (s.connections c).incomingMessages.length ≤ s.clientRunLoop.count (.dispatchOneMessage c)
  workSet_nodup : s.syncMessageState.didScheduleDispatchMessagesWorkSet.Nodup
  workSet_scheduled : ∀ c ∈ s.syncMessageState.didScheduleDispatchMessagesWorkSet,
    .dispatchMessageAndResetDidScheduleDispatchMessagesForConnection c ∈ s.clientRunLoop
  sync_scheduled : ∀ p ∈ s.syncMessageState.messagesToDispatchWhileWaitingForSyncReply,
    p.1 ∈ s.syncMessageState.didScheduleDispatchMessagesWorkSet ∨
      ∃ allowedConnection frames, s.frames = .dispatchMessages allowedConnection :: frames ∧
        (allowedConnection = none ∨ allowedConnection = some p.1)
  putBack_scheduled : ∀ frame ∈ s.frames, ∀ p ∈ frame.messagesToPutBack,
    p.1 ∈ s.syncMessageState.didScheduleDispatchMessagesWorkSet

variable {s : ConnectionSystem ι} {c : ι} {k : Connection} {message : MessageDecoder}

theorem accounted_initial : (initial : ConnectionSystem ι).Accounted := by
  constructor <;> simp [initial, Connection.initial, SyncMessageState.initial, total, shared,
    Connection.slot, ReceiveQueue.message?]

namespace Accounted

section

variable (h : s.Accounted)
include h

theorem setSemaphore (semaphore : Bool) : Accounted { s with syncMessageState :=
      { s.syncMessageState with waitForSyncReplySemaphore := semaphore } } :=
  { h with }

theorem wakeUpClientRunLoop : s.wakeUpClientRunLoop.Accounted :=
  h.setSemaphore true

theorem setReturned (returned : List (SyncResult ι)) :
    Accounted { s with returned } :=
  { h with }

theorem countReceived : Accounted { s with received := s.received + 1 } :=
  { h with
    arrived_lt := fun p hp => Nat.lt_succ_of_lt (h.arrived_lt p hp)
    inHand_lt := fun c message hm => Nat.lt_succ_of_lt (h.inHand_lt c message hm) }

theorem dispatch (function : RunLoopFunction ι) :
    (s.dispatch function).Accounted :=
  { h with
    incoming_scheduled := by
      intro c
      rw [ConnectionSystem.dispatch, count_append]
      exact Nat.le_trans (h.incoming_scheduled c) (Nat.le_add_right _ _)
    workSet_scheduled := fun c hc => mem_append_left _ (h.workSet_scheduled c hc) }

theorem deliver (extra : List MessageDecoder)
    (hvalid : k.isValid = true → (s.connections c).isValid = true)
    (hcount : k.isValid = true → ∀ message,
      k.incomingMessages.count message + k.slot.count message + extra.count message =
        (s.connections c).incomingMessages.count message + (s.connections c).slot.count message)
    (hinc : k.incomingMessages.length ≤ s.clientRunLoop.count (.dispatchOneMessage c))
    (hwaiter : k.waitingForMessage ≠ none → (s.connections c).waitingForMessage ≠ none ∨
      ∃ request phase frames, s.frames = .waitForMessage c request phase :: frames ∧
        phase ≠ .checkQueue ∧ phase ≠ .register)
    (hhand : ∀ message, k.receiveQueue.message? = some message →
      (s.connections c).receiveQueue.message? = some message ∨
        (message.serial < s.received ∧ (c, message) ∉ s.arrived)) :
    Accounted { s.setConnection c k with
      delivered := s.delivered ++ extra.map fun message => (c, message) } := by
  constructor
  · intro c' hc' message
    rw [connections_setConnection] at hc'
    have htotal := h.total_eq c'
    simp only [total, shared, count_append, connections_setConnection] at htotal ⊢
    split at hc'
    · rename_i heq
      subst heq
      have hextra : (extra.map fun message => (c', message)).count (c', message) =
          extra.count message :=
        count_map_of_injective _ _ (fun _ _ heq => (Prod.mk.inj heq).2) _
      have hmsg := hcount hc' message
      have hold := htotal (hvalid hc') message
      rw [if_pos rfl, hextra]
      dsimp only [ConnectionSystem.setConnection]
      omega
    · rename_i hne
      have hextra : (extra.map fun message => (c, message)).count (c', message) = 0 := by
        rw [count_eq_zero]
        intro hmem
        obtain ⟨message', -, heq⟩ := mem_map.mp hmem
        exact hne (Prod.mk.inj heq).1.symm
      rw [if_neg hne, hextra]
      exact htotal hc' message
  · exact h.arrived_nodup
  · exact h.arrived_lt
  · intro c' message hm
    rw [connections_setConnection] at hm
    split at hm
    · rcases hhand message hm with hm | hm
      · exact h.inHand_lt c message hm
      · exact hm.1
    · exact h.inHand_lt c' message hm
  · intro c' message hm
    rw [connections_setConnection] at hm
    split at hm
    · rename_i heq
      subst heq
      rcases hhand message hm with hm | hm
      · exact h.inHand_new c' message hm
      · exact hm.2
    · exact h.inHand_new c' message hm
  · intro c' hc'
    rw [connections_setConnection] at hc'
    split at hc'
    · rename_i heq
      subst heq
      exact (hwaiter hc').elim (h.waiter_running c') id
    · exact h.waiter_running c' hc'
  · intro c'
    rw [connections_setConnection]
    split
    · rename_i heq
      subst heq
      exact hinc
    · exact h.incoming_scheduled c'
  · exact h.workSet_nodup
  · exact h.workSet_scheduled
  · exact h.sync_scheduled
  · exact h.putBack_scheduled

theorem setConnection (hvalid : k.isValid = true → (s.connections c).isValid = true)
    (hinc : k.incomingMessages = (s.connections c).incomingMessages)
    (hslot : k.slot = (s.connections c).slot)
    (hwaiter : k.waitingForMessage ≠ none → (s.connections c).waitingForMessage ≠ none ∨
      ∃ request phase frames, s.frames = .waitForMessage c request phase :: frames ∧
        phase ≠ .checkQueue ∧ phase ≠ .register)
    (hhand : ∀ message, k.receiveQueue.message? = some message →
      (s.connections c).receiveQueue.message? = some message ∨
        (message.serial < s.received ∧ (c, message) ∉ s.arrived)) :
    (s.setConnection c k).Accounted := by
  have hdeliver := h.deliver [] hvalid (k := k) (c := c)
    (fun _ message => by rw [hinc, hslot, count_nil, Nat.add_zero])
    (hinc ▸ h.incoming_scheduled c) hwaiter hhand
  rwa [map_nil, append_nil] at hdeliver

theorem arrive (hhand : (s.connections c).receiveQueue.message? = some message)
    (hvalid : k.isValid = (s.connections c).isValid) (hk : k.receiveQueue = .idle)
    (hcount : ∀ message', k.incomingMessages.count message' + k.slot.count message' =
      (s.connections c).incomingMessages.count message' +
        (s.connections c).slot.count message' + [message].count message')
    (hinc : k.incomingMessages.length ≤ s.clientRunLoop.count (.dispatchOneMessage c))
    (hwaiter : k.waitingForMessage ≠ none → (s.connections c).waitingForMessage ≠ none) :
    Accounted { s.setConnection c k with arrived := s.arrived ++ [(c, message)] } := by
  constructor
  · intro c' hc' message'
    rw [connections_setConnection] at hc'
    have htotal := h.total_eq c'
    simp only [total, shared, count_append, connections_setConnection] at htotal ⊢
    split at hc'
    · rename_i heq
      subst heq
      have hone : [(c', message)].count (c', message') = [message].count message' := by
        rw [count_singleton, count_singleton]
        simp
      have hmsg := hcount message'
      have hold := htotal (hvalid ▸ hc') message'
      rw [if_pos rfl, hone]
      dsimp only [ConnectionSystem.setConnection]
      omega
    · rename_i hne
      have hzero : [(c, message)].count (c', message') = 0 := by
        rw [count_eq_zero, mem_singleton]
        exact fun heq => hne (Prod.mk.inj heq).1
      rw [if_neg hne, hzero]
      exact htotal hc' message'
  · exact nodup_append.mpr ⟨h.arrived_nodup, nodup_singleton _, fun p hp q hq => by
      obtain rfl := mem_singleton.mp hq
      rintro rfl
      exact h.inHand_new c message hhand hp⟩
  · intro p hp
    rcases mem_append.mp hp with hp | hp
    · exact h.arrived_lt p hp
    · obtain rfl := mem_singleton.mp hp
      exact h.inHand_lt c message hhand
  · intro c' message' hm
    rw [connections_setConnection] at hm
    split at hm
    · rw [hk] at hm
      cases hm
    · exact h.inHand_lt c' message' hm
  · intro c' message' hm
    rw [connections_setConnection] at hm
    split at hm
    · rw [hk] at hm
      cases hm
    · rename_i hne
      intro hp
      rcases mem_append.mp hp with hp | hp
      · exact h.inHand_new c' message' hm hp
      · exact hne (Prod.mk.inj (mem_singleton.mp hp)).1
  · intro c' hc'
    rw [connections_setConnection] at hc'
    split at hc'
    · rename_i heq
      subst heq
      exact h.waiter_running c' (hwaiter hc')
    · exact h.waiter_running c' hc'
  · intro c'
    rw [connections_setConnection]
    split
    · rename_i heq
      subst heq
      exact hinc
    · exact h.incoming_scheduled c'
  · exact h.workSet_nodup
  · exact h.workSet_scheduled
  · exact h.sync_scheduled
  · exact h.putBack_scheduled

theorem popFunction (function : RunLoopFunction ι)
    {rest : List (RunLoopFunction ι)} (hloop : s.clientRunLoop = function :: rest)
    (hone : ∀ c, function = .dispatchOneMessage c →
      (s.connections c).incomingMessages.length ≤ rest.count (.dispatchOneMessage c))
    (hreset : ∀ c, function = .dispatchMessageAndResetDidScheduleDispatchMessagesForConnection c →
      c ∉ s.syncMessageState.didScheduleDispatchMessagesWorkSet) :
    Accounted { s with clientRunLoop := rest } :=
  { h with
    incoming_scheduled := by
      intro c
      by_cases heq : function = .dispatchOneMessage c
      · exact hone c heq
      · have hle := h.incoming_scheduled c
        rw [hloop, count_cons_of_ne heq] at hle
        exact hle
    workSet_scheduled := by
      intro c hc
      have hmem := h.workSet_scheduled c hc
      rw [hloop] at hmem
      rcases mem_cons.mp hmem with heq | hmem
      · exact absurd hc (hreset c heq.symm)
      · exact hmem }

end

theorem messages_of_putBack {frame : Frame ι} {p : ι × MessageDecoder}
    (hp : p ∈ frame.messagesToPutBack) : p ∈ frame.messages := by
  cases frame with
  | dispatching allowedConnection messages putBack =>
    rcases mem_append.mp hp with hp | hp
    · exact mem_append_right _ hp
    · exact mem_append_left _ (mem_of_mem_filter hp)
  | client | dispatchMessages | waitForMessage | sendSyncMessage => exact hp

section

variable (h : s.Accounted)
include h

theorem waiter_eq {request : MessageRequest} {phase : WaitPhase}
    {frames : List (Frame ι)} (hframes : s.frames = .waitForMessage c request phase :: frames)
    {c' : ι} (hc' : (s.connections c').waitingForMessage ≠ none) :
    c' = c ∧ phase ≠ .checkQueue ∧ phase ≠ .register := by
  obtain ⟨request', phase', frames', heq, hphase⟩ := h.waiter_running c' hc'
  rw [hframes] at heq
  cases heq
  exact ⟨rfl, hphase⟩

theorem no_waiter
    (hframes : ∀ c request phase frames, s.frames ≠ .waitForMessage c request phase :: frames)
    (c : ι) : (s.connections c).waitingForMessage = none := by
  by_contra hne
  obtain ⟨request, phase, frames, heq, -⟩ := h.waiter_running c hne
  exact hframes c request phase frames heq

theorem setFrames (old new : List (Frame ι)) {rest : List (Frame ι)}
    (hframes : s.frames = old ++ rest) (hold : ∀ frame ∈ old, frame.messages = [])
    (hnew : ∀ frame ∈ new, frame.messages = [])
    (hhead : ∀ allowedConnection frames, s.frames ≠ .dispatchMessages allowedConnection :: frames)
    (hwaiter : ∀ c, (s.connections c).waitingForMessage ≠ none →
      ∃ request phase frames, new ++ rest = .waitForMessage c request phase :: frames ∧
        phase ≠ .checkQueue ∧ phase ≠ .register) :
    Accounted { s with frames := new ++ rest } :=
  { h with
    total_eq := by
      have hnone : ∀ {l : List (Frame ι)}, (∀ frame ∈ l, frame.messages = []) →
          l.flatMap Frame.messages = [] := fun hl => flatMap_eq_nil_iff.mpr hl
      intro c hc message
      have htotal := h.total_eq c hc message
      simp only [total, shared, hframes, flatMap_append, hnone hold, nil_append]
        at htotal
      simp only [total, shared, flatMap_append, hnone hnew, nil_append]
      exact htotal
    waiter_running := hwaiter
    sync_scheduled := by
      intro p hp
      rcases h.sync_scheduled p hp with hp | ⟨allowedConnection, frames, heq, -⟩
      · exact .inl hp
      · exact absurd heq (hhead _ _)
    putBack_scheduled := by
      intro frame hframe p hp
      rcases mem_append.mp hframe with hframe | hframe
      · have hmem := messages_of_putBack hp
        rw [hnew frame hframe] at hmem
        cases hmem
      · exact h.putBack_scheduled frame (hframes ▸ mem_append_right _ hframe) p hp }

theorem replaceFrame {frame : Frame ι} (new : List (Frame ι))
    {rest : List (Frame ι)} (hframes : s.frames = frame :: rest) (hold : frame.messages = [])
    (hdisp : ∀ allowedConnection, frame ≠ .dispatchMessages allowedConnection)
    (hwait : ∀ c, (s.connections c).waitingForMessage = none)
    (hnew : ∀ frame ∈ new, frame.messages = []) :
    Accounted { s with frames := new ++ rest } := by
  apply h.setFrames [frame] new hframes
  · intro frame' hframe'
    rw [mem_singleton.mp hframe']
    exact hold
  · exact hnew
  · intro allowedConnection frames heq
    rw [hframes] at heq
    exact hdisp allowedConnection (cons.inj heq).1
  · intro c hc
    exact absurd (hwait c) hc

theorem pushFrames (new : List (Frame ι)) (hdisp : ∀ allowedConnection frames,
      s.frames ≠ .dispatchMessages allowedConnection :: frames)
    (hwait : ∀ c, (s.connections c).waitingForMessage = none)
    (hnew : ∀ frame ∈ new, frame.messages = []) :
    Accounted { s with frames := new ++ s.frames } := by
  apply h.setFrames [] new rfl
  · exact fun _ hframe => absurd hframe not_mem_nil
  · exact hnew
  · exact hdisp
  · intro c hc
    exact absurd (hwait c) hc

end

end Accounted

end ConnectionSystem

end WebKit.IPC
