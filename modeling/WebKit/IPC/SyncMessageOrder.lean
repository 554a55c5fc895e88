import WebKit.IPC.Connection
import WebKit.Transition.Run
import Mathlib.Data.List.Nodup

/-!
# The order of messages in a `SyncMessageState`

Messages to be dispatched while the client waits for a sync reply go through one queue for all
connections. `dispatchMessages` takes the whole queue and puts the messages of connections that
it may not serve at the end of the queue when it is done. A message that comes in before that
ends up in front of the older ones of its connection.
-/

namespace WebKit.IPC

open Transition List

variable {ι : Type} [DecidableEq ι]

/-- A call of `dispatchMessages`. -/
inductive DispatchCall (ι : Type)
  /-- It has not taken the messages yet. -/
  | called (allowedConnection : Option ι)
  /-- It is in its loop, and the handlers do not re-enter. -/
  | dispatching (allowedConnection : Option ι) (messages putBack : List (ι × MessageDecoder))
  deriving DecidableEq, Repr

/-- The messages that the call may not dispatch. -/
def DispatchCall.isOther (allowedConnection : Option ι) (c : ι) : Prop :=
  allowedConnection ≠ none ∧ allowedConnection ≠ some c

instance (allowedConnection : Option ι) (c : ι) :
    Decidable (DispatchCall.isOther allowedConnection c) :=
  inferInstanceAs (Decidable (_ ∧ _))

structure SyncMessages (ι : Type) where
  state : SyncMessageState ι
  /-- The connections of the scheduled
  `dispatchMessageAndResetDidScheduleDispatchMessagesForConnection` calls. -/
  runLoop : List ι
  call : Option (DispatchCall ι)
  arrived : List (ι × MessageDecoder)
  dispatched : List (ι × MessageDecoder)
  deriving DecidableEq, Repr

/-- The messages of a connection. -/
def messagesOf (c : ι) (messages : List (ι × MessageDecoder)) : List (ι × MessageDecoder) :=
  messages.filter fun message => message.1 = c

@[simp] theorem messagesOf_append (c : ι) (a b : List (ι × MessageDecoder)) :
    messagesOf c (a ++ b) = messagesOf c a ++ messagesOf c b :=
  filter_append ..

theorem messagesOf_eq_nil {c : ι} {messages : List (ι × MessageDecoder)} :
    messagesOf c messages = [] ↔ ∀ message ∈ messages, message.1 ≠ c := by
  simp [messagesOf, filter_eq_nil_iff]

namespace SyncMessages

def initial : SyncMessages ι where
  state := .initial
  runLoop := []
  call := none
  arrived := []
  dispatched := []

variable (s : SyncMessages ι)

/-- The queue of the `SyncMessageState`. -/
def queue : List (ι × MessageDecoder) := s.state.messagesToDispatchWhileWaitingForSyncReply

/-- `SyncMessageState::processIncomingMessage`; a message that is not for a waiting client is not
taken. -/
def processIncomingMessage (c : ι) (message : MessageDecoder) : SyncMessages ι × Bool :=
  if !message.shouldDispatchMessageWhenWaitingForSyncReply then (s, false)
  else
    let workSet := s.state.didScheduleDispatchMessagesWorkSet
    ({ s with
      state :=
        { waitForSyncReplySemaphore := true
          didScheduleDispatchMessagesWorkSet := workSet.insert c
          messagesToDispatchWhileWaitingForSyncReply := s.queue ++ [(c, message)] }
      runLoop := if c ∈ workSet then s.runLoop else s.runLoop ++ [c]
      arrived := s.arrived ++ [(c, message)] }, true)

/-- The next section of `dispatchMessages`, or the next iteration of its loop. -/
def dispatchMessagesStep : DispatchCall ι → SyncMessages ι
  | .called allowedConnection =>
    { s with
      state := { s.state with messagesToDispatchWhileWaitingForSyncReply := [] }
      call := some (.dispatching allowedConnection s.queue []) }
  | .dispatching allowedConnection (message :: messages) putBack =>
    if DispatchCall.isOther allowedConnection message.1 then
      { s with call := some (.dispatching allowedConnection messages (putBack ++ [message])) }
    else
      { s with
        call := some (.dispatching allowedConnection messages putBack)
        dispatched := s.dispatched ++ [message] }
  | .dispatching _ [] putBack =>
    { s with
      state := { s.state with messagesToDispatchWhileWaitingForSyncReply := s.queue ++ putBack }
      call := none }

/-- `dispatchMessageAndResetDidScheduleDispatchMessagesForConnection` up to the call of
`dispatchMessages`. -/
def resetDidSchedule (c : ι) : SyncMessages ι :=
  { s with
    state :=
      { s.state with
        didScheduleDispatchMessagesWorkSet := s.state.didScheduleDispatchMessagesWorkSet.erase c }
    call := some (.called (some c)) }

inductive Label (ι : Type)
  | processIncomingMessage (connection : ι) (message : MessageDecoder)
  | dispatchMessages (allowedConnection : Option ι)
  /-- The run loop makes its next call. -/
  | performWork
  /-- The call of `dispatchMessages` goes on. -/
  | continue
  deriving DecidableEq, Repr

def step (s : SyncMessages ι) : Label ι → Option (SyncMessages ι)
  | .processIncomingMessage c message => some (s.processIncomingMessage c message).1
  | .dispatchMessages allowedConnection =>
    if s.call = none then some { s with call := some (.called allowedConnection) } else none
  | .performWork =>
    match s.call, s.runLoop with
    | none, c :: rest => some ({ s with runLoop := rest }.resetDidSchedule c)
    | _, _ => none
  | .continue => s.call.map s.dispatchMessagesStep

/-- The messages of a connection are dispatched in the order of their arrival and once; as long
as one is missing, a call runs or is scheduled. -/
structure InOrder (s : SyncMessages ι) : Prop where
  isPrefix : ∀ c, messagesOf c s.dispatched <+: messagesOf c s.arrived
  scheduled : ∀ c, messagesOf c s.dispatched ≠ messagesOf c s.arrived →
    s.call ≠ none ∨ c ∈ s.runLoop

/-- No message of a connection comes in while a call for another one holds messages of it. -/
def Undivided (s : SyncMessages ι) : Label ι → Prop
  | .processIncomingMessage c message =>
    message.shouldDispatchMessageWhenWaitingForSyncReply = true →
      ∀ allowedConnection messages putBack,
        s.call = some (.dispatching allowedConnection messages putBack) →
        DispatchCall.isOther allowedConnection c → ∀ p ∈ messages ++ putBack, p.1 ≠ c
  | _ => True

/-! ## The invariant -/

/-- The messages that the running call holds, in the order in which they were taken from the
queue as far as one connection is concerned. -/
def held : List (ι × MessageDecoder) :=
  match s.call with
  | some (.dispatching _ messages putBack) => putBack ++ messages
  | _ => []

structure Kept (s : SyncMessages ι) : Prop where
  arrived_eq : ∀ c, messagesOf c s.arrived =
    messagesOf c s.dispatched ++ messagesOf c s.held ++ messagesOf c s.queue
  putBack_other : ∀ allowedConnection messages putBack,
    s.call = some (.dispatching allowedConnection messages putBack) →
      ∀ p ∈ putBack, DispatchCall.isOther allowedConnection p.1
  /-- There is nothing new of a connection whose messages will be put back. -/
  undivided : ∀ allowedConnection messages putBack,
    s.call = some (.dispatching allowedConnection messages putBack) →
      ∀ p ∈ putBack ++ messages, DispatchCall.isOther allowedConnection p.1 →
        messagesOf p.1 s.queue = [] ∧ p.1 ∈ s.state.didScheduleDispatchMessagesWorkSet
  workSet_nodup : s.state.didScheduleDispatchMessagesWorkSet.Nodup
  workSet_scheduled : ∀ c ∈ s.state.didScheduleDispatchMessagesWorkSet, c ∈ s.runLoop
  queue_scheduled : ∀ p ∈ s.queue, p.1 ∈ s.state.didScheduleDispatchMessagesWorkSet ∨
    ∃ allowedConnection, s.call = some (.called allowedConnection) ∧
      ¬ DispatchCall.isOther allowedConnection p.1

variable {s} {t : SyncMessages ι}

theorem kept_initial : (initial : SyncMessages ι).Kept where
  arrived_eq _ := rfl
  putBack_other := nofun
  undivided := nofun
  workSet_nodup := nodup_nil
  workSet_scheduled := nofun
  queue_scheduled := nofun

namespace Kept

theorem receive (h : s.Kept) {c : ι} {message : MessageDecoder}
    (hguard : s.Undivided (.processIncomingMessage c message)) :
    (s.processIncomingMessage c message).1.Kept := by
  unfold processIncomingMessage
  split
  · exact h
  rename_i hflag
  have hguard := hguard (by simpa using hflag)
  constructor
  · intro c'
    have harrived := h.arrived_eq c'
    simp only [queue, held, messagesOf_append] at harrived ⊢
    rw [harrived, append_assoc]
  · exact h.putBack_other
  · intro allowedConnection messages putBack hcall p hp hother
    obtain ⟨hqueue, hmem⟩ := h.undivided _ _ _ hcall p hp hother
    refine ⟨?_, mem_insert_of_mem hmem⟩
    show messagesOf p.1 (s.queue ++ [(c, message)]) = []
    rw [messagesOf_append, hqueue, nil_append, messagesOf_eq_nil]
    intro q hq heq
    cases mem_singleton.mp hq
    rw [← heq] at hother
    exact hguard _ _ _ hcall hother p (mem_append.mpr (mem_append.mp hp).symm) heq.symm
  · exact h.workSet_nodup.insert
  · intro c' hc'
    show c' ∈ if c ∈ s.state.didScheduleDispatchMessagesWorkSet then s.runLoop
      else s.runLoop ++ [c]
    have hold := h.workSet_scheduled c'
    rcases mem_insert_iff.mp hc' with rfl | hmem
    · split
      · exact hold ‹_›
      · exact mem_append_right _ (mem_singleton_self c')
    · split
      · exact hold hmem
      · exact mem_append_left _ (hold hmem)
  · intro p hp
    rcases mem_append.mp hp with hold | hnew
    · exact (h.queue_scheduled p hold).imp_left mem_insert_of_mem
    · cases mem_singleton.mp hnew
      exact .inl mem_insert_self

/-- Unless a call is about to take the queue, every message in it has a scheduled call. -/
theorem mem_workSet (h : s.Kept) (hcall : ∀ a, s.call ≠ some (.called a))
    {p : ι × MessageDecoder} (hp : p ∈ s.queue) :
    p.1 ∈ s.state.didScheduleDispatchMessagesWorkSet :=
  (h.queue_scheduled p hp).resolve_right fun ⟨a, hcalled, _⟩ => hcall a hcalled

theorem call (h : s.Kept) (hcall : s.call = none) (allowedConnection : Option ι) :
    Kept { s with call := some (.called allowedConnection) } where
  arrived_eq c := by
    have harrived := h.arrived_eq c
    rwa [held, hcall] at harrived
  putBack_other := nofun
  undivided := nofun
  workSet_nodup := h.workSet_nodup
  workSet_scheduled := h.workSet_scheduled
  queue_scheduled _ hp := .inl (h.mem_workSet (by simp [hcall]) hp)

theorem performWork (h : s.Kept) (hcall : s.call = none) {c : ι} {rest : List ι}
    (hloop : s.runLoop = c :: rest) : ({ s with runLoop := rest }.resetDidSchedule c).Kept where
  arrived_eq := (h.call hcall (some c)).arrived_eq
  putBack_other := nofun
  undivided := nofun
  workSet_nodup := h.workSet_nodup.erase c
  workSet_scheduled c' hc' := by
    obtain ⟨hne, hmem⟩ := h.workSet_nodup.mem_erase_iff.mp hc'
    have hsched := h.workSet_scheduled c' hmem
    rw [hloop] at hsched
    exact (mem_cons.mp hsched).resolve_left hne
  queue_scheduled p hp := by
    by_cases heq : p.1 = c
    · exact .inr ⟨some c, rfl, fun hother => hother.2 (by rw [heq])⟩
    · exact .inl (h.workSet_nodup.mem_erase_iff.mpr ⟨heq, h.mem_workSet (by simp [hcall]) hp⟩)

variable {allowedConnection : Option ι}

theorem swap (h : s.Kept) (hcall : s.call = some (.called allowedConnection)) :
    (s.dispatchMessagesStep (.called allowedConnection)).Kept where
  arrived_eq c := by
    have harrived := h.arrived_eq c
    rw [held, hcall] at harrived
    rw [show (s.dispatchMessagesStep (.called allowedConnection)).queue = [] from rfl]
    simpa [held, dispatchMessagesStep, messagesOf] using harrived
  putBack_other := by
    rintro _ _ _ ⟨⟩
    nofun
  undivided := by
    rintro _ _ _ ⟨⟩ p hp hother
    refine ⟨rfl, (h.queue_scheduled p hp).resolve_right ?_⟩
    rintro ⟨allowedConnection', hcalled, hnot⟩
    rw [hcall] at hcalled
    cases hcalled
    exact hnot hother
  workSet_nodup := h.workSet_nodup
  workSet_scheduled := h.workSet_scheduled
  queue_scheduled := nofun

theorem putAside (h : s.Kept) {message : ι × MessageDecoder}
    {messages putBack : List (ι × MessageDecoder)}
    (hcall : s.call = some (.dispatching allowedConnection (message :: messages) putBack))
    (hother : DispatchCall.isOther allowedConnection message.1) :
    Kept { s with
      call := some (.dispatching allowedConnection messages (putBack ++ [message])) } where
  arrived_eq c := by
    have harrived := h.arrived_eq c
    simp only [held, hcall] at harrived
    simpa [held, queue] using harrived
  putBack_other := by
    rintro _ _ _ ⟨⟩ p hp
    rcases mem_append.mp hp with hold | hnew
    · exact h.putBack_other _ _ _ hcall p hold
    · cases mem_singleton.mp hnew
      exact hother
  undivided := by
    rintro _ _ _ ⟨⟩ p hp
    exact h.undivided _ _ _ hcall p (by simpa using hp)
  workSet_nodup := h.workSet_nodup
  workSet_scheduled := h.workSet_scheduled
  queue_scheduled _ hp := .inl (h.mem_workSet (by simp [hcall]) hp)

theorem dispatch (h : s.Kept) {message : ι × MessageDecoder}
    {messages putBack : List (ι × MessageDecoder)}
    (hcall : s.call = some (.dispatching allowedConnection (message :: messages) putBack))
    (hallowed : ¬ DispatchCall.isOther allowedConnection message.1) :
    Kept { s with
      call := some (.dispatching allowedConnection messages putBack)
      dispatched := s.dispatched ++ [message] } where
  arrived_eq c := by
    have harrived := h.arrived_eq c
    have hcons := messagesOf_append c [message] messages
    rw [singleton_append] at hcons
    simp only [held, hcall, messagesOf_append, hcons] at harrived
    simp only [held, messagesOf_append]
    rw [harrived]
    by_cases heq : message.1 = c
    · have hnone : messagesOf c putBack = [] := messagesOf_eq_nil.mpr fun p hp hpc =>
        hallowed (heq ▸ hpc ▸ h.putBack_other _ _ _ hcall p hp)
      simp [hnone, queue]
    · have hnone : messagesOf c [message] = [] := messagesOf_eq_nil.mpr (by simpa using heq)
      simp [hnone, queue]
  putBack_other := by
    rintro _ _ _ ⟨⟩
    exact h.putBack_other _ _ _ hcall
  undivided := by
    rintro _ _ _ ⟨⟩ p hp
    exact h.undivided _ _ _ hcall p
      (mem_append.mpr ((mem_append.mp hp).imp_right (mem_cons_of_mem _)))
  workSet_nodup := h.workSet_nodup
  workSet_scheduled := h.workSet_scheduled
  queue_scheduled _ hp := .inl (h.mem_workSet (by simp [hcall]) hp)

theorem putBack (h : s.Kept) {putBack : List (ι × MessageDecoder)}
    (hcall : s.call = some (.dispatching allowedConnection [] putBack)) :
    (s.dispatchMessagesStep (.dispatching allowedConnection [] putBack)).Kept where
  arrived_eq c := by
    have harrived := h.arrived_eq c
    simp only [held, hcall, append_nil] at harrived
    show messagesOf c s.arrived =
      messagesOf c s.dispatched ++ [] ++ messagesOf c (s.queue ++ putBack)
    rw [harrived, messagesOf_append, append_nil, append_assoc]
    by_cases hnone : messagesOf c putBack = []
    · rw [hnone, nil_append, append_nil]
    · obtain ⟨p, hp⟩ := exists_mem_of_ne_nil _ hnone
      obtain ⟨hp, hpc⟩ := mem_filter.mp hp
      have hpc : p.1 = c := of_decide_eq_true hpc
      have hempty := (h.undivided _ _ _ hcall p (mem_append_left _ hp)
        (h.putBack_other _ _ _ hcall p hp)).1
      rw [← hpc, hempty, nil_append, append_nil]
  putBack_other := nofun
  undivided := nofun
  workSet_nodup := h.workSet_nodup
  workSet_scheduled := h.workSet_scheduled
  queue_scheduled p hp := by
    rcases mem_append.mp hp with hold | hnew
    · exact .inl (h.mem_workSet (by simp [hcall]) hold)
    · exact .inl (h.undivided _ _ _ hcall p (mem_append_left _ hnew)
        (h.putBack_other _ _ _ hcall p hnew)).2

theorem step (h : s.Kept) {label : Label ι} (hguard : s.Undivided label)
    (hstep : s.step label = some t) : t.Kept := by
  cases label with
  | processIncomingMessage c message =>
    cases hstep
    exact h.receive hguard
  | dispatchMessages allowedConnection =>
    obtain ⟨hcall, heq⟩ := Option.ite_none_right_eq_some.mp hstep
    cases heq
    exact h.call hcall allowedConnection
  | performWork =>
    simp only [SyncMessages.step] at hstep
    split at hstep
    · rename_i hcall hloop
      cases hstep
      exact h.performWork hcall hloop
    · cases hstep
  | «continue» =>
    obtain ⟨call, hcall, rfl⟩ := Option.map_eq_some_iff.mp hstep
    match call with
    | .called allowedConnection => exact h.swap hcall
    | .dispatching allowedConnection (message :: messages) putBack =>
      simp only [dispatchMessagesStep]
      split
      · exact h.putAside hcall ‹_›
      · exact h.dispatch hcall ‹_›
    | .dispatching allowedConnection [] putBack => exact h.putBack hcall

theorem inOrder (h : s.Kept) : s.InOrder where
  isPrefix c := by
    rw [h.arrived_eq c, append_assoc]
    exact prefix_append _ _
  scheduled c hne := by
    by_contra hnone
    obtain ⟨hcall, hloop⟩ := not_or.mp hnone
    have hcall := not_not.mp hcall
    have hqueue : messagesOf c s.queue = [] := messagesOf_eq_nil.mpr fun p hp hpc =>
      hloop (hpc ▸ h.workSet_scheduled p.1 (h.mem_workSet (by simp [hcall]) hp))
    refine hne ?_
    rw [h.arrived_eq c, hqueue, held, hcall]
    exact ((append_nil _).trans (append_nil _)).symm

end Kept

/-- In a run in which no message comes in while a call for another connection holds messages of
its connection, every connection's messages are dispatched in order and once. -/
theorem inOrder_of_undivided {labels : List (Label ι)}
    (h : Run (guarded (fun s label t => s.step label = some t) Undivided) initial labels s) :
    s.InOrder :=
  (h.preserves (fun _ _ _ hs hstep => hs.step hstep.1 hstep.2) kept_initial).inOrder

/-- A message to be dispatched while the client waits. -/
def urgentMessage (serial : ℕ) : MessageDecoder where
  serial := serial
  messageReceiverName := "WebPageProxy"
  messageName := "RunJavaScriptAlert"
  destinationID := 1
  isSyncMessage := true
  shouldDispatchMessageWhenWaitingForSyncReply := true

/-- A message comes in while the only message that was there is dispatched. -/
theorem inOrder_of_undivided_pair : ∃ s : SyncMessages Bool,
    s.dispatched = [(true, urgentMessage 0)] ∧ s.runLoop = [true] ∧ s.InOrder := by
  have hrun : ∃ s : SyncMessages Bool,
      Run (guarded (fun s label t => s.step label = some t) Undivided) initial
        [.processIncomingMessage true (urgentMessage 0), .performWork, .continue,
          .processIncomingMessage true (urgentMessage 1), .continue, .continue] s ∧
      s.dispatched = [(true, urgentMessage 0)] ∧ s.runLoop = [true] := by
    refine ⟨_, .cons ⟨nofun, rfl⟩ (.cons ⟨trivial, rfl⟩ (.cons ⟨trivial, rfl⟩
      (.cons ⟨?_, rfl⟩ (.cons ⟨trivial, rfl⟩ (.cons ⟨trivial, rfl⟩ (.nil _)))))), rfl, rfl⟩
    rintro - _ _ _ ⟨⟩ hother
    exact absurd rfl hother.2
  obtain ⟨s, hrun, hdispatched, hloop⟩ := hrun
  exact ⟨s, hdispatched, hloop, inOrder_of_undivided hrun⟩

/-- A message comes in while a call for the other connection holds an older one. -/
theorem not_inOrder : ¬ ∀ (labels : List (Label Bool)) (s : SyncMessages Bool),
    Run (fun s label t => s.step label = some t) initial labels s → s.InOrder := by
  intro hall
  have hrun : ∃ s : SyncMessages Bool,
      [Label.processIncomingMessage false (urgentMessage 0),
        .processIncomingMessage true (urgentMessage 1), .performWork, .continue, .continue,
        .processIncomingMessage true (urgentMessage 2), .continue, .continue, .performWork,
        .continue, .continue].foldlM step initial = some s ∧
      messagesOf true s.dispatched = [(true, urgentMessage 2)] ∧
      messagesOf true s.arrived = [(true, urgentMessage 1), (true, urgentMessage 2)] :=
    ⟨_, rfl, by decide, by decide⟩
  obtain ⟨s, hrun, hdispatched, harrived⟩ := hrun
  have hprefix := (hall _ s (Run.of_foldlM hrun)).isPrefix true
  rw [hdispatched, harrived] at hprefix
  exact absurd hprefix (by decide)

end SyncMessages

end WebKit.IPC
