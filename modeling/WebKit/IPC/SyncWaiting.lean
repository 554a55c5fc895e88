import WebKit.IPC.SyncRun

/-!
# The client thread does not sleep through a message

A message that can be dispatched during a wait is appended to the queue first and signalled then.
When a sender has taken a signal it dispatches the whole queue, so before it sleeps the queue is
empty or a signal has been given (`Awake`). Only a dispatch for one connection puts messages back
without a signal. Such a dispatch runs in a run loop, and a sender that runs one inside its loop
empties the queue afterwards, unless it has timed out.
-/

namespace WebKit.IPC

open Transition List

variable {ι : Type} [DecidableEq ι]

/-- Every call that may sleep lies below a sender that runs the run loop. -/
def Sheltered : List (Frame ι) → Prop
  | [] => True
  | .sendSyncMessage _ _ _ .spin :: _ => True
  | .sendSyncMessage _ _ spin _ :: frames => spin = true ∧ Sheltered frames
  | _ :: frames => Sheltered frames

/-- Only a dispatch for one connection puts messages back, and only a run loop begins one. -/
def Frame.NestedIn (frames : List (Frame ι)) : Frame ι → Prop
  | .dispatchMessages (some _) => Sheltered frames
  | .dispatching (some _) _ _ => Sheltered frames
  | .dispatching none _ putBack => putBack = []
  | _ => True

def Nested : List (Frame ι) → Prop
  | [] => True
  | frame :: frames => frame.NestedIn frames ∧ Nested frames

omit [DecidableEq ι] in
theorem sheltered_cons {frame : Frame ι} (h : frame.isSender = false) (frames : List (Frame ι)) :
    Sheltered (frame :: frames) ↔ Sheltered frames := by
  cases frame with
  | sendSyncMessage _ _ _ _ => cases h
  | _ => exact Iff.rfl

omit [DecidableEq ι] in
theorem sheltered_sender {c : ι} {syncRequestID : ℕ} {spin : Bool} {phase : SyncPhase}
    (h : phase ≠ .spin) (frames : List (Frame ι)) :
    Sheltered (.sendSyncMessage c syncRequestID spin phase :: frames) ↔
      spin = true ∧ Sheltered frames := by
  cases phase with
  | spin => exact absurd rfl h
  | _ => exact Iff.rfl

namespace ConnectionSystem

/-- A signal has been given, or a receive queue is about to give one. -/
def Signalled (s : ConnectionSystem ι) : Prop :=
  s.syncMessageState.waitForSyncReplySemaphore = true ∨
    ∃ c, (s.connections c).receiveQueue = .wakingUp

/-- A sender that sleeps has no message in the queue, or a receive queue has just put one there
and is about to signal. -/
def SleepsWithoutMessages (s : ConnectionSystem ι) : Prop :=
  ∀ c syncRequestID spin frames, s.frames = .sendSyncMessage c syncRequestID spin .wait :: frames →
    s.syncMessageState.waitForSyncReplySemaphore = false →
    s.syncMessageState.messagesToDispatchWhileWaitingForSyncReply = [] ∨
      ∃ c', (s.connections c').receiveQueue = .wakingUp

/-- A sender that runs the run loop does not time out while a message has been put back. -/
def SpinsInTime (s : ConnectionSystem ι) : Label ι → Prop
  | .stopSpinning true =>
    s.syncMessageState.messagesToDispatchWhileWaitingForSyncReply = [] ∨ s.Signalled
  | _ => True

structure Awake (s : ConnectionSystem ι) : Prop where
  nested : Nested s.frames
  queue : s.syncMessageState.messagesToDispatchWhileWaitingForSyncReply = [] ∨ s.Signalled ∨
    (∃ frames, s.frames = .dispatchMessages none :: frames) ∨ Sheltered s.frames

variable {s t : ConnectionSystem ι} {c : ι} {k : Connection} {message : MessageDecoder}
  {frame : Frame ι} {rest frames : List (Frame ι)} {syncRequestID : ℕ} {spin : Bool}
  {phase : SyncPhase}

omit [DecidableEq ι] in
theorem awake_initial : (initial : ConnectionSystem ι).Awake := ⟨trivial, .inl rfl⟩

theorem Awake.sleepsWithoutMessages (h : s.Awake) (hsynced : s.Synced) :
    s.SleepsWithoutMessages := by
  intro c syncRequestID spin frames hframes hsem
  rcases h.queue with hqueue | hsignal | ⟨frames', heq⟩ | hsheltered
  · exact .inl hqueue
  · refine .inr (hsignal.resolve_left ?_)
    rw [hsem]
    exact Bool.false_ne_true
  · rw [hframes] at heq
    cases heq
  · have hspin : spin = false := (hsynced.inPhase _ _ _ _ _ hframes).2
    rw [hframes, sheltered_sender (fun heq => by cases heq)] at hsheltered
    rw [hspin] at hsheltered
    cases hsheltered.1

omit [DecidableEq ι] in
theorem Signalled.mono (h : s.Signalled)
    (hsem : s.syncMessageState.waitForSyncReplySemaphore = true →
      t.syncMessageState.waitForSyncReplySemaphore = true)
    (hqueue : ∀ c, (s.connections c).receiveQueue = .wakingUp →
      (t.connections c).receiveQueue = .wakingUp) : t.Signalled :=
  h.imp hsem fun ⟨c, hc⟩ => ⟨c, hqueue c hc⟩

theorem Signalled.setConnection (h : s.Signalled)
    (hk : (s.connections c).receiveQueue = .wakingUp → k.receiveQueue = .wakingUp) :
    (s.setConnection c k).Signalled := by
  refine h.mono id fun c' hc' => ?_
  rw [connections_setConnection]
  split
  · rename_i heq
    rw [heq] at hc'
    exact hk hc'
  · exact hc'

namespace Awake

omit [DecidableEq ι] in
/-- The queue stays, no signal is lost, and a call that is not about to dispatch the queue makes
way for others. -/
theorem setFrames (h : s.Awake)
    (hqueue : t.syncMessageState.messagesToDispatchWhileWaitingForSyncReply =
      s.syncMessageState.messagesToDispatchWhileWaitingForSyncReply)
    (hsignal : s.Signalled → t.Signalled)
    (hhead : ∀ frames, s.frames ≠ .dispatchMessages none :: frames) (hnested : Nested t.frames)
    (hsheltered : Sheltered s.frames → Sheltered t.frames) : t.Awake where
  nested := hnested
  queue := by
    rw [hqueue]
    rcases h.queue with hempty | hold | ⟨frames, heq⟩ | hold
    · exact .inl hempty
    · exact .inr (.inl (hsignal hold))
    · exact absurd heq (hhead frames)
    · exact .inr (.inr (.inr (hsheltered hold)))

omit [DecidableEq ι] in
theorem keep (h : s.Awake) (hframes : t.frames = s.frames)
    (hqueue : t.syncMessageState.messagesToDispatchWhileWaitingForSyncReply =
      s.syncMessageState.messagesToDispatchWhileWaitingForSyncReply)
    (hsignal : s.Signalled → t.Signalled) : t.Awake where
  nested := hframes ▸ h.nested
  queue := by
    rw [hqueue, hframes]
    exact h.queue.imp_right (Or.imp_left hsignal)

omit [DecidableEq ι] in
theorem nextIteration (h : Nested rest) : (s.nextIteration c syncRequestID spin rest).Awake :=
  ⟨⟨trivial, trivial, h⟩, .inr (.inr (.inl ⟨_, rfl⟩))⟩

theorem setConnection (h : s.Awake)
    (hk : (s.connections c).receiveQueue = .wakingUp → k.receiveQueue = .wakingUp) :
    (s.setConnection c k).Awake :=
  h.keep rfl rfl fun hsignal => hsignal.setConnection hk

omit [DecidableEq ι] in
theorem wakeUpClientRunLoop (h : s.Awake) : s.wakeUpClientRunLoop.Awake :=
  h.keep rfl rfl fun _ => .inl rfl

theorem processIncomingMessage (h : s.Awake) (hidle : (s.connections c).receiveQueue = .idle)
    (message : MessageDecoder) : (s.processIncomingMessage c message).Awake := by
  have hcount : Awake { s with received := s.received + 1 } := h.keep rfl rfl id
  rw [ConnectionSystem.processIncomingMessage]
  split
  · unfold processIncomingSyncReply
    split
    · exact hcount
    · rename_i isLast replies _
      have hset : Awake (ConnectionSystem.setConnection { s with received := s.received + 1 } c
          { s.connections c with pendingSyncReplies := replies }) := hcount.setConnection id
      split
      · exact hset.wakeUpClientRunLoop
      · exact hset
  · split
    · -- the signal follows
      refine ⟨?_, .inr (.inl (.inr ⟨c, ?_⟩))⟩
      · unfold appendSyncMessage
        dsimp only
        split <;> exact h.nested
      · rw [connections_setConnection, if_pos rfl]
    · refine hcount.setConnection fun hwaking => ?_
      exact absurd (hidle.symm.trans hwaking) (fun heq => by cases heq)

theorem connectionDidClose (h : s.Awake) (hidle : (s.connections c).receiveQueue = .idle) :
    (s.connectionDidClose c).Awake := by
  have hset : Awake (s.setConnection c { s.connections c with
      shouldWaitForSyncReplies := false, receiveQueue := .closing }) := by
    refine h.setConnection fun hwaking => ?_
    exact absurd (hidle.symm.trans hwaking) (fun heq => by cases heq)
  unfold ConnectionSystem.connectionDidClose
  dsimp only
  split
  · exact hset.wakeUpClientRunLoop
  · exact hset

theorem receiveQueueStep (h : s.Awake) (hstep : s.receiveQueueStep c = some t) : t.Awake := by
  unfold ConnectionSystem.receiveQueueStep at hstep
  split at hstep
  · cases hstep
  · cases hstep
    exact h.keep rfl rfl fun _ => .inl rfl
  · rename_i message hchecking
    cases hstep
    have hset : ∀ k, (s.setConnection c k).Awake := by
      intro k
      refine h.setConnection fun hwaking => ?_
      exact absurd (hchecking.symm.trans hwaking) (fun heq => by cases heq)
    unfold checkWaiter
    dsimp only
    split
    · exact hset _
    · split
      · exact (hset _).keep rfl rfl id
      · split <;> exact hset _
  · rename_i message henqueueing
    cases hstep
    have hset : ∀ k, (s.setConnection c k).Awake := by
      intro k
      refine h.setConnection fun hwaking => ?_
      exact absurd (henqueueing.symm.trans hwaking) (fun heq => by cases heq)
    exact (hset _).keep rfl rfl id
  · rename_i hclosing
    cases hstep
    have hset : ∀ k, (s.setConnection c k).Awake := by
      intro k
      refine h.setConnection fun hwaking => ?_
      exact absurd (hclosing.symm.trans hwaking) (fun heq => by cases heq)
    exact (hset _).keep rfl rfl id
  · cases hstep

omit [DecidableEq ι] in
theorem sheltered_of_isInRunLoop (hloop : s.isInRunLoop = true) : Sheltered s.frames := by
  unfold isInRunLoop at hloop
  split at hloop
  · rename_i hnil
    rw [hnil]
    trivial
  · rename_i hspin
    rw [hspin]
    trivial
  · cases hloop

omit [DecidableEq ι] in
theorem callFunction (h : s.Awake) (hloop : s.isInRunLoop = true)
    (hframes : t.frames = s.frames ∨ ∃ frame, t.frames = frame :: s.frames ∧
      frame.isSender = false ∧ ∀ messages putBack, frame ≠ .dispatching none messages putBack) :
    t.Awake := by
  have hsheltered := sheltered_of_isInRunLoop hloop
  rcases hframes with heq | ⟨frame, heq, hsender, hputBack⟩
  · refine ⟨heq ▸ h.nested, .inr (.inr (.inr ?_))⟩
    rw [heq]
    exact hsheltered
  · constructor
    · rw [heq]
      refine ⟨?_, h.nested⟩
      cases frame with
      | client | waitForMessage => trivial
      | dispatchMessages allowedConnection =>
        cases allowedConnection with
        | none => trivial
        | some c => exact hsheltered
      | dispatching allowedConnection messages putBack =>
        cases allowedConnection with
        | none => exact absurd rfl (hputBack messages putBack)
        | some c => exact hsheltered
      | sendSyncMessage _ _ _ _ => cases hsender
    · rw [heq, sheltered_cons hsender]
      exact .inr (.inr (.inr hsheltered))

theorem performWork (h : s.Awake) (hstep : s.performWork = some t) : t.Awake := by
  have hclient : (Frame.client : Frame ι).isSender = false ∧ ∀ messages putBack,
      (Frame.client : Frame ι) ≠ .dispatching none messages putBack :=
    ⟨rfl, fun _ _ heq => by cases heq⟩
  unfold ConnectionSystem.performWork at hstep
  split at hstep
  · rename_i function rest hloop _
    cases hstep
    apply h.callFunction hloop
    cases function with
    | dispatchOneMessage c =>
      rw [ConnectionSystem.callFunction]
      unfold dispatchOneMessage
      split
      · exact .inl rfl
      · unfold dispatchMessage
        split
        · exact .inr ⟨_, rfl, hclient⟩
        · exact .inl rfl
    | dispatchMessageAndResetDidScheduleDispatchMessagesForConnection c =>
      exact .inr ⟨_, rfl, rfl, fun _ _ heq => by cases heq⟩
    | dispatchConnectionDidClose c =>
      rw [ConnectionSystem.callFunction]
      split
      · exact .inr ⟨_, rfl, hclient⟩
      · exact .inl rfl
  · cases hstep

omit [DecidableEq ι] in
theorem replaceCall (h : s.Awake) (new : List (Frame ι)) (hframe : s.frames = frame :: rest)
    (hsender : frame.isSender = false) (hdisp : frame ≠ .dispatchMessages none)
    (hframes : t.frames = new ++ rest) (hnew : ∀ frame ∈ new, frame.isSender = false)
    (hnested : Nested rest → Nested (new ++ rest))
    (hqueue : t.syncMessageState.messagesToDispatchWhileWaitingForSyncReply =
      s.syncMessageState.messagesToDispatchWhileWaitingForSyncReply)
    (hsignal : s.Signalled → t.Signalled) : t.Awake := by
  have hold := h.nested
  rw [hframe] at hold
  apply h.setFrames hqueue hsignal
  · intro frames heq
    rw [hframe] at heq
    exact hdisp (cons.inj heq).1
  · rw [hframes]
    exact hnested hold.2
  · rw [hframe, hframes, sheltered_cons hsender]
    intro hsheltered
    clear hframes hnested
    induction new with
    | nil => exact hsheltered
    | cons frame new ih =>
      rw [cons_append, sheltered_cons (hnew frame mem_cons_self)]
      exact ih fun frame hframe => hnew frame (mem_cons_of_mem _ hframe)

theorem waitForMessageStep (h : s.Awake) {request : MessageRequest} {phase : WaitPhase}
    (hframe : s.frames = .waitForMessage c request phase :: frames)
    (hstep : s.waitForMessageStep c request frames phase = some t) : t.Awake := by
  have hend : ∀ t : ConnectionSystem ι, t.frames = frames →
      t.syncMessageState = s.syncMessageState → (s.Signalled → t.Signalled) → t.Awake := by
    intro t hframes hstate hsignal
    exact h.replaceCall [] hframe rfl (fun heq => by cases heq) hframes
      (fun _ hmem => absurd hmem not_mem_nil) id (by rw [hstate]) hsignal
  have hphase : ∀ (phase' : WaitPhase) (t : ConnectionSystem ι),
      t.frames = .waitForMessage c request phase' :: frames →
      t.syncMessageState = s.syncMessageState → (s.Signalled → t.Signalled) → t.Awake := by
    intro phase' t hframes hstate hsignal
    refine h.replaceCall [.waitForMessage c request phase'] hframe rfl (fun heq => by cases heq)
      hframes ?_ (fun hnested => ⟨trivial, hnested⟩) (by rw [hstate]) hsignal
    intro frame hmem
    rw [mem_singleton.mp hmem]
    rfl
  have hset : ∀ k : Connection, k.receiveQueue = (s.connections c).receiveQueue →
      s.Signalled → (s.setConnection c k).Signalled :=
    fun k hk hsignal => hsignal.setConnection fun hwaking => hk.trans hwaking
  cases phase with
  | checkQueue =>
    rw [ConnectionSystem.waitForMessageStep] at hstep
    split at hstep
    · cases hstep
      exact hend _ rfl rfl (hset _ rfl)
    · split at hstep
      · cases hstep
        exact hend _ rfl rfl (hset _ rfl)
      · cases hstep
        exact hphase .register _ rfl rfl id
  | register =>
    cases hstep
    exact hphase .checkDecoder _ rfl rfl (hset _ rfl)
  | checkDecoder =>
    rw [ConnectionSystem.waitForMessageStep] at hstep
    split at hstep
    · cases hstep
      exact hend _ rfl rfl (hset _ rfl)
    · cases hstep
      exact hphase .waiting _ rfl rfl id
  | waiting => cases hstep
  | giveUp =>
    cases hstep
    exact hend _ rfl rfl (hset _ rfl)

omit [DecidableEq ι] in
theorem wakeWaiter (h : s.Awake) {timeout : Bool} (hstep : s.wakeWaiter timeout = some t) :
    t.Awake := by
  unfold ConnectionSystem.wakeWaiter at hstep
  split at hstep
  · rename_i c request frames hframe
    cases hstep
    refine h.replaceCall [.waitForMessage c request _] hframe rfl (fun heq => by cases heq) rfl ?_
      (fun hnested => ⟨trivial, hnested⟩) rfl id
    intro frame hmem
    rw [mem_singleton.mp hmem]
    rfl
  · cases hstep

variable {allowedConnection : Option ι}

omit [DecidableEq ι] in
theorem swapMessages (h : s.Awake)
    (hframe : s.frames = .dispatchMessages allowedConnection :: frames) :
    (s.swapMessages allowedConnection frames).Awake := by
  have hnested := h.nested
  rw [hframe] at hnested
  refine ⟨⟨?_, hnested.2⟩, .inl rfl⟩
  cases allowedConnection with
  | none => rfl
  | some c => exact hnested.1

theorem dispatchNext (h : s.Awake) {p : ι × MessageDecoder}
    {messages putBack : List (ι × MessageDecoder)}
    (hframe : s.frames = .dispatching allowedConnection (p :: messages) putBack :: frames) :
    (s.dispatchNext allowedConnection p messages putBack frames).Awake := by
  have hnested := h.nested
  rw [hframe] at hnested
  have hhead : ∀ frames', s.frames ≠ .dispatchMessages none :: frames' := by
    intro frames' heq
    rw [hframe] at heq
    cases heq
  have hsheltered : Sheltered s.frames → Sheltered frames := by
    rw [hframe]
    exact id
  have hsame : (Frame.dispatching allowedConnection messages putBack).NestedIn frames := by
    cases allowedConnection with
    | none | some => exact hnested.1
  unfold ConnectionSystem.dispatchNext
  split
  · unfold dispatchMessage
    split
    · exact h.setFrames rfl id hhead ⟨trivial, hsame, hnested.2⟩ hsheltered
    · exact h.setFrames rfl id hhead ⟨hsame, hnested.2⟩ hsheltered
  · rename_i hother
    rw [not_or] at hother
    cases allowedConnection with
    | none => exact absurd rfl hother.1
    | some c => exact h.setFrames rfl id hhead ⟨hnested.1, hnested.2⟩ hsheltered

omit [DecidableEq ι] in
theorem putBackMessages (h : s.Awake) {putBack : List (ι × MessageDecoder)}
    (hframe : s.frames = .dispatching allowedConnection [] putBack :: frames) :
    (s.putBackMessages putBack frames).Awake := by
  have hnested := h.nested
  rw [hframe] at hnested
  cases allowedConnection with
  | some c => exact ⟨hnested.2, .inr (.inr (.inr hnested.1))⟩
  | none =>
    have hnil : putBack = [] := hnested.1
    subst hnil
    refine h.setFrames (append_nil _) id ?_ hnested.2 ?_
    · intro frames' heq
      rw [hframe] at heq
      cases heq
    · rw [hframe]
      exact id

omit [DecidableEq ι] in
theorem setPhase (h : s.Awake)
    (hframe : s.frames = .sendSyncMessage c syncRequestID spin phase :: rest) (phase' : SyncPhase)
    (hphase : phase ≠ .spin) :
    Awake { s with frames := .sendSyncMessage c syncRequestID spin phase' :: rest } := by
  have hnested := h.nested
  rw [hframe] at hnested
  refine h.setFrames rfl id ?_ ⟨trivial, hnested.2⟩ ?_
  · intro frames heq
    rw [hframe] at heq
    cases heq
  · rw [hframe, sheltered_sender hphase]
    intro hsheltered
    cases phase' with
    | spin => trivial
    | _ => exact hsheltered

theorem sendSyncMessageStep (h : s.Awake)
    (hframe : s.frames = .sendSyncMessage c syncRequestID spin phase :: frames)
    (hstep : s.sendSyncMessageStep c syncRequestID spin frames phase = some t) : t.Awake := by
  cases phase with
  | dispatched =>
    rw [ConnectionSystem.sendSyncMessageStep] at hstep
    split at hstep
    · cases hstep
    · cases hstep
      exact h.setPhase hframe _ fun heq => by cases heq
  | checkValid =>
    cases hstep
    exact h.setPhase hframe _ fun heq => by cases heq
  | wait | spin => cases hstep
  | finish reply =>
    cases hstep
    have hnested := h.nested
    rw [hframe] at hnested
    refine h.setFrames rfl ?_ ?_ hnested.2 ?_
    · intro hsignal
      exact hsignal.setConnection (c := c) (k := { s.connections c with
        pendingSyncReplies := (s.connections c).pendingSyncReplies.tail }) id
    · intro frames' heq
      rw [hframe] at heq
      cases heq
    · rw [hframe, sheltered_sender fun heq => by cases heq]
      exact And.right

omit [DecidableEq ι] in
theorem wakeSender (h : s.Awake) {timedOut : Bool} (hstep : s.wakeSender timedOut = some t) :
    t.Awake := by
  unfold ConnectionSystem.wakeSender at hstep
  split at hstep
  · rename_i hframe
    have hnested := h.nested
    rw [hframe] at hnested
    split at hstep
    · cases hstep
      exact h.setPhase hframe _ fun heq => by cases heq
    · split at hstep
      · cases hstep
        exact nextIteration hnested.2
      · cases hstep
  · cases hstep

omit [DecidableEq ι] in
theorem stopSpinning (h : s.Awake) {timedOut : Bool} (hstep : s.stopSpinning timedOut = some t)
    (hguard : s.SpinsInTime (.stopSpinning timedOut)) : t.Awake := by
  unfold ConnectionSystem.stopSpinning at hstep
  split at hstep
  · rename_i hframe
    have hnested := h.nested
    rw [hframe] at hnested
    split at hstep
    · rename_i htimedOut
      cases hstep
      rw [htimedOut] at hguard
      exact ⟨⟨trivial, hnested.2⟩, hguard.imp_right .inl⟩
    · cases hstep
      exact nextIteration hnested.2
  · cases hstep

theorem sendSyncMessage (h : s.Awake) : (s.sendSyncMessage c syncRequestID spin).Awake := by
  unfold ConnectionSystem.sendSyncMessage
  dsimp only
  split
  · exact h.keep rfl rfl id
  · exact ⟨⟨trivial, trivial, h.nested⟩, .inr (.inr (.inl ⟨_, rfl⟩))⟩

theorem clientAction (h : s.Awake) {action : ClientAction ι}
    (hstep : s.clientAction action = some t) : t.Awake := by
  unfold ConnectionSystem.clientAction at hstep
  split at hstep
  · rename_i frames hframe
    cases action with
    | «return» =>
      cases hstep
      exact h.replaceCall [] hframe rfl (fun heq => by cases heq) rfl
        (fun _ hmem => absurd hmem not_mem_nil) id rfl id
    | invalidate c =>
      cases hstep
      exact h.setConnection id
    | waitForMessage c request =>
      cases hstep
      refine h.replaceCall [.waitForMessage c request .checkQueue, .client] hframe rfl
        (fun heq => by cases heq) ?_ ?_ (fun hnested => ⟨trivial, trivial, hnested⟩) rfl id
      · rw [hframe]
        rfl
      · intro frame hmem
        rcases mem_cons.mp hmem with rfl | hmem
        · rfl
        · rw [mem_singleton.mp hmem]
          rfl
    | sendSyncMessage c syncRequestID spin =>
      cases hstep
      exact h.sendSyncMessage
  · cases hstep

theorem clientStep (h : s.Awake) (hstep : s.clientStep = some t) : t.Awake := by
  unfold ConnectionSystem.clientStep at hstep
  split at hstep
  · rename_i hframe
    cases hstep
    exact h.swapMessages hframe
  · rename_i hframe
    cases hstep
    exact h.dispatchNext hframe
  · rename_i hframe
    cases hstep
    exact h.putBackMessages hframe
  · rename_i hframe
    exact h.waitForMessageStep hframe hstep
  · rename_i hframe
    exact h.sendSyncMessageStep hframe hstep
  · cases hstep

theorem step (h : s.Awake) {label : Label ι} (hstep : s.step label = some t)
    (hguard : s.SpinsInTime label) : t.Awake := by
  cases label with
  | receive c message =>
    rw [ConnectionSystem.step] at hstep
    split at hstep
    · rename_i hidle
      cases hstep
      exact h.processIncomingMessage hidle message
    · cases hstep
  | connectionDidClose c =>
    rw [ConnectionSystem.step] at hstep
    split at hstep
    · rename_i hidle
      cases hstep
      exact h.connectionDidClose hidle
    · cases hstep
  | receiveQueueStep c => exact h.receiveQueueStep hstep
  | performWork => exact h.performWork hstep
  | runClient =>
    rw [ConnectionSystem.step] at hstep
    split at hstep
    · rename_i hloop
      cases hstep
      exact h.callFunction hloop (.inr ⟨_, rfl, rfl, fun _ _ heq => by cases heq⟩)
    · cases hstep
  | clientAction action => exact h.clientAction hstep
  | clientStep => exact h.clientStep hstep
  | wakeWaiter timeout => exact h.wakeWaiter hstep
  | wakeSender timedOut => exact h.wakeSender hstep
  | stopSpinning timedOut => exact h.stopSpinning hstep hguard

end Awake

/-- In every run, replies match their requests, and a sender that sleeps has not been answered.
If the senders that run the run loop do not time out with messages in the queue, a sender that
sleeps has no message to dispatch. -/
theorem matched_and_sleepsWithoutMessages {labels : List (Label ι)}
    (h : Run (fun s label t => s.step label = some t) initial labels s) :
    s.Matched ∧ (Run (guarded (fun s label t => s.step label = some t) SpinsInTime) initial labels s →
      s.SleepsWithoutMessages) := by
  have hsynced : s.Synced := h.preserves (fun _ _ _ hs hstep => hs.step hstep) synced_initial
  refine ⟨hsynced.matched, ?_⟩
  intro hguarded
  have hawake : s.Awake :=
    hguarded.preserves (fun _ _ _ hs hstep => hs.step hstep.2 hstep.1) awake_initial
  exact hawake.sleepsWithoutMessages hsynced

/-- A message that a client may handle while it waits for a reply. -/
def interruptingMessage : MessageDecoder where
  serial := 0
  messageReceiverName := "WebPage"
  messageName := "Interrupt"
  destinationID := 1
  isSyncMessage := true
  shouldDispatchMessageWhenWaitingForSyncReply := true

/-- A sender with an empty queue comes to its wait, or into the run loop. -/
def toWait : List (Label Bool) := [.clientStep, .clientStep, .clientStep, .clientStep]

/-- A message comes in and is signalled. -/
def interrupt (c : Bool) : List (Label Bool) := [.receive c interruptingMessage, .receiveQueueStep c]

def beginToSleep : List (Label Bool) :=
  [.runClient, .clientAction (.sendSyncMessage true 1 false)] ++ toWait

/-- The handler of a message runs the run loop inside a second call, and the run loop a dispatch
for one connection. A third call in its handler takes the signal, the message of the other
connection is put back, and the second call times out. -/
def timeOutInRunLoop : List (Label Bool) :=
  beginToSleep ++ interrupt true ++ [.wakeSender false, .clientStep, .clientStep] ++
    [.clientAction (.sendSyncMessage true 2 true)] ++ toWait ++ interrupt false ++ interrupt true ++
    [.performWork, .clientStep, .clientStep, .clientStep,
      .clientAction (.sendSyncMessage true 3 false)] ++ toWait ++ [.wakeSender false] ++ toWait ++
    [.wakeSender true, .clientStep, .clientAction .return, .clientStep, .stopSpinning true,
      .clientStep, .clientAction .return, .clientStep, .clientStep, .clientStep]

theorem matched_and_sleepsWithoutMessages_reply : ∃ s : ConnectionSystem Bool,
    s.returned = [⟨true, 1, some ⟨0, "IPC", "SyncMessageReply", 1, false, false⟩⟩] ∧ s.Matched ∧
      s.SleepsWithoutMessages := by
  have hrun : ∃ s : ConnectionSystem Bool,
      Run (guarded (fun s label t => s.step label = some t) SpinsInTime) initial
        (beginToSleep ++ [Label.receive true ⟨0, "IPC", "SyncMessageReply", 1, false, false⟩,
          Label.wakeSender false, Label.clientStep, Label.clientStep, Label.clientStep,
          Label.clientStep]) s ∧
      s.returned = [⟨true, 1, some ⟨0, "IPC", "SyncMessageReply", 1, false, false⟩⟩] := by
    refine ⟨_, .cons ⟨trivial, rfl⟩ (.cons ⟨trivial, rfl⟩ (.cons ⟨trivial, rfl⟩
      (.cons ⟨trivial, rfl⟩ (.cons ⟨trivial, rfl⟩ (.cons ⟨trivial, rfl⟩ (.cons ⟨trivial, rfl⟩
      (.cons ⟨trivial, rfl⟩ (.cons ⟨trivial, rfl⟩ (.cons ⟨trivial, rfl⟩ (.cons ⟨trivial, rfl⟩
      (.cons ⟨trivial, rfl⟩ (.nil _)))))))))))), rfl⟩
  obtain ⟨s, hrun, hreturned⟩ := hrun
  obtain ⟨hmatched, hsleeps⟩ :=
    matched_and_sleepsWithoutMessages (hrun.mono fun _ _ _ hstep => hstep.2)
  exact ⟨s, hreturned, hmatched, hsleeps hrun⟩

/-- A message is appended before it is signalled, and a message that was put back may not be
signalled again. -/
theorem not_sleepsWithoutMessages : (¬ ∀ (labels : List (Label Bool)) (s : ConnectionSystem Bool),
      Run (fun s label t => s.step label = some t) initial labels s →
      ∀ c syncRequestID spin frames,
        s.frames = .sendSyncMessage c syncRequestID spin .wait :: frames →
        s.syncMessageState.waitForSyncReplySemaphore = false →
        s.syncMessageState.messagesToDispatchWhileWaitingForSyncReply = []) ∧
    ¬ ∀ (labels : List (Label Bool)) (s : ConnectionSystem Bool),
      Run (fun s label t => s.step label = some t) initial labels s → s.SleepsWithoutMessages := by
  constructor
  · intro hall
    have hrun : ∃ s : ConnectionSystem Bool,
        (beginToSleep ++ [Label.receive true interruptingMessage]).foldlM step initial = some s ∧
        s.frames = [.sendSyncMessage true 1 false .wait, .client] ∧
        s.syncMessageState.waitForSyncReplySemaphore = false ∧
        s.syncMessageState.messagesToDispatchWhileWaitingForSyncReply =
          [(true, interruptingMessage)] := ⟨_, rfl, rfl, rfl, rfl⟩
    obtain ⟨s, hrun, hframes, hsemaphore, hqueue⟩ := hrun
    have hempty := hall _ s (Run.of_foldlM hrun) _ _ _ _ hframes hsemaphore
    rw [hqueue] at hempty
    cases hempty
  · intro hall
    have hrun : ∃ s : ConnectionSystem Bool, timeOutInRunLoop.foldlM step initial = some s ∧
        s.frames = [.sendSyncMessage true 1 false .wait, .client] ∧
        s.syncMessageState.waitForSyncReplySemaphore = false ∧
        s.syncMessageState.messagesToDispatchWhileWaitingForSyncReply =
          [(false, { interruptingMessage with serial := 1 })] ∧
        ∀ c, (s.connections c).receiveQueue = .idle := by
      refine ⟨_, rfl, rfl, rfl, rfl, ?_⟩
      intro c
      cases c <;> rfl
    obtain ⟨s, hrun, hframes, hsemaphore, hqueue, hidle⟩ := hrun
    rcases hall _ s (Run.of_foldlM hrun) _ _ _ _ hframes hsemaphore with hempty | ⟨c, hc⟩
    · rw [hqueue] at hempty
      cases hempty
    · rw [hidle c] at hc
      cases hc

end ConnectionSystem

end WebKit.IPC
