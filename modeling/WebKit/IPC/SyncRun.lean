import WebKit.IPC.Connection
import WebKit.Transition.Run

/-!
# Replies belong to their requests

The pending replies of a connection are the requests of the `sendSyncMessage` calls on the stack
of the client thread, in the same order, so a call that ends pops its own request (`Matched`). A
call that sleeps has looked at its request after the last signal was taken from the semaphore:
nothing has come for it since (`Unanswered`).
-/

open List

namespace WebKit.IPC

open Transition PendingSyncReply Frame

variable {ι : Type} [DecidableEq ι]

/-- The message is a reply to the request. -/
def MessageDecoder.RepliesTo (message : MessageDecoder) (syncRequestID : ℕ) : Prop :=
  message.isSyncMessageReply = true ∧ message.destinationID = syncRequestID

/-- The reply is there once it is said to be, and is one to the request. -/
def PendingSyncReply.Consistent (pendingSyncReply : PendingSyncReply) : Prop :=
  ∀ message, pendingSyncReply.replyDecoder = some message →
    pendingSyncReply.didReceiveReply = true ∧ message.RepliesTo pendingSyncReply.syncRequestID

/-- The request for which a call waits on the connection. -/
def Frame.request? (c : ι) : Frame ι → Option ℕ
  | .sendSyncMessage c' syncRequestID _ _ => if c' = c then some syncRequestID else none
  | _ => none

def Frame.isSender : Frame ι → Bool
  | .sendSyncMessage _ _ _ _ => true
  | _ => false

/-- A sender may have another call above it. -/
def Frame.Suspended : Frame ι → Prop
  | .sendSyncMessage _ _ spin phase => phase = .dispatched ∨ (phase = .spin ∧ spin = true)
  | _ => True

omit [DecidableEq ι] in
theorem Frame.suspended_of_not_isSender {frame : Frame ι} (h : frame.isSender = false) :
    frame.Suspended := by
  cases frame with
  | sendSyncMessage _ _ _ _ => cases h
  | _ => trivial

theorem Frame.request?_of_not_isSender {frame : Frame ι} (h : frame.isSender = false) (c : ι) :
    frame.request? c = none := by
  cases frame with
  | sendSyncMessage _ _ _ _ => cases h
  | _ => rfl

theorem Frame.request?_self (c : ι) (syncRequestID : ℕ) (spin : Bool) (phase : SyncPhase) :
    (sendSyncMessage c syncRequestID spin phase).request? c = some syncRequestID :=
  if_pos rfl

namespace ConnectionSystem

/-- The requests for which the calls on a stack wait on the connection. -/
def requests (c : ι) (frames : List (Frame ι)) : List ℕ := frames.filterMap (request? c)

/-- What is asked of a state about requests and replies. -/
structure Matched (s : ConnectionSystem ι) : Prop where
  returned : ∀ result ∈ s.returned, ∀ message, result.reply = some message →
    message.RepliesTo result.syncRequestID
  stack : ∀ c, (s.connections c).pendingSyncReplies.map syncRequestID =
    requests c s.frames
  blocked : ∀ c syncRequestID spin frames,
    s.frames = .sendSyncMessage c syncRequestID spin .wait :: frames →
    s.syncMessageState.waitForSyncReplySemaphore = false →
    (s.connections c).pendingSyncReplies.head? = some ⟨syncRequestID, none, false⟩ ∧
      (s.connections c).shouldWaitForSyncReplies = true

/-- Nothing has come for the last request, or the semaphore says so. -/
def Unanswered (s : ConnectionSystem ι) (c : ι) : Prop :=
  s.syncMessageState.waitForSyncReplySemaphore = false →
    (s.connections c).shouldWaitForSyncReplies = true ∧
    ∀ pendingSyncReply, (s.connections c).pendingSyncReplies.head? = some pendingSyncReply →
      pendingSyncReply.didReceiveReply = false

/-- What the innermost call has found out. -/
def InPhase (s : ConnectionSystem ι) (c : ι) (syncRequestID : ℕ) (spin : Bool) : SyncPhase → Prop
  | .dispatched => True
  | .checkValid => s.Unanswered c
  | .wait => s.Unanswered c ∧ spin = false
  | .spin => spin = true
  | .finish reply => ∀ message, reply = some message → message.RepliesTo syncRequestID

structure Synced (s : ConnectionSystem ι) : Prop where
  returned : ∀ result ∈ s.returned, ∀ message, result.reply = some message →
    message.RepliesTo result.syncRequestID
  stack : ∀ c, (s.connections c).pendingSyncReplies.map syncRequestID =
    requests c s.frames
  consistent : ∀ c, ∀ pendingSyncReply ∈ (s.connections c).pendingSyncReplies,
    pendingSyncReply.Consistent
  suspended : ∀ frame ∈ s.frames.tail, frame.Suspended
  inPhase : ∀ c syncRequestID spin phase frames,
    s.frames = .sendSyncMessage c syncRequestID spin phase :: frames →
    s.InPhase c syncRequestID spin phase

variable {s t : ConnectionSystem ι} {c : ι} {k : Connection} {message : MessageDecoder}

theorem synced_initial : (initial : ConnectionSystem ι).Synced := by
  constructor <;> simp [initial, Connection.initial, requests]

namespace Synced

section

variable (h : s.Synced)
include h

theorem matched : s.Matched where
  returned := h.returned
  stack := h.stack
  blocked := by
    intro c syncRequestID spin frames hframes hsem
    obtain ⟨hshould, hhead⟩ := (h.inPhase _ _ _ _ _ hframes).1 hsem
    have hstack := h.stack c
    have hconsis := h.consistent c
    rw [hframes, requests, filterMap_cons_some (request?_self c _ _ _)] at hstack
    cases hpend : (s.connections c).pendingSyncReplies with
    | nil =>
      rw [hpend] at hstack
      cases hstack
    | cons pendingSyncReply rest =>
      rw [hpend] at hstack hhead hconsis
      have hnot := hhead pendingSyncReply rfl
      refine ⟨?_, hshould⟩
      obtain ⟨syncRequestID', replyDecoder, didReceiveReply⟩ := pendingSyncReply
      obtain rfl : syncRequestID' = syncRequestID := (cons.inj hstack).1
      obtain rfl : didReceiveReply = false := hnot
      cases replyDecoder with
      | none => rfl
      | some message => cases (hconsis _ mem_cons_self message rfl).1

/-- The requests stay, and the innermost call learns of what comes for its own. -/
theorem setReplies (hframes : t.frames = s.frames)
    (hret : t.returned = s.returned)
    (hids : ∀ c, (t.connections c).pendingSyncReplies.map syncRequestID =
      (s.connections c).pendingSyncReplies.map syncRequestID)
    (hconsis : ∀ c, ∀ pendingSyncReply ∈ (t.connections c).pendingSyncReplies,
      pendingSyncReply.Consistent)
    (hunanswered : ∀ c, (s.connections c).pendingSyncReplies ≠ [] → s.Unanswered c →
      t.Unanswered c) : t.Synced where
  returned := hret ▸ h.returned
  stack c := by rw [hids, hframes, h.stack]
  consistent := hconsis
  suspended := hframes ▸ h.suspended
  inPhase := by
    intro c syncRequestID spin phase frames hframe
    rw [hframes] at hframe
    have hold := h.inPhase _ _ _ _ _ hframe
    have hne : (s.connections c).pendingSyncReplies ≠ [] := by
      intro hnil
      have hstack := h.stack c
      rw [hnil, hframe, requests, filterMap_cons_some (request?_self c _ _ _)] at hstack
      cases hstack
    cases phase with
    | dispatched => trivial
    | checkValid => exact hunanswered c hne hold
    | wait => exact ⟨hunanswered c hne hold.1, hold.2⟩
    | spin | finish => exact hold

theorem keep (hframes : t.frames = s.frames) (hret : t.returned = s.returned)
    (hpend : ∀ c, (t.connections c).pendingSyncReplies = (s.connections c).pendingSyncReplies)
    (hshould : ∀ c, (t.connections c).shouldWaitForSyncReplies =
      (s.connections c).shouldWaitForSyncReplies)
    (hsem : t.syncMessageState.waitForSyncReplySemaphore = false →
      s.syncMessageState.waitForSyncReplySemaphore = false) : t.Synced := by
  apply h.setReplies hframes hret
  · intro c
    rw [hpend]
  · intro c
    rw [hpend]
    exact h.consistent c
  · intro c _ hold hfalse
    rw [hpend, hshould]
    exact hold (hsem hfalse)

theorem wakeUpClientRunLoop : s.wakeUpClientRunLoop.Synced := by
  refine h.keep rfl rfl (fun _ => rfl) (fun _ => rfl) ?_
  intro hfalse
  cases hfalse

theorem setConnection (hpend : k.pendingSyncReplies = (s.connections c).pendingSyncReplies)
    (hshould : k.shouldWaitForSyncReplies = (s.connections c).shouldWaitForSyncReplies) :
    (s.setConnection c k).Synced := by
  refine h.keep rfl rfl ?_ ?_ id
  · intro c'
    rw [connections_setConnection]
    split
    · rename_i heq
      rw [heq, hpend]
    · rfl
  · intro c'
    rw [connections_setConnection]
    split
    · rename_i heq
      rw [heq, hshould]
    · rfl

theorem dispatch (function : RunLoopFunction ι) : (s.dispatch function).Synced :=
  h.keep rfl rfl (fun _ => rfl) (fun _ => rfl) id

end

theorem fillReply_eq_some {pending new : List PendingSyncReply} {isLast : Bool}
    (h : fillReply message pending = some (isLast, new)) :
    new.map syncRequestID = pending.map syncRequestID ∧
    (∀ pendingSyncReply ∈ new, pendingSyncReply ∈ pending ∨
      pendingSyncReply = ⟨message.destinationID, some message, true⟩) ∧
    (isLast = false → new.head? = pending.head?) := by
  induction pending generalizing isLast new with
  | nil => cases h
  | cons first rest ih =>
    rw [fillReply] at h
    split at h
    · rename_i heq
      cases h
      refine ⟨by rw [map_cons, map_cons], ?_, fun hlast => by cases hlast⟩
      intro pendingSyncReply hmem
      rcases mem_cons.mp hmem with rfl | hmem
      · exact .inr (by rw [heq])
      · exact .inl (mem_cons_of_mem _ hmem)
    · obtain ⟨⟨last, replies⟩, hfill, hr⟩ := Option.map_eq_some_iff.mp h
      cases hr
      obtain ⟨hids, hmem, -⟩ := ih hfill
      refine ⟨by rw [map_cons, map_cons, hids], ?_, fun _ => rfl⟩
      intro pendingSyncReply hp
      rcases mem_cons.mp hp with rfl | hp
      · exact .inl mem_cons_self
      · exact (hmem _ hp).imp_left (mem_cons_of_mem _)

section

variable (h : s.Synced)
include h

theorem processIncomingSyncReply (hreply : message.isSyncMessageReply = true) :
    (s.processIncomingSyncReply c message).Synced := by
  unfold ConnectionSystem.processIncomingSyncReply
  cases hfill : fillReply message (s.connections c).pendingSyncReplies with
  | none => exact h
  | some r =>
    obtain ⟨isLast, replies⟩ := r
    obtain ⟨hids, hmem, hhead⟩ := fillReply_eq_some hfill
    have hids' : ∀ c', ((s.setConnection c { s.connections c with
        pendingSyncReplies := replies }).connections c').pendingSyncReplies.map syncRequestID =
        (s.connections c').pendingSyncReplies.map syncRequestID := by
      intro c'
      rw [connections_setConnection]
      split
      · rename_i heq
        rw [heq]
        exact hids
      · rfl
    have hconsis : ∀ c', ∀ pendingSyncReply ∈ ((s.setConnection c { s.connections c with
        pendingSyncReplies := replies }).connections c').pendingSyncReplies,
        pendingSyncReply.Consistent := by
      intro c' pendingSyncReply hp
      rw [connections_setConnection] at hp
      split at hp
      · rcases hmem pendingSyncReply hp with hp | rfl
        · exact h.consistent c _ hp
        · intro message' heq
          cases heq
          exact ⟨rfl, hreply, rfl⟩
      · exact h.consistent c' _ hp
    dsimp only
    split
    · -- the call that waits for the last reply is told
      refine h.setReplies rfl rfl hids' hconsis ?_
      intro c' _ _ hfalse
      cases hfalse
    · rename_i hlast
      refine h.setReplies rfl rfl hids' hconsis ?_
      intro c' _ hold hfalse
      obtain ⟨hshould, hnot⟩ := hold hfalse
      rw [connections_setConnection]
      split
      · rename_i heq
        rw [heq] at hshould hnot
        refine ⟨hshould, ?_⟩
        intro pendingSyncReply hp
        exact hnot _ ((hhead (Bool.eq_false_iff.mpr hlast)).symm.trans hp)
      · exact ⟨hshould, hnot⟩

theorem appendSyncMessage : (s.appendSyncMessage c message).Synced := by
  unfold ConnectionSystem.appendSyncMessage
  dsimp only
  split
  all_goals exact h.keep rfl rfl (fun _ => rfl) (fun _ => rfl) id

theorem processIncomingMessage (message : MessageDecoder) :
    (s.processIncomingMessage c message).Synced := by
  have hcount : Synced { s with received := s.received + 1 } :=
    h.keep rfl rfl (fun _ => rfl) (fun _ => rfl) id
  rw [ConnectionSystem.processIncomingMessage]
  split
  · rename_i hreply
    exact hcount.processIncomingSyncReply hreply
  · split
    · exact hcount.appendSyncMessage.setConnection rfl rfl
    · exact hcount.setConnection rfl rfl

theorem checkWaiter : (s.checkWaiter c message).Synced := by
  unfold ConnectionSystem.checkWaiter
  dsimp only
  split
  · exact h.setConnection rfl rfl
  · split
    · rename_i waiting _ _
      have hset : Synced (s.setConnection c { s.connections c with
          waitingForMessage := some { waiting with decoder := some message }
          receiveQueue := .idle }) := h.setConnection rfl rfl
      exact hset.keep rfl rfl (fun _ => rfl) (fun _ => rfl) id
    · split <;> exact h.setConnection rfl rfl

theorem enqueueIncomingMessage : (s.enqueueIncomingMessage c message).Synced := by
  have hset : Synced (s.setConnection c { s.connections c with
      incomingMessages := (s.connections c).incomingMessages ++ [message]
      receiveQueue := .idle }) := h.setConnection rfl rfl
  exact hset.keep rfl rfl (fun _ => rfl) (fun _ => rfl) id

/-- The calls that wait on the connection are told that it is closed. -/
theorem connectionDidClose : (s.connectionDidClose c).Synced := by
  have hpend : ∀ c', ((s.setConnection c { s.connections c with
      shouldWaitForSyncReplies := false, receiveQueue := .closing }).connections c'
      ).pendingSyncReplies = (s.connections c').pendingSyncReplies := by
    intro c'
    rw [connections_setConnection]
    split
    · rename_i heq
      rw [heq]
    · rfl
  unfold ConnectionSystem.connectionDidClose
  dsimp only
  split
  · refine h.setReplies rfl rfl ?_ ?_ ?_
    · intro c'
      exact congrArg _ (hpend c')
    · intro c' p hp
      exact h.consistent c' p (hpend c' ▸ hp)
    · intro c' _ _ hfalse
      cases hfalse
  · rename_i hnil
    rw [ne_eq, not_not] at hnil
    refine h.setReplies rfl rfl ?_ ?_ ?_
    · intro c'
      rw [hpend]
    · intro c'
      rw [hpend]
      exact h.consistent c'
    · intro c' hne hold hfalse
      rw [hpend, connections_setConnection, if_neg]
      · exact hold hfalse
      · rintro rfl
        exact hne hnil

theorem receiveQueueStep (hstep : s.receiveQueueStep c = some t) : t.Synced := by
  unfold ConnectionSystem.receiveQueueStep at hstep
  split at hstep
  · cases hstep
  · cases hstep
    exact h.wakeUpClientRunLoop.setConnection rfl rfl
  · cases hstep
    exact h.checkWaiter
  · cases hstep
    exact h.enqueueIncomingMessage
  · cases hstep
    have hset : Synced (s.setConnection c { s.connections c with
        waitingForMessage := (s.connections c).waitingForMessage.map fun w =>
          { w with messageWaitingInterrupted := true }
        receiveQueue := .closed }) := h.setConnection rfl rfl
    exact hset.dispatch _
  · cases hstep

end

end Synced

end ConnectionSystem

/-!
## Steps of the client thread keep requests and replies together

Only `sendSyncMessage` and its loop look at requests. The other calls come and go above a
suspended sender.
-/

open Transition

variable {ι : Type} [DecidableEq ι]

namespace ConnectionSystem

variable {s t : ConnectionSystem ι} {c : ι} {k : Connection} {message : MessageDecoder}
  {frame : Frame ι} {new rest frames : List (Frame ι)} {syncRequestID : ℕ} {spin : Bool}
  {phase : SyncPhase}

theorem pendingSyncReplies_setConnection
    (hpend : k.pendingSyncReplies = (s.connections c).pendingSyncReplies) (c' : ι) :
    ((s.setConnection c k).connections c').pendingSyncReplies =
      (s.connections c').pendingSyncReplies := by
  rw [connections_setConnection]
  split
  · rename_i heq
    rw [heq, hpend]
  · rfl

theorem requests_cons_of_not_isSender (hframe : frame.isSender = false) (c : ι) :
    requests c (frame :: frames) = requests c frames :=
  filterMap_cons_none (request?_of_not_isSender hframe c)

theorem requests_append (hnew : ∀ frame ∈ new, frame.isSender = false) (c : ι) :
    requests c (new ++ frames) = requests c frames := by
  induction new with
  | nil => rfl
  | cons frame new ih =>
    rw [cons_append, requests_cons_of_not_isSender (hnew frame mem_cons_self)]
    exact ih fun frame hframe => hnew frame (mem_cons_of_mem _ hframe)

namespace Synced

section

variable (h : s.Synced)
include h

/-- Other calls take the place of the innermost ones, above suspended senders. -/
theorem setFrames (new : List (Frame ι)) (hframes : t.frames = new ++ rest)
    (hret : t.returned = s.returned)
    (hpend : ∀ c, (t.connections c).pendingSyncReplies = (s.connections c).pendingSyncReplies)
    (hreqs : ∀ c, requests c rest = requests c s.frames)
    (hrest : ∀ frame ∈ rest, frame.Suspended)
    (hnew : ∀ frame ∈ new, frame.isSender = false) : t.Synced where
  returned := hret ▸ h.returned
  stack c := by rw [hpend, hframes, requests_append hnew, hreqs, h.stack]
  consistent c := by
    rw [hpend]
    exact h.consistent c
  suspended := by
    intro frame hframe
    rw [hframes] at hframe
    rcases mem_append.mp (mem_of_mem_tail hframe) with hframe | hframe
    · exact suspended_of_not_isSender (hnew frame hframe)
    · exact hrest frame hframe
  inPhase := by
    intro c syncRequestID spin phase frames heq
    rw [hframes] at heq
    cases new with
    | nil =>
      rcases hrest _ (heq ▸ mem_cons_self) with rfl | ⟨rfl, hspin⟩
      · trivial
      · exact hspin
    | cons frame new =>
      obtain rfl := (cons.inj heq).1
      cases hnew _ mem_cons_self

/-- The innermost call is not a sender, and others take its place. -/
theorem replaceCall (new : List (Frame ι)) (hframe : s.frames = frame :: rest)
    (hsender : frame.isSender = false) (hframes : t.frames = new ++ rest)
    (hret : t.returned = s.returned)
    (hpend : ∀ c, (t.connections c).pendingSyncReplies = (s.connections c).pendingSyncReplies)
    (hnew : ∀ frame ∈ new, frame.isSender = false) : t.Synced := by
  apply h.setFrames new hframes hret hpend _ _ hnew
  · intro c
    rw [hframe, requests_cons_of_not_isSender hsender]
  · intro frame' hframe'
    apply h.suspended
    rw [hframe]
    exact hframe'

theorem callFunction (new : List (Frame ι)) (hloop : s.isInRunLoop = true)
    (hframes : t.frames = new ++ s.frames) (hret : t.returned = s.returned)
    (hpend : ∀ c, (t.connections c).pendingSyncReplies = (s.connections c).pendingSyncReplies)
    (hnew : ∀ frame ∈ new, frame.isSender = false) : t.Synced := by
  apply h.setFrames new hframes hret hpend _ _ hnew
  · intro c
    rfl
  · intro frame hframe
    have hsuspended := h.suspended
    have hphase := h.inPhase
    unfold isInRunLoop at hloop
    split at hloop
    · rename_i hnil
      rw [hnil] at hframe
      cases hframe
    · rename_i hspin
      rw [hspin] at hframe hsuspended
      rcases mem_cons.mp hframe with rfl | hframe
      · exact .inr ⟨rfl, hphase _ _ _ _ _ hspin⟩
      · exact hsuspended frame hframe
    · cases hloop

theorem performWork (hstep : s.performWork = some t) : t.Synced := by
  have hclient : ∀ frame ∈ [(client : Frame ι)], frame.isSender = false := by
    intro frame hframe
    rw [mem_singleton.mp hframe]
    rfl
  unfold ConnectionSystem.performWork at hstep
  split at hstep
  · rename_i function rest hloop _
    cases hstep
    cases function with
    | dispatchOneMessage c =>
      rw [ConnectionSystem.callFunction]
      unfold dispatchOneMessage
      split
      · exact h.callFunction [] hloop rfl rfl (fun _ => rfl)
          fun _ hframe => absurd hframe not_mem_nil
      · rename_i message messages _
        have hpend := pendingSyncReplies_setConnection (s := s) (c := c)
          (k := { s.connections c with incomingMessages := messages }) rfl
        unfold dispatchMessage
        split
        · exact h.callFunction [.client] hloop rfl rfl hpend hclient
        · exact h.callFunction [] hloop rfl rfl hpend fun _ hframe => absurd hframe not_mem_nil
    | dispatchMessageAndResetDidScheduleDispatchMessagesForConnection c =>
      refine h.callFunction [.dispatchMessages (some c)] hloop rfl rfl (fun _ => rfl) ?_
      intro frame hframe
      rw [mem_singleton.mp hframe]
      rfl
    | dispatchConnectionDidClose c =>
      rw [ConnectionSystem.callFunction]
      split
      · exact h.callFunction [.client] hloop rfl rfl
          (pendingSyncReplies_setConnection (s := s) (c := c)
            (k := { s.connections c with isValid := false }) rfl) hclient
      · exact h.callFunction [] hloop rfl rfl (fun _ => rfl)
          fun _ hframe => absurd hframe not_mem_nil
  · cases hstep

theorem waitForMessageStep {request : MessageRequest} {phase : WaitPhase}
    (hframe : s.frames = .waitForMessage c request phase :: frames)
    (hstep : s.waitForMessageStep c request frames phase = some t) : t.Synced := by
  have hend : ∀ k : Connection, k.pendingSyncReplies = (s.connections c).pendingSyncReplies →
      ∀ t : ConnectionSystem ι, t.frames = frames → t.returned = s.returned →
        t.connections = (s.setConnection c k).connections → t.Synced := by
    intro k hk t hframes hret hconns
    refine h.replaceCall [] hframe rfl hframes hret ?_
      fun _ hframe => absurd hframe not_mem_nil
    intro c'
    rw [hconns]
    exact pendingSyncReplies_setConnection hk c'
  have hphase : ∀ phase' : WaitPhase,
      Synced { s with frames := .waitForMessage c request phase' :: frames } := by
    intro phase'
    refine h.replaceCall [.waitForMessage c request phase'] hframe rfl rfl rfl (fun _ => rfl) ?_
    intro frame hframe
    rw [mem_singleton.mp hframe]
    rfl
  cases phase with
  | checkQueue =>
    rw [ConnectionSystem.waitForMessageStep] at hstep
    split at hstep
    · cases hstep
      refine hend _ ?_ _ rfl rfl rfl
      rfl
    · split at hstep
      · cases hstep
        refine hend _ ?_ _ rfl rfl rfl
        rfl
      · cases hstep
        exact hphase .register
  | register =>
    cases hstep
    have hset := hphase .checkDecoder
    exact hset.setConnection (c := c) (k := { s.connections c with
      waitingForMessage := some ⟨request, false, none⟩ }) rfl rfl
  | checkDecoder =>
    rw [ConnectionSystem.waitForMessageStep] at hstep
    split at hstep
    · cases hstep
      refine hend _ ?_ _ rfl rfl rfl
      rfl
    · cases hstep
      exact hphase .waiting
  | waiting => cases hstep
  | giveUp =>
    cases hstep
    refine hend _ ?_ _ rfl rfl rfl
    rfl

theorem wakeWaiter {timeout : Bool} (hstep : s.wakeWaiter timeout = some t) :
    t.Synced := by
  unfold ConnectionSystem.wakeWaiter at hstep
  split at hstep
  · rename_i c request frames hframe
    cases hstep
    refine h.replaceCall [.waitForMessage c request _] hframe rfl rfl rfl (fun _ => rfl) ?_
    intro frame hframe
    rw [mem_singleton.mp hframe]
    rfl
  · cases hstep

theorem dispatchNext {allowedConnection : Option ι} {p : ι × MessageDecoder}
    {messages putBack : List (ι × MessageDecoder)}
    (hframe : s.frames = .dispatching allowedConnection (p :: messages) putBack :: frames) :
    (s.dispatchNext allowedConnection p messages putBack frames).Synced := by
  unfold ConnectionSystem.dispatchNext
  split
  · unfold dispatchMessage
    split
    · refine h.replaceCall [.client, .dispatching allowedConnection messages putBack] hframe rfl rfl
        rfl (fun _ => rfl) ?_
      intro frame hframe
      rcases mem_cons.mp hframe with rfl | hframe
      · rfl
      · rw [mem_singleton.mp hframe]
        rfl
    · refine h.replaceCall [.dispatching allowedConnection messages putBack] hframe rfl rfl rfl
        (fun _ => rfl) ?_
      intro frame hframe
      rw [mem_singleton.mp hframe]
      rfl
  · refine h.replaceCall [.dispatching allowedConnection messages (putBack ++ [p])] hframe rfl rfl
      rfl (fun _ => rfl) ?_
    intro frame hframe
    rw [mem_singleton.mp hframe]
    rfl

theorem setPhase
    (hframe : s.frames = .sendSyncMessage c syncRequestID spin phase :: rest) (phase' : SyncPhase)
    (hphase : s.InPhase c syncRequestID spin phase') :
    Synced { s with frames := .sendSyncMessage c syncRequestID spin phase' :: rest } where
  returned := h.returned
  stack c' := by
    rw [h.stack, hframe]
    rfl
  consistent := h.consistent
  suspended := by
    have hsuspended := h.suspended
    rw [hframe] at hsuspended
    exact hsuspended
  inPhase := by
    intro c' syncRequestID' spin' phase'' frames heq
    cases heq
    cases phase' with
    | dispatched => trivial
    | checkValid | wait | spin | finish => exact hphase

theorem nextIteration (hframe : s.frames = .sendSyncMessage c syncRequestID spin phase :: rest) :
    (s.nextIteration c syncRequestID spin rest).Synced := by
  refine h.setFrames [.dispatchMessages none] rfl rfl (fun _ => rfl) ?_ ?_ ?_
  · intro c'
    rw [hframe]
    rfl
  · have hsuspended := h.suspended
    rw [hframe] at hsuspended
    intro frame hmem
    rcases mem_cons.mp hmem with rfl | hmem
    · exact .inl rfl
    · exact hsuspended frame hmem
  · intro frame hmem
    rw [mem_singleton.mp hmem]
    rfl

theorem finish {reply : Option MessageDecoder}
    (hframe : s.frames = .sendSyncMessage c syncRequestID spin (.finish reply) :: rest) :
    Synced { s.setConnection c { s.connections c with
        pendingSyncReplies := (s.connections c).pendingSyncReplies.tail } with
      frames := rest
      returned := s.returned ++ [⟨c, syncRequestID, reply⟩] } where
  returned := by
    intro result hres
    rcases mem_append.mp hres with hres | hres
    · exact h.returned result hres
    · rw [mem_singleton.mp hres]
      exact h.inPhase _ _ _ _ _ hframe
  stack c' := by
    have hstack := h.stack c'
    rw [connections_setConnection]
    split
    · rename_i heq
      subst heq
      rw [hframe, requests, filterMap_cons_some (request?_self _ _ _ _)] at hstack
      rw [map_tail, hstack]
      rfl
    · rename_i hne
      rw [hframe, requests, filterMap_cons_none] at hstack
      · exact hstack
      · exact if_neg (Ne.symm hne)
  consistent c' := by
    rw [connections_setConnection]
    split
    · intro pendingSyncReply hmem
      exact h.consistent c _ (mem_of_mem_tail hmem)
    · exact h.consistent c'
  suspended := by
    have hsuspended := h.suspended
    rw [hframe] at hsuspended
    intro frame hmem
    exact hsuspended frame (mem_of_mem_tail hmem)
  inPhase := by
    have hsuspended := h.suspended
    rw [hframe] at hsuspended
    intro c' syncRequestID' spin' phase' frames heq
    rcases hsuspended _ (heq ▸ mem_cons_self) with rfl | ⟨rfl, hspin⟩
    · trivial
    · exact hspin

theorem sendSyncMessageStep
    (hframe : s.frames = .sendSyncMessage c syncRequestID spin phase :: frames)
    (hstep : s.sendSyncMessageStep c syncRequestID spin frames phase = some t) : t.Synced := by
  cases phase with
  | dispatched =>
    have hstack := h.stack c
    have hconsis := h.consistent c
    rw [hframe, requests, filterMap_cons_some (request?_self _ _ _ _)] at hstack
    rw [ConnectionSystem.sendSyncMessageStep] at hstep
    split at hstep
    · cases hstep
    · rename_i pendingSyncReply replies hpend
      cases hstep
      rw [hpend] at hstack hconsis
      split
      · apply h.setPhase hframe
        intro message heq
        have hreply := (hconsis _ mem_cons_self message heq).2
        rwa [(cons.inj hstack).1] at hreply
      · rename_i hcheck
        apply h.setPhase hframe
        rw [Bool.or_eq_true, not_or, Bool.not_eq_true, Bool.not_eq_true', Bool.not_eq_false] at hcheck
        intro _
        refine ⟨hcheck.2, ?_⟩
        intro pendingSyncReply' hhead
        rw [hpend, head?_cons] at hhead
        obtain rfl := Option.some.inj hhead
        exact hcheck.1
  | checkValid =>
    have hunanswered : s.Unanswered c := h.inPhase _ _ _ _ _ hframe
    cases hstep
    apply h.setPhase hframe
    split
    · intro message heq
      cases heq
    · split
      · rename_i hspin
        exact hspin
      · rename_i hspin
        exact ⟨hunanswered, Bool.eq_false_iff.mpr hspin⟩
  | wait | spin => cases hstep
  | finish reply =>
    cases hstep
    exact h.finish hframe

theorem wakeSender {timedOut : Bool} (hstep : s.wakeSender timedOut = some t) :
    t.Synced := by
  unfold ConnectionSystem.wakeSender at hstep
  split at hstep
  · rename_i hframe
    split at hstep
    · cases hstep
      apply h.setPhase hframe
      intro message heq
      cases heq
    · split at hstep
      · cases hstep
        -- the sender looks at its request again, so it may take the signal
        have hnext := h.nextIteration hframe
        refine hnext.setFrames [.dispatchMessages none] rfl rfl (fun _ => rfl) (fun _ => rfl) ?_ ?_
        · exact hnext.suspended
        · intro frame hmem
          rw [mem_singleton.mp hmem]
          rfl
      · cases hstep
  · cases hstep

theorem stopSpinning {timedOut : Bool}
    (hstep : s.stopSpinning timedOut = some t) : t.Synced := by
  unfold ConnectionSystem.stopSpinning at hstep
  split at hstep
  · rename_i hframe
    split at hstep
    · cases hstep
      apply h.setPhase hframe
      intro message heq
      cases heq
    · cases hstep
      exact h.nextIteration hframe
  · cases hstep

theorem sendSyncMessage (hframe : s.frames = .client :: rest) :
    (s.sendSyncMessage c syncRequestID spin).Synced := by
  unfold ConnectionSystem.sendSyncMessage
  dsimp only
  split
  · exact { h with
      returned := by
        intro result hres
        rcases mem_append.mp hres with hres | hres
        · exact h.returned result hres
        · rw [mem_singleton.mp hres]
          intro message heq
          cases heq
      inPhase := by
        intro c' syncRequestID' spin' phase frames heq
        rw [hframe] at heq
        cases heq }
  · have hreqs : ∀ c', requests c' (.dispatchMessages none ::
        .sendSyncMessage c syncRequestID spin .dispatched :: s.frames) =
        if c = c' then syncRequestID :: requests c' s.frames else requests c' s.frames := by
      intro c'
      rw [requests_cons_of_not_isSender rfl, requests, filterMap_cons, request?]
      by_cases heq : c = c'
      · rw [if_pos heq, if_pos heq]
        rfl
      · rw [if_neg heq, if_neg heq]
        rfl
    exact {
      returned := h.returned
      stack := by
        intro c'
        rw [hreqs, connections_setConnection]
        by_cases heq : c' = c
        · rw [if_pos heq, if_pos heq.symm, map_cons, ← h.stack, heq]
        · rw [if_neg heq, if_neg (Ne.symm heq), h.stack]
      consistent := by
        intro c' pendingSyncReply hmem
        rw [connections_setConnection] at hmem
        split at hmem
        · rcases mem_cons.mp hmem with rfl | hmem
          · intro message heq
            cases heq
          · exact h.consistent c _ hmem
        · exact h.consistent c' _ hmem
      suspended := by
        intro frame hmem
        rcases mem_cons.mp hmem with rfl | hmem
        · exact .inl rfl
        · rw [hframe] at hmem
          rcases mem_cons.mp hmem with rfl | hmem
          · trivial
          · apply h.suspended
            rw [hframe]
            exact hmem
      inPhase := by
        intro c' syncRequestID' spin' phase frames heq
        cases heq }

theorem clientAction {action : ClientAction ι}
    (hstep : s.clientAction action = some t) : t.Synced := by
  unfold ConnectionSystem.clientAction at hstep
  split at hstep
  · rename_i frames hframe
    cases action with
    | «return» =>
      cases hstep
      exact h.replaceCall [] hframe rfl rfl rfl (fun _ => rfl) fun _ hmem => absurd hmem not_mem_nil
    | invalidate c =>
      cases hstep
      exact h.setConnection rfl rfl
    | waitForMessage c request =>
      cases hstep
      refine h.replaceCall [.waitForMessage c request .checkQueue, .client] hframe rfl ?_ rfl
        (fun _ => rfl) ?_
      · rw [hframe]
        rfl
      · intro frame hmem
        rcases mem_cons.mp hmem with rfl | hmem
        · rfl
        · rw [mem_singleton.mp hmem]
          rfl
    | sendSyncMessage c syncRequestID spin =>
      cases hstep
      exact h.sendSyncMessage hframe
  · cases hstep

theorem clientStep (hstep : s.clientStep = some t) : t.Synced := by
  unfold ConnectionSystem.clientStep at hstep
  split at hstep
  · rename_i hframe
    cases hstep
    refine h.replaceCall [.dispatching _ _ []] hframe rfl rfl rfl (fun _ => rfl) ?_
    intro frame hmem
    rw [mem_singleton.mp hmem]
    rfl
  · rename_i hframe
    cases hstep
    exact h.dispatchNext hframe
  · rename_i hframe
    cases hstep
    exact h.replaceCall [] hframe rfl rfl rfl (fun _ => rfl) fun _ hmem => absurd hmem not_mem_nil
  · rename_i hframe
    exact h.waitForMessageStep hframe hstep
  · rename_i hframe
    exact h.sendSyncMessageStep hframe hstep
  · cases hstep

theorem step {label : Label ι} (hstep : s.step label = some t) : t.Synced := by
  cases label with
  | receive c message =>
    rw [ConnectionSystem.step] at hstep
    split at hstep
    · cases hstep
      exact h.processIncomingMessage message
    · cases hstep
  | connectionDidClose c =>
    rw [ConnectionSystem.step] at hstep
    split at hstep
    · cases hstep
      exact h.connectionDidClose
    · cases hstep
  | receiveQueueStep c => exact h.receiveQueueStep hstep
  | performWork => exact h.performWork hstep
  | runClient =>
    rw [ConnectionSystem.step] at hstep
    split at hstep
    · rename_i hloop
      cases hstep
      refine h.callFunction [.client] hloop rfl rfl (fun _ => rfl) ?_
      intro frame hmem
      rw [mem_singleton.mp hmem]
      rfl
    · cases hstep
  | clientAction action => exact h.clientAction hstep
  | clientStep => exact h.clientStep hstep
  | wakeWaiter timeout => exact h.wakeWaiter hstep
  | wakeSender timedOut => exact h.wakeSender hstep
  | stopSpinning timedOut => exact h.stopSpinning hstep

end

end Synced

end ConnectionSystem

end WebKit.IPC
