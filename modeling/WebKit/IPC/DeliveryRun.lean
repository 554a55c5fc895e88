import WebKit.IPC.Delivery

/-!
# Runs in which no message is lost

Every step that keeps the messages keeps the invariant (`Accounted.step`), and so in a run of
such steps every message is delivered once (`delivery_of_keeps`). A waiter that gives up while
its message is on the way loses it (`not_delivery`).
-/

namespace WebKit.IPC

open Transition Function List ConnectionSystem Connection Frame RunLoopFunction

variable {ι : Type} [DecidableEq ι]

namespace ConnectionSystem

variable {s t : ConnectionSystem ι} {c : ι} {k : Connection} {message : MessageDecoder}

namespace Accounted

section

variable (h : s.Accounted)
include h

theorem processIncomingSyncReply (message : MessageDecoder) :
    (s.processIncomingSyncReply c message).Accounted := by
  unfold ConnectionSystem.processIncomingSyncReply
  cases fillReply message (s.connections c).pendingSyncReplies with
  | none => exact h
  | some r =>
    have hset : Accounted (s.setConnection c { s.connections c with pendingSyncReplies := r.2 }) :=
      h.setConnection id rfl rfl .inl fun _ hm => .inl hm
    dsimp only
    split
    · exact hset.wakeUpClientRunLoop
    · exact hset

/-- The message becomes part of the sync queue, and a dispatch for the connection is scheduled. -/
theorem appendSyncMessage (hnew : (c, message) ∉ s.arrived) (hlt : message.serial < s.received)
    (hhand : ∀ c, (s.connections c).receiveQueue.message? ≠ some message) :
    (s.appendSyncMessage c message).Accounted := by
  have hschedule : ∃ t : ConnectionSystem ι, t.Accounted ∧ t.connections = s.connections ∧
      t.arrived = s.arrived ∧ t.received = s.received ∧
      c ∈ t.syncMessageState.didScheduleDispatchMessagesWorkSet ∧
      s.appendSyncMessage c message = { t with
        syncMessageState :=
          { t.syncMessageState with
            messagesToDispatchWhileWaitingForSyncReply :=
              t.syncMessageState.messagesToDispatchWhileWaitingForSyncReply ++ [(c, message)] }
        arrived := t.arrived ++ [(c, message)] } := by
    by_cases hc : c ∈ s.syncMessageState.didScheduleDispatchMessagesWorkSet
    · refine ⟨s, h, rfl, rfl, rfl, hc, ?_⟩
      rw [ConnectionSystem.appendSyncMessage]
      simp only [if_pos hc]
    · refine ⟨ConnectionSystem.dispatch { s with syncMessageState :=
          { s.syncMessageState with
            didScheduleDispatchMessagesWorkSet :=
              s.syncMessageState.didScheduleDispatchMessagesWorkSet ++ [c] } }
        (.dispatchMessageAndResetDidScheduleDispatchMessagesForConnection c), ?_, rfl, rfl, rfl,
        mem_append_right _ mem_cons_self, ?_⟩
      · exact { h.dispatch (.dispatchMessageAndResetDidScheduleDispatchMessagesForConnection c) with
          workSet_nodup := nodup_append.mpr ⟨h.workSet_nodup, nodup_singleton _, by
            intro c' hc' c'' hc''
            rw [mem_singleton.mp hc'']
            rintro rfl
            exact hc hc'⟩
          workSet_scheduled := by
            intro c' hc'
            rcases mem_append.mp hc' with hc' | hc'
            · exact mem_append_left _ (h.workSet_scheduled c' hc')
            · rw [mem_singleton.mp hc']
              exact mem_append_right _ mem_cons_self
          sync_scheduled := fun p hp =>
            (h.sync_scheduled p hp).imp_left (mem_append_left _)
          putBack_scheduled := fun frame hframe p hp =>
            mem_append_left _ (h.putBack_scheduled frame hframe p hp) }
      · rw [ConnectionSystem.appendSyncMessage]
        simp only [if_neg hc]
  obtain ⟨t, ht, hconns, harrived, hrecv, hworkSet, heq⟩ := hschedule
  rw [heq]
  exact { ht with
    total_eq := by
      intro c' hc' message'
      have htotal := ht.total_eq c' hc' message'
      simp only [total, shared, count_append] at htotal ⊢
      omega
    arrived_nodup := nodup_append.mpr ⟨ht.arrived_nodup, nodup_singleton _, by
      intro p hp q hq
      rw [mem_singleton.mp hq]
      rintro rfl
      exact hnew (harrived ▸ hp)⟩
    arrived_lt := by
      intro p hp
      rcases mem_append.mp hp with hp | hp
      · exact ht.arrived_lt p hp
      · rw [mem_singleton.mp hp]
        exact hrecv ▸ hlt
    inHand_new := by
      intro c' message' hm hp
      rcases mem_append.mp hp with hp | hp
      · exact ht.inHand_new c' message' hm hp
      · obtain ⟨rfl, rfl⟩ := Prod.mk.inj (mem_singleton.mp hp)
        exact hhand c' (hconns ▸ hm)
    sync_scheduled := by
      intro p hp
      rcases mem_append.mp hp with hp | hp
      · exact ht.sync_scheduled p hp
      · rw [mem_singleton.mp hp]
        exact .inl hworkSet }

theorem processIncomingMessage (message : MessageDecoder) :
    (s.processIncomingMessage c message).Accounted := by
  have hnew : ∀ c : ι, (c, { message with serial := s.received }) ∉ s.arrived :=
    fun c hp => Nat.lt_irrefl _ (h.arrived_lt _ hp)
  have hhand : ∀ c, (s.connections c).receiveQueue.message? ≠
      some { message with serial := s.received } :=
    fun c hm => Nat.lt_irrefl _ (h.inHand_lt c _ hm)
  have hcount := h.countReceived
  rw [ConnectionSystem.processIncomingMessage]
  split
  · exact hcount.processIncomingSyncReply _
  · split
    · have happ := hcount.appendSyncMessage (hnew c) (Nat.lt_succ_self _) hhand
      exact happ.setConnection id rfl rfl .inl fun _ hm => by cases hm
    · refine hcount.setConnection id rfl rfl .inl fun message' hm => ?_
      obtain rfl := Option.some.inj hm
      exact .inr ⟨Nat.lt_succ_self _, hnew c⟩

theorem connectionDidClose : (s.connectionDidClose c).Accounted := by
  have hset : Accounted (s.setConnection c { s.connections c with
      shouldWaitForSyncReplies := false, receiveQueue := .closing }) :=
    h.setConnection id rfl rfl .inl fun _ hm => by cases hm
  unfold ConnectionSystem.connectionDidClose
  dsimp only
  split
  · exact hset.wakeUpClientRunLoop
  · exact hset

theorem checkWaiter (hqueue : (s.connections c).receiveQueue = .checkingWaiter message)
    (hkeeps : ∀ waiting, (s.connections c).waitingForMessage = some waiting →
      waiting.request.matches message = true → waiting.decoder = none) :
    (s.checkWaiter c message).Accounted := by
  have hhand : ∀ message', (ReceiveQueue.enqueueing message).message? = some message' →
      (s.connections c).receiveQueue.message? = some message' ∨
        (message'.serial < s.received ∧ (c, message') ∉ s.arrived) := by
    intro message' hm
    rw [hqueue]
    exact .inl hm
  unfold ConnectionSystem.checkWaiter
  dsimp only
  split
  · exact h.setConnection id rfl rfl .inl hhand
  · rename_i waiting hwaiting
    split
    · rename_i hmatches
      have hslot : (s.connections c).slot = [] := by
        rw [slot, hwaiting, Option.bind_some, hkeeps waiting hwaiting hmatches]
        rfl
      refine h.arrive ?_ rfl rfl ?_ (h.incoming_scheduled c) ?_
      · rw [hqueue]
        rfl
      · intro message'
        rw [hslot]
        rfl
      · intro _
        rw [hwaiting]
        exact Option.some_ne_none _
    · split
      · refine h.setConnection id rfl ?_ ?_ hhand
        · rw [slot, slot, hwaiting]
          rfl
        · intro _
          rw [hwaiting]
          exact .inl (Option.some_ne_none _)
      · exact h.setConnection id rfl rfl .inl hhand

theorem enqueueIncomingMessage (hqueue : (s.connections c).receiveQueue = .enqueueing message) :
    (s.enqueueIncomingMessage c message).Accounted := by
  -- the function is dispatched in the same step
  have hdisp := h.dispatch (.dispatchOneMessage c)
  refine hdisp.arrive (k := { s.connections c with
    incomingMessages := (s.connections c).incomingMessages ++ [message]
    receiveQueue := .idle }) ?_ rfl rfl ?_ ?_ id
  · change (s.connections c).receiveQueue.message? = _
    rw [hqueue]
    rfl
  · intro message'
    rw [count_append]
    exact Nat.add_right_comm _ _ _
  · have hle := h.incoming_scheduled c
    dsimp only [ConnectionSystem.dispatch]
    rw [count_append, length_append, count_singleton_self]
    exact Nat.succ_le_succ hle

theorem interruptWaiter : (s.interruptWaiter c).Accounted := by
  have hset : Accounted (s.setConnection c { s.connections c with
      waitingForMessage := (s.connections c).waitingForMessage.map fun w =>
        { w with messageWaitingInterrupted := true }
      receiveQueue := .closed }) := by
    refine h.setConnection id rfl ?_ ?_ fun _ hm => by cases hm
    · rw [slot, slot]
      cases (s.connections c).waitingForMessage <;> rfl
    · intro hne
      refine .inl fun hnone => ?_
      rw [hnone] at hne
      exact hne rfl
  exact hset.dispatch _

theorem receiveQueueStep (hstep : s.receiveQueueStep c = some t)
    (hkeeps : s.Keeps (.receiveQueueStep c)) : t.Accounted := by
  unfold ConnectionSystem.receiveQueueStep at hstep
  split at hstep
  · cases hstep
  · cases hstep
    exact h.wakeUpClientRunLoop.setConnection (c := c)
      (k := { s.connections c with receiveQueue := .idle }) id rfl rfl .inl fun _ hm => by cases hm
  · rename_i message hqueue
    cases hstep
    exact h.checkWaiter hqueue fun waiting => hkeeps message waiting hqueue
  · rename_i message hqueue
    cases hstep
    exact h.enqueueIncomingMessage hqueue
  · cases hstep
    exact h.interruptWaiter
  · cases hstep

end

/-! ## The run loop -/

omit [DecidableEq ι] in
theorem isInRunLoop_cases (hloop : s.isInRunLoop = true) :
    s.frames = [] ∨ ∃ c syncRequestID spin frames,
      s.frames = .sendSyncMessage c syncRequestID spin .spin :: frames := by
  unfold isInRunLoop at hloop
  split at hloop
  · rename_i hframes
    exact .inl hframes
  · rename_i hframes
    exact .inr ⟨_, _, _, _, hframes⟩
  · cases hloop

omit [DecidableEq ι] in
theorem not_dispatching (hloop : s.isInRunLoop = true) (allowedConnection : Option ι)
    (frames : List (Frame ι)) : s.frames ≠ .dispatchMessages allowedConnection :: frames := by
  intro heq
  rcases isInRunLoop_cases hloop with hframes | ⟨_, _, _, _, hframes⟩ <;>
    rw [heq] at hframes <;> cases hframes

theorem not_waiting (h : s.Accounted) (hloop : s.isInRunLoop = true) (c : ι) :
    (s.connections c).waitingForMessage = none := by
  apply h.no_waiter
  intro c request phase frames heq
  rcases isInRunLoop_cases hloop with hframes | ⟨_, _, _, _, hframes⟩ <;>
    rw [heq] at hframes <;> cases hframes

/-- A message that a connection gives away reaches the handler, or the connection is closed. -/
theorem dispatchIncoming (h : s.Accounted) {rest : List MessageDecoder}
    (hinc : (s.connections c).incomingMessages = message :: rest)
    (hloop : s.isInRunLoop = true) :
    ((s.setConnection c { s.connections c with incomingMessages := rest }).dispatchMessage
      c message).Accounted := by
  have hle := h.incoming_scheduled c
  rw [hinc, length_cons] at hle
  have hget : (s.setConnection c { s.connections c with
      incomingMessages := rest }).connections c = { s.connections c with
      incomingMessages := rest } := update_self _ _ _
  rw [dispatchMessage, hget]
  split
  · have hdeliver := h.deliver [message] (c := c)
      (k := { s.connections c with incomingMessages := rest }) id
      (fun _ message' => by
        change rest.count message' + (s.connections c).slot.count message' +
          [message].count message' = _
        rw [count_singleton, hinc, count_cons]
        omega)
      (Nat.le_of_succ_le hle) .inl fun _ hm => .inl hm
    apply hdeliver.pushFrames [.client] (not_dispatching hloop) (hdeliver.not_waiting hloop)
    intro frame hframe
    rw [mem_singleton.mp hframe]
    rfl
  · rename_i hinvalid
    have hdeliver := h.deliver [] (c := c)
      (k := { s.connections c with incomingMessages := rest }) id
      (fun hvalid => absurd hvalid hinvalid) (Nat.le_of_succ_le hle) .inl fun _ hm => .inl hm
    rwa [map_nil, append_nil] at hdeliver

omit [DecidableEq ι] in
theorem dispatchMessage_popFunction (rest : List (RunLoopFunction ι)) :
    { s with clientRunLoop := rest }.dispatchMessage c message =
      { s.dispatchMessage c message with clientRunLoop := rest } := by
  unfold dispatchMessage
  dsimp only
  split <;> rfl

theorem runClient (h : s.Accounted) (hloop : s.isInRunLoop = true) :
    Accounted { s with frames := .client :: s.frames } := by
  apply h.pushFrames [.client] (not_dispatching hloop) (h.not_waiting hloop)
  intro frame hframe
  rw [mem_singleton.mp hframe]
  rfl

section

variable (h : s.Accounted) (hloop : s.isInRunLoop = true) {rest : List (RunLoopFunction ι)}
include h hloop

/-- The run loop dispatches one message from the queue of a connection. -/
theorem performDispatchOneMessage (hfuns : s.clientRunLoop = .dispatchOneMessage c :: rest) :
    ({ s with clientRunLoop := rest }.dispatchOneMessage c).Accounted := by
  have hle := h.incoming_scheduled
  rw [hfuns] at hle
  unfold dispatchOneMessage
  split
  · rename_i hinc
    apply h.popFunction _ hfuns
    · intro c' heq
      obtain rfl := dispatchOneMessage.inj heq
      rw [hinc]
      exact Nat.zero_le _
    · intro c' heq
      cases heq
  · rename_i message messages hinc
    have hdisp := h.dispatchIncoming hinc hloop
    have hpop : Accounted { (s.setConnection c { s.connections c with
        incomingMessages := messages }).dispatchMessage c message with clientRunLoop := rest } := by
      have hget : ((s.setConnection c { s.connections c with
          incomingMessages := messages }).dispatchMessage c message).connections c =
          { s.connections c with incomingMessages := messages } := by
        rw [dispatchMessage]
        split <;> exact update_self _ _ _
      refine hdisp.popFunction (.dispatchOneMessage c) ?_ ?_ ?_
      · rw [dispatchMessage]
        split <;> exact hfuns
      · intro c' heq
        obtain rfl := dispatchOneMessage.inj heq
        rw [hget]
        have hc := hle c
        rw [hinc, length_cons, count_cons_self] at hc
        exact Nat.le_of_succ_le_succ hc
      · intro c' heq
        cases heq
    rw [← dispatchMessage_popFunction] at hpop
    exact hpop

theorem performDispatchMessages (hfuns : s.clientRunLoop =
      .dispatchMessageAndResetDidScheduleDispatchMessagesForConnection c :: rest)
    (hkeeps : ∀ frame ∈ s.frames, ∀ p ∈ frame.messagesToPutBack, p.1 ≠ c) :
    Accounted { s with
      clientRunLoop := rest
      syncMessageState :=
        { s.syncMessageState with
          didScheduleDispatchMessagesWorkSet :=
            s.syncMessageState.didScheduleDispatchMessagesWorkSet.erase c }
      frames := .dispatchMessages (some c) :: s.frames } := by
  have hpush := h.pushFrames [.dispatchMessages (some c)] (not_dispatching hloop)
    (h.not_waiting hloop) fun frame hframe => by
      rw [mem_singleton.mp hframe]
      rfl
  have herase : ∀ c' ∈ s.syncMessageState.didScheduleDispatchMessagesWorkSet, c' ≠ c →
      c' ∈ s.syncMessageState.didScheduleDispatchMessagesWorkSet.erase c :=
    fun c' hc' hne => (mem_erase_of_ne hne).mpr hc'
  have hreset : Accounted { s with
      syncMessageState :=
        { s.syncMessageState with
          didScheduleDispatchMessagesWorkSet :=
            s.syncMessageState.didScheduleDispatchMessagesWorkSet.erase c }
      frames := .dispatchMessages (some c) :: s.frames } :=
    { hpush with
      workSet_nodup := h.workSet_nodup.erase c
      workSet_scheduled := fun c' hc' => h.workSet_scheduled c' (mem_of_mem_erase hc')
      sync_scheduled := by
        intro p hp
        by_cases hc : p.1 = c
        · exact .inr ⟨_, _, rfl, .inr (congrArg some hc.symm)⟩
        · rcases h.sync_scheduled p hp with hmem | ⟨allowedConnection, frames, heq, -⟩
          · exact .inl (herase _ hmem hc)
          · exact absurd heq (not_dispatching hloop _ _)
      putBack_scheduled := by
        intro frame hframe p hp
        rcases mem_cons.mp hframe with rfl | hframe
        · cases hp
        · exact herase _ (h.putBack_scheduled frame hframe p hp) (hkeeps frame hframe p hp) }
  apply hreset.popFunction _ hfuns
  · intro c' heq
    cases heq
  · intro c' heq
    obtain rfl := dispatchMessageAndResetDidScheduleDispatchMessagesForConnection.inj heq
    exact h.workSet_nodup.not_mem_erase

theorem performConnectionDidClose
    (hfuns : s.clientRunLoop = .dispatchConnectionDidClose c :: rest) :
    ({ s with clientRunLoop := rest }.callFunction (.dispatchConnectionDidClose c)).Accounted := by
  have hpop : Accounted { s with clientRunLoop := rest } := by
    apply h.popFunction _ hfuns <;> intro c' heq <;> cases heq
  unfold callFunction
  dsimp only
  split
  · have hset : Accounted (({ s with clientRunLoop := rest } :
        ConnectionSystem ι).setConnection c { s.connections c with isValid := false }) :=
      hpop.setConnection (fun hvalid => by cases hvalid) rfl rfl .inl fun _ hm => .inl hm
    apply hset.pushFrames [.client] (not_dispatching hloop) (hset.not_waiting hloop)
    intro frame hframe
    rw [mem_singleton.mp hframe]
    rfl
  · exact hpop

end

theorem performWork (h : s.Accounted) (hstep : s.performWork = some t)
    (hkeeps : s.Keeps .performWork) : t.Accounted := by
  unfold ConnectionSystem.performWork at hstep
  split at hstep
  · rename_i function rest hloop hfuns
    cases hstep
    cases function with
    | dispatchOneMessage c => exact h.performDispatchOneMessage hloop hfuns
    | dispatchMessageAndResetDidScheduleDispatchMessagesForConnection c =>
      exact h.performDispatchMessages hloop hfuns (hkeeps c rest hfuns)
    | dispatchConnectionDidClose c => exact h.performConnectionDidClose hloop hfuns
  · cases hstep

variable {allowedConnection : Option ι} {frames : List (Frame ι)}

theorem swapMessages (h : s.Accounted)
    (hframes : s.frames = .dispatchMessages allowedConnection :: frames) :
    (s.swapMessages allowedConnection frames).Accounted :=
  { h with
    total_eq := by
      intro c hc message
      have htotal := h.total_eq c hc message
      simp only [total, shared, hframes, flatMap_cons, Frame.messages, nil_append,
        count_append] at htotal
      simp only [total, shared, ConnectionSystem.swapMessages, flatMap_cons, Frame.messages,
        nil_append, append_nil, count_append]
      exact htotal
    waiter_running := by
      intro c hc
      obtain ⟨request, phase, frames', heq, -⟩ := h.waiter_running c hc
      rw [hframes] at heq
      cases heq
    sync_scheduled := fun p hp => absurd hp not_mem_nil
    putBack_scheduled := by
      intro frame hframe p hp
      rcases mem_cons.mp hframe with rfl | hframe
      · rw [Frame.messagesToPutBack, nil_append, mem_filter, decide_eq_true_eq] at hp
        rcases h.sync_scheduled p hp.1 with hmem | ⟨allowedConnection', frames', heq, hor⟩
        · exact hmem
        · rw [hframes] at heq
          cases heq
          rcases hor with hnone | hsome
          · exact absurd hnone hp.2.1
          · exact absurd hsome hp.2.2
      · exact h.putBack_scheduled frame (hframes ▸ mem_cons_of_mem _ hframe) p hp }

/-- Messages that are put back have a dispatch of their own. -/
theorem putBackMessages (h : s.Accounted) {putBack : List (ι × MessageDecoder)}
    (hframes : s.frames = .dispatching allowedConnection [] putBack :: frames) :
    (s.putBackMessages putBack frames).Accounted :=
  { h with
    total_eq := by
      intro c hc message
      have htotal := h.total_eq c hc message
      simp only [total, shared, hframes, flatMap_cons, Frame.messages, nil_append,
        count_append] at htotal
      simp only [total, shared, ConnectionSystem.putBackMessages, count_append]
      omega
    waiter_running := by
      intro c hc
      obtain ⟨request, phase, frames', heq, -⟩ := h.waiter_running c hc
      rw [hframes] at heq
      cases heq
    sync_scheduled := by
      intro p hp
      rcases mem_append.mp hp with hp | hp
      · rcases h.sync_scheduled p hp with hmem | ⟨allowedConnection', frames', heq, -⟩
        · exact .inl hmem
        · rw [hframes] at heq
          cases heq
      · refine .inl (h.putBack_scheduled (.dispatching allowedConnection [] putBack) ?_ p ?_)
        · rw [hframes]
          exact mem_cons_self
        · exact mem_append_left _ hp
    putBack_scheduled := fun frame hframe p hp =>
      h.putBack_scheduled frame (hframes ▸ mem_cons_of_mem _ hframe) p hp }

theorem dispatchNext (h : s.Accounted) {p : ι × MessageDecoder}
    {messages putBack : List (ι × MessageDecoder)}
    (hframes : s.frames = .dispatching allowedConnection (p :: messages) putBack :: frames) :
    (s.dispatchNext allowedConnection p messages putBack frames).Accounted := by
  have hwaiter : ∀ c, (s.connections c).waitingForMessage = none := by
    apply h.no_waiter
    intro c request phase frames' heq
    rw [hframes] at heq
    cases heq
  have hsync : ∀ p ∈ s.syncMessageState.messagesToDispatchWhileWaitingForSyncReply,
      p.1 ∈ s.syncMessageState.didScheduleDispatchMessagesWorkSet := by
    intro p hp
    rcases h.sync_scheduled p hp with hmem | ⟨allowedConnection', frames', heq, -⟩
    · exact hmem
    · rw [hframes] at heq
      cases heq
  have hputBack : ∀ q ∈ (Frame.dispatching allowedConnection (p :: messages)
      putBack).messagesToPutBack, q.1 ∈ s.syncMessageState.didScheduleDispatchMessagesWorkSet :=
    h.putBack_scheduled _ (hframes ▸ mem_cons_self)
  have hrest : ∀ frame ∈ frames, ∀ q ∈ frame.messagesToPutBack,
      q.1 ∈ s.syncMessageState.didScheduleDispatchMessagesWorkSet :=
    fun frame hframe => h.putBack_scheduled frame (hframes ▸ mem_cons_of_mem _ hframe)
  have htotals := h.total_eq
  simp only [total, shared, hframes, flatMap_cons, Frame.messages, cons_append,
    count_cons, count_append] at htotals
  rw [ConnectionSystem.dispatchNext]
  split
  · have hfewer : ∀ q ∈ (Frame.dispatching allowedConnection messages putBack).messagesToPutBack,
        q.1 ∈ s.syncMessageState.didScheduleDispatchMessagesWorkSet := by
      intro q hq
      apply hputBack
      rcases mem_append.mp hq with hq | hq
      · exact mem_append_left _ hq
      · obtain ⟨hmem, hnot⟩ := mem_filter.mp hq
        exact mem_append_right _ (mem_filter.mpr ⟨mem_cons_of_mem _ hmem, hnot⟩)
    rw [ConnectionSystem.dispatchMessage]
    split
    · exact { h with
        total_eq := by
          intro c hc message
          have htotal := htotals c hc message
          simp only [total, shared, flatMap_cons, Frame.messages, nil_append,
            count_append, count_cons, count_nil, Prod.eta] at htotal ⊢
          omega
        waiter_running := fun c hc => absurd (hwaiter c) hc
        sync_scheduled := fun q hq => .inl (hsync q hq)
        putBack_scheduled := by
          intro frame hframe q hq
          rcases mem_cons.mp hframe with rfl | hframe
          · cases hq
          · rcases mem_cons.mp hframe with rfl | hframe
            · exact hfewer q hq
            · exact hrest frame hframe q hq }
    · rename_i hinvalid
      exact { h with
        total_eq := by
          intro c hc message
          have htotal := htotals c hc message
          have hne : ¬ (p == (c, message)) = true := by
            rw [beq_iff_eq]
            rintro rfl
            exact hinvalid hc
          rw [if_neg hne] at htotal
          simp only [total, shared, flatMap_cons, Frame.messages, count_append]
            at htotal ⊢
          omega
        waiter_running := fun c hc => absurd (hwaiter c) hc
        sync_scheduled := fun q hq => .inl (hsync q hq)
        putBack_scheduled := by
          intro frame hframe q hq
          rcases mem_cons.mp hframe with rfl | hframe
          · exact hfewer q hq
          · exact hrest frame hframe q hq }
  · rename_i hallowed
    exact { h with
      total_eq := by
        intro c hc message
        have htotal := htotals c hc message
        simp only [total, shared, flatMap_cons, Frame.messages, count_append,
          count_cons, count_nil] at htotal ⊢
        omega
      waiter_running := fun c hc => absurd (hwaiter c) hc
      sync_scheduled := fun q hq => .inl (hsync q hq)
      putBack_scheduled := by
        intro frame hframe q hq
        rcases mem_cons.mp hframe with rfl | hframe
        · apply hputBack
          rw [Frame.messagesToPutBack, append_assoc] at hq
          rcases mem_append.mp hq with hq | hq
          · exact mem_append_left _ hq
          · apply mem_append_right
            rcases mem_append.mp hq with hq | hq
            · obtain rfl := mem_singleton.mp hq
              rw [not_or] at hallowed
              exact mem_filter.mpr ⟨mem_cons_self, decide_eq_true hallowed⟩
            · obtain ⟨hmem, hnot⟩ := mem_filter.mp hq
              exact mem_filter.mpr ⟨mem_cons_of_mem _ hmem, hnot⟩
        · exact hrest frame hframe q hq }

section

variable (h : s.Accounted) {request : MessageRequest} {phase : WaitPhase} {frames : List (Frame ι)}
  (hframes : s.frames = .waitForMessage c request phase :: frames)
include h hframes

theorem setPhase (phase' : WaitPhase) (hphase : phase' ≠ .checkQueue)
    (hregister : phase' = .register → phase = .checkQueue) :
    Accounted { s with frames := .waitForMessage c request phase' :: frames } := by
  apply h.setFrames [.waitForMessage c request phase] [.waitForMessage c request phase'] hframes
  · intro frame hframe
    rw [mem_singleton.mp hframe]
    rfl
  · intro frame hframe
    rw [mem_singleton.mp hframe]
    rfl
  · intro allowedConnection frames' heq
    rw [hframes] at heq
    cases heq
  · intro c' hc'
    obtain ⟨rfl, hcheck, -⟩ := h.waiter_eq hframes hc'
    exact ⟨request, phase', frames, rfl, hphase, fun heq => hcheck (hregister heq)⟩

/-- A call of `waitForMessage` ends when its connection has no waiter any more. -/
theorem endWait
    (hnone : (s.connections c).waitingForMessage = none) : Accounted { s with frames } := by
  apply h.replaceFrame [] hframes rfl
  · intro allowedConnection heq
    cases heq
  · intro c'
    by_contra hc'
    obtain ⟨rfl, -⟩ := h.waiter_eq hframes hc'
    exact hc' hnone
  · exact fun _ hframe => absurd hframe not_mem_nil

theorem waitForMessageStep (hstep : s.waitForMessageStep c request frames phase = some t)
    (hkeeps : phase = .giveUp → (s.connections c).slot = []) : t.Accounted := by
  have hget : ∀ k, (s.setConnection c k).connections c = k := fun k => update_self _ _ _
  cases phase with
  | checkQueue =>
    have hnone : (s.connections c).waitingForMessage = none := by
      by_contra hc
      exact (h.waiter_eq hframes hc).2.1 rfl
    rw [waitForMessageStep] at hstep
    split at hstep
    · rename_i message hfind
      cases hstep
      have hmem := mem_of_find?_eq_some hfind
      have hdeliver := h.deliver [message] (c := c) (k := { s.connections c with
          incomingMessages := (s.connections c).incomingMessages.erase message }) id
        (fun _ message' => by
          change ((s.connections c).incomingMessages.erase message).count message' +
            (s.connections c).slot.count message' + [message].count message' = _
          rw [count_erase, count_singleton]
          split
          · rename_i heq
            rw [← beq_iff_eq.mp heq]
            have hpos := count_pos_iff.mpr hmem
            omega
          · omega)
        (Nat.le_trans erase_sublist.length_le (h.incoming_scheduled c))
        .inl fun _ hm => .inl hm
      apply hdeliver.endWait hframes
      exact (congrArg waitingForMessage (hget _)).trans hnone
    · split at hstep
      · cases hstep
        have hset : Accounted (s.setConnection c { s.connections c with
            waitingForMessage := none }) := by
          refine h.setConnection id rfl ?_ (fun hne => absurd rfl hne) fun _ hm => .inl hm
          rw [slot, slot, hnone]
        apply hset.endWait hframes
        rw [hget]
      · cases hstep
        exact h.setPhase hframes .register (fun heq => by cases heq) fun _ => rfl
  | register =>
    cases hstep
    have hnone : (s.connections c).waitingForMessage = none := by
      by_contra hc
      exact (h.waiter_eq hframes hc).2.2 rfl
    have hphase := h.setPhase hframes .checkDecoder (fun heq => by cases heq)
      (fun heq => by cases heq)
    refine hphase.setConnection (c := c) (k := { s.connections c with
      waitingForMessage := some ⟨request, false, none⟩ }) id rfl ?_ (fun _ => .inr ?_)
      fun _ hm => .inl hm
    · rw [slot, slot, hnone]
      rfl
    · refine ⟨request, .checkDecoder, frames, rfl, ?_, ?_⟩ <;> intro heq <;> cases heq
  | checkDecoder =>
    rw [waitForMessageStep] at hstep
    split at hstep
    · rename_i message hdecoder
      cases hstep
      have hslot : (s.connections c).slot = [message] := by
        rw [slot, hdecoder]
        rfl
      have hdeliver := h.deliver [message] (c := c) (k := { s.connections c with
          waitingForMessage := none }) id
        (fun _ message' => by rw [hslot]; rfl) (h.incoming_scheduled c)
        (fun hne => absurd rfl hne) fun _ hm => .inl hm
      apply hdeliver.endWait hframes
      exact congrArg waitingForMessage (hget _)
    · cases hstep
      exact h.setPhase hframes .waiting (fun heq => by cases heq) fun heq => by cases heq
  | waiting => cases hstep
  | giveUp =>
    cases hstep
    have hset : Accounted (s.setConnection c { s.connections c with waitingForMessage := none }) := by
      refine h.setConnection id rfl ?_ (fun hne => absurd rfl hne) fun _ hm => .inl hm
      rw [hkeeps rfl]
      rfl
    apply hset.endWait hframes
    rw [hget]

end

theorem wakeWaiter (h : s.Accounted) {timeout : Bool} (hstep : s.wakeWaiter timeout = some t) :
    t.Accounted := by
  unfold ConnectionSystem.wakeWaiter at hstep
  split at hstep
  · rename_i c request frames hframes
    cases hstep
    apply h.setPhase hframes
    all_goals split <;> intro heq <;> cases heq
  · cases hstep

/-- The innermost call is a client's or waits for a reply, and others take its place. -/
theorem replaceCall (h : s.Accounted) {frame : Frame ι} (new : List (Frame ι))
    {rest : List (Frame ι)} (hframes : s.frames = frame :: rest) (hold : frame.messages = [])
    (hdisp : ∀ allowedConnection, frame ≠ .dispatchMessages allowedConnection)
    (hwait : ∀ c request phase, frame ≠ .waitForMessage c request phase)
    (hnew : ∀ frame ∈ new, frame.messages = []) :
    Accounted { s with frames := new ++ rest } := by
  apply h.replaceFrame new hframes hold hdisp
  · apply h.no_waiter
    intro c request phase frames heq
    rw [hframes] at heq
    exact hwait c request phase (cons.inj heq).1
  · exact hnew

variable {syncRequestID : ℕ} {spin : Bool} {phase : SyncPhase} {frames : List (Frame ι)}

section

variable (h : s.Accounted)
  (hframes : s.frames = .sendSyncMessage c syncRequestID spin phase :: frames)
include h hframes

theorem replaceSender (new : List (Frame ι)) (hnew : ∀ frame ∈ new, frame.messages = []) :
    Accounted { s with frames := new ++ frames } := by
  apply h.replaceCall new hframes rfl
  · intro allowedConnection heq
    cases heq
  · intro c request phase heq
    cases heq
  · exact hnew

theorem nextIteration : (s.nextIteration c syncRequestID spin frames).Accounted := by
  apply h.replaceSender hframes
    [.dispatchMessages none, .sendSyncMessage c syncRequestID spin .dispatched]
  intro frame hframe
  rcases mem_cons.mp hframe with rfl | hframe
  · rfl
  · rw [mem_singleton.mp hframe]
    rfl

theorem setSyncPhase (phase' : SyncPhase) :
    Accounted { s with frames := .sendSyncMessage c syncRequestID spin phase' :: frames } := by
  apply h.replaceSender hframes [.sendSyncMessage c syncRequestID spin phase']
  intro frame hframe
  rw [mem_singleton.mp hframe]
  rfl

theorem sendSyncMessageStep
    (hstep : s.sendSyncMessageStep c syncRequestID spin frames phase = some t) : t.Accounted := by
  cases phase with
  | dispatched =>
    rw [ConnectionSystem.sendSyncMessageStep] at hstep
    split at hstep
    · cases hstep
    · cases hstep
      exact h.setSyncPhase hframes _
  | checkValid =>
    cases hstep
    exact h.setSyncPhase hframes _
  | wait | spin => cases hstep
  | finish reply =>
    cases hstep
    have hend := h.replaceSender hframes [] fun _ hframe => absurd hframe not_mem_nil
    have hset : Accounted (ConnectionSystem.setConnection { s with frames } c
        { s.connections c with
          pendingSyncReplies := (s.connections c).pendingSyncReplies.tail }) :=
      hend.setConnection id rfl rfl .inl fun _ hm => .inl hm
    exact hset.setReturned _

end

section

variable (h : s.Accounted)
include h

theorem wakeSender {timedOut : Bool} (hstep : s.wakeSender timedOut = some t) :
    t.Accounted := by
  unfold ConnectionSystem.wakeSender at hstep
  split at hstep
  · rename_i hframes
    split at hstep
    · cases hstep
      exact h.setSyncPhase hframes _
    · split at hstep
      · cases hstep
        exact (h.setSemaphore false).nextIteration hframes
      · cases hstep
  · cases hstep

theorem stopSpinning {timedOut : Bool}
    (hstep : s.stopSpinning timedOut = some t) : t.Accounted := by
  unfold ConnectionSystem.stopSpinning at hstep
  split at hstep
  · rename_i hframes
    split at hstep
    · cases hstep
      exact h.setSyncPhase hframes _
    · cases hstep
      exact h.nextIteration hframes
  · cases hstep

theorem clientAction {action : ClientAction ι}
    (hstep : s.clientAction action = some t) : t.Accounted := by
  unfold ConnectionSystem.clientAction at hstep
  split at hstep
  · rename_i frames hframes
    have hreplace : ∀ new : List (Frame ι), (∀ frame ∈ new, frame.messages = []) →
        Accounted { s with frames := new ++ frames } := by
      intro new hnew
      apply h.replaceCall new hframes rfl _ _ hnew
      · intro allowedConnection heq
        cases heq
      · intro c request phase heq
        cases heq
    cases action with
    | «return» =>
      cases hstep
      exact hreplace [] fun _ hframe => absurd hframe not_mem_nil
    | invalidate c =>
      cases hstep
      exact h.setConnection (fun hvalid => by cases hvalid) rfl rfl .inl fun _ hm => .inl hm
    | waitForMessage c request =>
      cases hstep
      rw [hframes]
      apply hreplace [.waitForMessage c request .checkQueue, .client]
      simp [messages]
    | sendSyncMessage c syncRequestID spin =>
      cases hstep
      unfold sendSyncMessage
      dsimp only
      split
      · exact h.setReturned _
      · rw [hframes]
        have hpush := hreplace
          [.dispatchMessages none, .sendSyncMessage c syncRequestID spin .dispatched, .client]
          (by simp [messages])
        exact hpush.setConnection (c := c) (k := { s.connections c with
          pendingSyncReplies := ⟨syncRequestID, none, false⟩ ::
            (s.connections c).pendingSyncReplies }) id rfl rfl .inl fun _ hm => .inl hm
  · cases hstep

theorem clientStep (hstep : s.clientStep = some t)
    (hkeeps : s.Keeps .clientStep) : t.Accounted := by
  unfold ConnectionSystem.clientStep at hstep
  split at hstep
  · rename_i hframes
    cases hstep
    exact h.swapMessages hframes
  · rename_i hframes
    cases hstep
    exact h.dispatchNext hframes
  · rename_i hframes
    cases hstep
    exact h.putBackMessages hframes
  · rename_i hframes
    apply h.waitForMessageStep hframes hstep
    rintro rfl
    exact hkeeps _ _ _ hframes
  · rename_i hframes
    exact h.sendSyncMessageStep hframes hstep
  · cases hstep

theorem step {label : Label ι} (hstep : s.step label = some t)
    (hkeeps : s.Keeps label) : t.Accounted := by
  cases label with
  | receive c message =>
    rw [ConnectionSystem.step] at hstep
    split at hstep
    · cases hstep
      exact h.processIncomingMessage message
    · cases hstep
  | connectionDidClose c =>
    rw [ConnectionSystem.step] at hstep
    split at hstep
    · cases hstep
      exact h.connectionDidClose
    · cases hstep
  | receiveQueueStep c => exact h.receiveQueueStep hstep hkeeps
  | performWork => exact h.performWork hstep hkeeps
  | runClient =>
    rw [ConnectionSystem.step] at hstep
    split at hstep
    · rename_i hloop
      cases hstep
      exact h.runClient hloop
    · cases hstep
  | clientAction action => exact h.clientAction hstep
  | clientStep => exact h.clientStep hstep hkeeps
  | wakeWaiter timeout => exact h.wakeWaiter hstep
  | wakeSender timedOut => exact h.wakeSender hstep
  | stopSpinning timedOut => exact h.stopSpinning hstep

theorem delivery : s.Delivery where
  once := by
    rintro ⟨c, message⟩ hp hvalid
    have htotal := h.total_eq c hvalid message
    rw [count_eq_one_of_mem h.arrived_nodup hp] at htotal
    have hsum : s.occurrences c message .incomingQueue + s.occurrences c message .waiter +
        (s.occurrences c message .syncQueue + s.occurrences c message .delivered) = 1 := by
      rw [total, shared, count_append] at htotal
      exact htotal
    have hall : ∀ place, s.occurrences c message place = 1 →
        ∀ place', place' ≠ place → s.occurrences c message place' = 0 := by
      intro place hplace place' hne
      cases place <;> cases place' <;> first | exact absurd rfl hne | omega
    by_cases h1 : s.occurrences c message .incomingQueue = 1
    · exact ⟨_, h1, hall _ h1⟩
    by_cases h2 : s.occurrences c message .waiter = 1
    · exact ⟨_, h2, hall _ h2⟩
    by_cases h3 : s.occurrences c message .syncQueue = 1
    · exact ⟨_, h3, hall _ h3⟩
    · have h4 : s.occurrences c message .delivered = 1 := by omega
      exact ⟨_, h4, hall _ h4⟩
  incoming_scheduled := h.incoming_scheduled
  sync_scheduled p hp := (h.sync_scheduled p hp).imp_left (h.workSet_scheduled p.1)

end

end Accounted

/-- In a run whose steps keep the messages, every arrived message of an open connection is at
one place at any time. -/
theorem delivery_of_keeps {labels : List (Label ι)}
    (h : Run (guarded (fun s label t => s.step label = some t) Keeps) initial labels s) :
    s.Delivery :=
  (h.preserves (fun _ _ _ hs hstep => hs.step hstep.2 hstep.1) accounted_initial).delivery

/-- A message that a client waits for. -/
def awaitedMessage : MessageDecoder where
  serial := 0
  messageReceiverName := "WebPage"
  messageName := "DidUpdate"
  destinationID := 1
  isSyncMessage := false
  shouldDispatchMessageWhenWaitingForSyncReply := false

def awaitedRequest : MessageRequest where
  messageReceiverName := "WebPage"
  messageName := "DidUpdate"
  destinationID := 1
  interruptWaitingIfSyncMessageArrives := false

/-- A client waits for a message. -/
def beginWaiting : List (Label Unit) :=
  [.runClient, .clientAction (.waitForMessage () awaitedRequest), .clientStep, .clientStep,
    .clientStep]

/-- The receive queue puts a message into the slot of the waiter. -/
def receiveAwaited : List (Label Unit) := [.receive () awaitedMessage, .receiveQueueStep ()]

/-- The waiter is given its message and returns it. -/
theorem delivery_of_keeps_waiter : ∃ s : ConnectionSystem Unit,
    s.delivered = [((), awaitedMessage)] ∧ s.Delivery := by
  have hrun : ∃ s : ConnectionSystem Unit,
      Run (guarded (fun s label t => s.step label = some t) Keeps) initial
        (beginWaiting ++ receiveAwaited ++ [Label.wakeWaiter false, Label.clientStep]) s ∧
      s.delivered = [((), awaitedMessage)] := by
    refine ⟨_, .cons ⟨trivial, rfl⟩ (.cons ⟨trivial, rfl⟩ (.cons ⟨?_, rfl⟩ (.cons ⟨?_, rfl⟩
      (.cons ⟨?_, rfl⟩ (.cons ⟨trivial, rfl⟩ (.cons ⟨?_, rfl⟩ (.cons ⟨trivial, rfl⟩
      (.cons ⟨?_, rfl⟩ (.nil _))))))))), rfl⟩
    · intro c request frames heq
      cases heq
    · intro c request frames heq
      cases heq
    · intro c request frames heq
      cases heq
    · intro message waiting _ hwaiting _
      cases hwaiting
      rfl
    · intro c request frames heq
      cases heq
  obtain ⟨s, hrun, hdelivered⟩ := hrun
  exact ⟨s, hdelivered, delivery_of_keeps hrun⟩

/-- The receive queue gives a message to a waiter whose time is over. -/
theorem not_delivery : ¬ ∀ (labels : List (Label Unit)) (s : ConnectionSystem Unit),
    Run (fun s label t => s.step label = some t) initial labels s → s.Delivery := by
  intro hall
  have hrun : ∃ s : ConnectionSystem Unit,
      (beginWaiting ++ Label.wakeWaiter true :: receiveAwaited ++ [Label.clientStep]).foldlM step initial =
        some s ∧ s.arrived = [((), awaitedMessage)] ∧ (s.connections ()).isValid = true ∧
        ∀ place, s.occurrences () awaitedMessage place = 0 := by
    refine ⟨_, rfl, rfl, rfl, ?_⟩
    intro place
    cases place <;> rfl
  obtain ⟨s, hrun, harrived, hvalid, hzero⟩ := hrun
  obtain ⟨place, hone, -⟩ := (hall _ s (Run.of_foldlM hrun)).once ((), awaitedMessage)
    (harrived ▸ mem_cons_self) hvalid
  rw [hzero place] at hone
  cases hone

end ConnectionSystem

end WebKit.IPC
