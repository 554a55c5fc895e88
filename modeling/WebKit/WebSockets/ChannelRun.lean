import WebKit.Transition.Run
import WebKit.WebSockets.WebSocketChannel

/-!
# Runs of a channel

What the loop leaves of a buffer (`Settles`) does not depend on when the bytes are received: a turn
of the loop may as well come later (`processBuffer_turn`). So every step of a run keeps what the
channel will settle to (`Stepped`). `Sent` says which frames a server sends for its messages.
-/

namespace WebKit.WebSockets

open Transition Bits List
open WTF (Failure)

variable {D : Type} {env : Environment D} {receiver : Receiver D} {session : Session D}
  {state : ParseState} {wire : WireFrame} {firstByte : UInt8} {masked : Bool} {n p : ℕ}
  {data suffix : List UInt8}

theorem parsePayload_outcome (hn : n < 2 ^ 63) :
    Outcome (fun _ => True) (fun result => result.1 ≠ .frameError)
      (parsePayload state firstByte masked p (UInt64.ofNat n)) := by
  have hall : ∀ x : Except Failure (List UInt8),
      Outcome (fun _ => True) (fun _ => True) x := by
    intro x
    cases x <;> trivial
  rw [parsePayload, if_neg (by rw [large_iff (hn.trans (by decide))]; omega)]
  generalize (if masked then (4 : UInt64) else 0) = maskingKeyLength
  dsimp only
  split
  · exact Outcome.pure (by decide : ParseFrameResult.frameIncomplete ≠ .frameError)
  · exact (hall _).bind fun data _ =>
      Outcome.pure (by decide : ParseFrameResult.frameOK ≠ .frameError)

/-- An error is seen whatever follows. -/
theorem parseFrame_extends (hlen : state.data.length < 2 ^ 64) :
    parseFrame state = .ok (.frameIncomplete, state) ∨
      (∃ message, ∀ suffix, parseFrame { state with data := state.data ++ suffix } =
        .ok (.frameError, { state with
          data := state.data ++ suffix, errorString := message })) ∨
      ∃ (wire : WireFrame) (suffix : List UInt8), wire.payload.length < 2 ^ 63 ∧
        state.data = wire.bytes ++ suffix := by
  rcases parseFrame_cases hlen with hincompl | ⟨message, herror⟩ | hframe
  · exact .inl hincompl
  · refine .inr (.inl ?_)
    match hdata : state.data with
    | [] | [_] =>
      rw [parseFrame, hdata] at herror
      cases herror
    | firstByte :: secondByte :: rest =>
      by_cases hshort : secondByte &&& payloadLengthMask ≤ 125
      · have hn : (secondByte &&& payloadLengthMask).toUInt64 =
            UInt64.ofNat (secondByte &&& payloadLengthMask).toNat := by
          rw [← UInt8.toNat_toUInt64, UInt64.ofNat_toNat]
        have hle := UInt8.toNat_lt (secondByte &&& payloadLengthMask)
        rw [parseFrame_plain hdata hshort, hn] at herror
        exact absurd rfl ((parsePayload_outcome (by omega)).of_ok herror)
      · by_cases hwait : rest.length < extendedSize (secondByte &&& payloadLengthMask)
        · rw [parseFrame_waits hdata hshort hwait] at herror
          cases herror
        · obtain ⟨bytes, rest, rfl, hbytes⟩ : ∃ bytes tail, rest = bytes ++ tail ∧
              bytes.length = extendedSize (secondByte &&& payloadLengthMask) :=
            ⟨_, _, (take_append_drop _ rest).symm, length_take_of_le (not_lt.mp hwait)⟩
          have hext (suffix : List UInt8) := @parseFrame_extended (rest ++ suffix) bytes
            firstByte { state with data := firstByte :: secondByte :: (bytes ++ rest) ++ suffix }
            secondByte (by simp) hshort hbytes
          have hown := hext []
          rw [append_nil, ← hdata] at hown
          rcases hown with ⟨htooLong, -⟩ | ⟨hshortest, hown⟩
          · refine ⟨notMinimal, fun suffix => ?_⟩
            rcases hext suffix with ⟨-, heq⟩ | ⟨hshortest, -⟩
            · exact heq
            · exact absurd htooLong hshortest
          · change parseFrame state = _ at hown
            rw [hown] at herror
            refine ⟨frameTooLarge (ofBytes bytes.reverse), fun suffix => ?_⟩
            rcases hext suffix with ⟨htooLong, -⟩ | ⟨-, heq⟩
            · exact absurd htooLong hshortest
            · rw [heq, parsePayload_large (ofBytes_extended_lt hbytes)]
              by_contra hn
              exact absurd rfl ((parsePayload_outcome (not_le.mp hn)).of_ok herror)
  · exact .inr (.inr hframe)

/-! ## The loop over the frames -/

theorem processFrame_bytes (hn : wire.payload.length < 2 ^ 63)
    (hbuf : receiver.buffer = wire.bytes ++ suffix) (hlen : receiver.buffer.length < 2 ^ 64) :
    processFrame env receiver =
      .ok (!(takeFrame env (wire.frame []) suffix receiver.session).buffer.isEmpty,
        takeFrame env (wire.frame []) suffix receiver.session) := by
  have hpay : (UInt64.ofNat wire.payload.length).toNat = wire.payload.length :=
    UInt64.toNat_ofNat_of_lt' (hn.trans (by decide))
  have hbytes : bytesOf (wire.frame suffix).payload (wire.frame suffix).payloadLength =
      .ok wire.payload := by
    rw [bytesOf, WireFrame.frame, hpay, if_pos (by simp), take_left]
    rfl
  have hrest : drop wire.bytes.length (wire.front ++ wire.payload ++ suffix) = suffix := by
    rw [WireFrame.bytes, length_append, wire.length_sent, ← length_append, drop_left]
  have hframe : wire.frame [] = { wire.frame suffix with payload := wire.payload } := by
    rw [WireFrame.frame, append_nil]
    rfl
  rw [processFrame, parseFrame_bytes hn hbuf hlen, hframe]
  dsimp only [bind, Except.bind]
  rw [hbytes, hrest]
  rfl

theorem receiveFrame_discards (env : Environment D) (frame : WebSocketFrame) (session : Session D) :
    (receiveFrame env frame session).2.shouldDiscardReceivedData =
      session.shouldDiscardReceivedData := by
  unfold receiveFrame dispatch receiveClose deliver startClosingHandshake
  dsimp only
  repeat' split
  -- one goal for each way in which the frame can be refused or taken
  all_goals rfl

theorem takeFrame_cases (env : Environment D) (frame : WebSocketFrame) (session : Session D) :
    ∃ session' : Session D, session'.shouldDiscardReceivedData = true ∧
        (∀ rest, takeFrame env frame rest session = ⟨session', []⟩) ∨
      session'.shouldDiscardReceivedData = session.shouldDiscardReceivedData ∧
        ∀ rest, takeFrame env frame rest session = ⟨session', rest⟩ := by
  have hdiscard := receiveFrame_discards env frame session
  unfold takeFrame
  generalize receiveFrame env frame session = result at hdiscard ⊢
  rcases result with ⟨_ | reason, session'⟩
  · exact ⟨{ session' with deflateFramer := env.reset session'.deflateFramer },
      .inr ⟨hdiscard, fun _ => rfl⟩⟩
  · exact ⟨{ (fail env reason session').session with
      deflateFramer := env.reset (env.reset session'.deflateFramer) }, .inl ⟨rfl, fun _ => rfl⟩⟩

/-- What the loop leaves if nothing is received and it is not suspended. -/
inductive Settles (env : Environment D) : Receiver D → Receiver D → Prop
  | empty {receiver : Receiver D} : receiver.buffer = [] → Settles env receiver receiver
  | last {receiver settled : Receiver D} : receiver.buffer ≠ [] →
      processBuffer env receiver = .ok (false, settled) → Settles env receiver settled
  | more {receiver after settled : Receiver D} : receiver.buffer ≠ [] →
      processBuffer env receiver = .ok (true, after) → Settles env after settled →
      Settles env receiver settled

/-- The buffer when the channel takes data. -/
def receive (data : List UInt8) (receiver : Receiver D) : Receiver D :=
  if receiver.session.shouldDiscardReceivedData then receiver
  else { receiver with buffer := receiver.buffer ++ data }

/-- Nothing that is received has an effect any more. -/
def Session.Over (session : Session D) : Prop :=
  session.shouldDiscardReceivedData = true ∨ session.receivedClosingHandshake = true

variable {more : Bool} {after settled settled' : Receiver D}

theorem receive_nil : receive [] receiver = receiver := by
  rw [receive, append_nil, ite_self]

theorem processBuffer_eq (h : ¬ receiver.session.Over) :
    processBuffer env receiver = processFrame env receiver := by
  rw [Session.Over, not_or] at h
  rw [processBuffer, if_neg h.1, if_neg h.2]

theorem processBuffer_closed (hdiscard : ¬ receiver.session.shouldDiscardReceivedData = true)
    (h : receiver.session.receivedClosingHandshake = true) :
    processBuffer env receiver = .ok (false, { receiver with buffer := [] }) := by
  rw [processBuffer, if_neg hdiscard, if_pos h]
  rfl

/-- A turn of the loop waits or does nothing, or the channel is through with all data, or a frame is
taken from the front, whatever is received behind it. -/
theorem processBuffer_cases (env : Environment D) (hlen : receiver.buffer.length < 2 ^ 64) :
    processBuffer env receiver = .ok (false, receiver) ∨ ∃ session' : Session D,
      session'.Over ∧ (∀ data, (receiver.buffer ++ data).length < 2 ^ 64 →
        processBuffer env (receive data receiver) = .ok (false, ⟨session', []⟩)) ∨
      session'.shouldDiscardReceivedData = false ∧
        ∃ suffix, suffix.length < receiver.buffer.length ∧
          ∀ data, (receiver.buffer ++ data).length < 2 ^ 64 →
            processBuffer env (receive data receiver) =
              .ok (!(suffix ++ data).isEmpty, ⟨session', suffix ++ data⟩) := by
  by_cases hdiscard : receiver.session.shouldDiscardReceivedData = true
  · left
    rw [processBuffer, if_pos hdiscard]
    rfl
  have happ (data : List UInt8) :
      receive data receiver = { receiver with buffer := receiver.buffer ++ data } := if_neg hdiscard
  by_cases hclosing : receiver.session.receivedClosingHandshake = true
  · refine .inr ⟨_, .inl ⟨.inr hclosing, fun data _ => ?_⟩⟩
    rw [happ]
    exact processBuffer_closed hdiscard hclosing
  have hproc (buffer : List UInt8) : processBuffer env { receiver with buffer } =
      processFrame env { receiver with buffer } :=
    processBuffer_eq (not_or.mpr ⟨hdiscard, hclosing⟩)
  simp only [happ, hproc]
  rcases @parseFrame_extends ⟨receiver.buffer,
      ⟨opCodeInvalid, false, false, false, false, false, [], 0⟩, 0, ""⟩ hlen with
    hincompl | ⟨message, herror⟩ | ⟨wire, suffix, hn, hbuf⟩
  · left
    rw [processFrame, hincompl]
    rfl
  · refine .inr ⟨(fail env message receiver.session).session, .inl ⟨.inl rfl, fun data _ => ?_⟩⟩
    rw [processFrame, herror]
    rfl
  · right
    dsimp only at hbuf
    obtain ⟨session', ⟨hover, htake⟩ | ⟨hopen, htake⟩⟩ :=
      takeFrame_cases env (wire.frame []) receiver.session
    · refine ⟨session', .inl ⟨.inl hover, fun data hdata => ?_⟩⟩
      rw [processFrame_bytes hn (by rw [hbuf, append_assoc]) hdata, htake]
      rfl
    · refine ⟨session', .inr ⟨hopen.trans (Bool.eq_false_iff.mpr hdiscard), suffix, ?_,
        fun data hdata => ?_⟩⟩
      · rw [hbuf, length_append, WireFrame.bytes, WireFrame.front, header]
        simp
      · rw [processFrame_bytes hn (by rw [hbuf, append_assoc]) hdata, htake]

theorem Settles.eq (h : Settles env receiver settled) (h' : Settles env receiver settled') :
    settled = settled' := by
  induction h with
  | empty hempty =>
    cases h' with
    | empty _ => rfl
    | last hne _ | more hne _ _ => exact absurd hempty hne
  | last hne hproc =>
    cases h' with
    | empty hempty => exact absurd hempty hne
    | last _ hproc' =>
      cases hproc.symm.trans hproc'
      rfl
    | more _ hproc' _ => cases hproc.symm.trans hproc'
  | more hne hproc _ ih =>
    cases h' with
    | empty hempty => exact absurd hempty hne
    | last _ hproc' => cases hproc.symm.trans hproc'
    | more _ hproc' hrest =>
      cases hproc.symm.trans hproc'
      exact ih hrest

theorem Settles.of_take (hne : receiver.buffer ≠ [])
    (hproc : processBuffer env receiver = .ok (!suffix.isEmpty, ⟨session, suffix⟩))
    (h : Settles env ⟨session, suffix⟩ settled) : Settles env receiver settled := by
  by_cases hempty : suffix = []
  · subst hempty
    cases h.eq (.empty rfl)
    exact .last hne hproc
  · rw [isEmpty_eq_false_iff.mpr hempty] at hproc
    exact .more hne hproc h

theorem Settles.over (hover : session.Over)
    (h : Settles env (receive data ⟨session, []⟩) settled) : settled = ⟨session, []⟩ := by
  by_cases hdiscard : session.shouldDiscardReceivedData = true
  · rw [receive, if_pos hdiscard] at h
    exact h.eq (.empty rfl)
  · rw [receive, if_neg hdiscard] at h
    by_cases hempty : data = []
    · subst hempty
      exact h.eq (.empty rfl)
    · exact h.eq (.last hempty (processBuffer_closed hdiscard (hover.resolve_left hdiscard)))

/-- A turn of the loop may as well come after the data that is received next. -/
theorem processBuffer_turn (env : Environment D) (hlen : receiver.buffer.length < 2 ^ 64)
    (hne : receiver.buffer ≠ []) : ∃ more after,
      processBuffer env receiver = .ok (more, after) ∧
      after.buffer.length ≤ receiver.buffer.length ∧ (more = true ∨ Settles env after after) ∧
      ∀ data settled, (receiver.buffer ++ data).length < 2 ^ 64 →
        Settles env (receive data after) settled → Settles env (receive data receiver) settled := by
  have hne' (data : List UInt8) : (receive data receiver).buffer ≠ [] := by
    unfold receive
    split
    · exact hne
    · exact append_ne_nil_of_left_ne_nil hne data
  have hnil : (receiver.buffer ++ []).length < 2 ^ 64 := by rwa [append_nil]
  rcases processBuffer_cases env hlen with
    hwait | ⟨session', ⟨hover, hstop⟩ | ⟨hopen, suffix, hlt, htake⟩⟩
  · exact ⟨_, _, hwait, le_rfl, .inr (.last hne hwait), fun _ _ _ => id⟩
  · have hown := hstop [] hnil
    rw [receive_nil] at hown
    refine ⟨_, _, hown, Nat.zero_le _, .inr (.empty rfl), fun data settled hdata h => ?_⟩
    rw [h.over hover]
    exact .last (hne' data) (hstop data hdata)
  · have hown := htake [] hnil
    rw [receive_nil, append_nil] at hown
    refine ⟨_, _, hown, hlt.le, ?_, fun data settled hdata h => ?_⟩
    · by_cases hempty : suffix = []
      · exact .inr (.empty hempty)
      · exact .inl (by simpa using hempty)
    · rw [receive, if_neg (by simp [hopen])] at h
      exact h.of_take (hne' data) (htake data hdata)

/-! ## Runs -/

def Event.bytes : Event → List UInt8
  | .didReceiveSocketStreamData byte bytes => byte :: bytes
  | _ => []

def received (events : List Event) : List UInt8 := events.flatMap Event.bytes

/-- The loop goes on, at once or after the channel is resumed, unless it is done. -/
def Awake (env : Environment D) (channel : WebSocketChannel D) : Prop :=
  channel.processing = true ∨ channel.suspended = true ∨ channel.resumeTimer = true ∨
    Settles env channel.receiver channel.receiver

structure Stepped (env : Environment D) (before : WebSocketChannel D) (data : List UInt8)
    (after : WebSocketChannel D) : Prop where
  awake : Awake env before → Awake env after
  length : after.receiver.buffer.length ≤ before.receiver.buffer.length + data.length
  settles : ∀ more settled, (before.receiver.buffer ++ (data ++ more)).length < 2 ^ 64 →
    Settles env (receive more after.receiver) settled →
    Settles env (receive (data ++ more) before.receiver) settled

variable {channel : WebSocketChannel D} {events : List Event}

theorem Stepped.same {after : WebSocketChannel D} (h : after.receiver = channel.receiver)
    (hawake : Awake env channel → Awake env after) : Stepped env channel [] after where
  awake := hawake
  length := h ▸ Nat.le_refl _
  settles _ _ _ := h ▸ id

theorem step_stepped (env : Environment D) (event : Event)
    (hlen : channel.receiver.buffer.length + event.bytes.length < 2 ^ 64) :
    ∃ after, step env channel event = .ok after ∧ Stepped env channel event.bytes after := by
  cases event with
  | didReceiveSocketStreamData byte bytes =>
    rw [step]
    split
    · rename_i hdiscard
      refine ⟨_, rfl, id, Nat.le_add_right _ _, fun more settled _ h => ?_⟩
      rw [receive, if_pos hdiscard] at h ⊢
      exact h
    · rename_i hdiscard
      change channel.receiver.buffer.length + (byte :: bytes).length < 2 ^ 64 at hlen
      rw [appendToBuffer, Nat.mod_eq_of_lt hlen, if_neg (by omega)]
      refine ⟨_, rfl, fun _ => .inl rfl, length_append.le, fun more settled _ h => ?_⟩
      rw [receive, if_neg hdiscard] at h ⊢
      rwa [← append_assoc]
  | processBuffer =>
    rw [step]
    split
    · rename_i hstop
      simp only [Bool.or_eq_true, Bool.not_eq_true', List.isEmpty_iff] at hstop
      refine ⟨_, rfl, .same rfl fun hawake => .inr ?_⟩
      rcases hstop with (hidle | hsuspended) | hempty
      · exact hawake.resolve_left (by simp [hidle])
      · exact .inl hsuspended
      · exact .inr (.inr (.empty hempty))
    · rename_i hgoes
      simp only [Bool.or_eq_true, List.isEmpty_iff, not_or] at hgoes
      obtain ⟨more, after, hproc, hle, hmore, hsettles⟩ :=
        processBuffer_turn env (Nat.lt_of_add_right_lt hlen) hgoes.2
      rw [hproc]
      exact ⟨_, rfl, fun _ => hmore.imp_right (.inr <| .inr ·), hle, hsettles⟩
  | suspend => exact ⟨_, rfl, .same rfl fun _ => .inr (.inl rfl)⟩
  | resume =>
    refine ⟨_, rfl, .same rfl fun _ => .inr (.inr ?_)⟩
    by_cases hempty : channel.receiver.buffer = []
    · exact .inr (.empty hempty)
    · exact .inl (by simp [hempty])
  | resumeTimerFired =>
    rw [step]
    split
    · exact ⟨_, rfl, .same rfl fun _ => .inl rfl⟩
    · exact ⟨_, rfl, .same rfl id⟩

theorem run_stepped (env : Environment D) (events : List Event)
    (hlen : channel.receiver.buffer.length + (received events).length < 2 ^ 64) :
    ∃ after, events.foldlM (step env) channel = .ok after ∧
      Stepped env channel (received events) after := by
  induction events generalizing channel with
  | nil => exact ⟨channel, rfl, .same rfl id⟩
  | cons event events ih =>
    have hall : received (event :: events) = event.bytes ++ received events := flatMap_cons
    rw [hall, length_append] at hlen
    obtain ⟨between, hstep, hfirst⟩ := @step_stepped _ channel env event (by omega)
    have hbetween := hfirst.length
    obtain ⟨after, hrun, hrest⟩ := @ih between (by omega)
    have hafter := hrest.length
    rw [foldlM_cons, hstep, hall]
    refine ⟨after, hrun, hrest.awake ∘ hfirst.awake, ?_, fun more settled hmore h => ?_⟩
    · rw [length_append]
      omega
    · rw [append_assoc] at hmore ⊢
      refine hfirst.settles _ _ hmore (hrest.settles _ _ ?_ h)
      simp only [length_append] at hmore ⊢
      omega

/-- The channel is not in the middle of anything. -/
def WebSocketChannel.Quiet (channel : WebSocketChannel D) : Prop :=
  channel.processing = false ∧ channel.suspended = false ∧ channel.resumeTimer = false

theorem Stepped.quiet {after : WebSocketChannel D} (h : Stepped env channel data after)
    (hlen : data.length < 2 ^ 64) (hempty : channel.receiver.buffer = []) (hquiet : after.Quiet) :
    Settles env (receive data channel.receiver) after.receiver := by
  obtain ⟨hidle, hresumed, htimer⟩ := hquiet
  have hsettles : Settles env after.receiver after.receiver := by
    have hawake := h.awake (.inr (.inr (.inr (.empty hempty))))
    simpa [Awake, hidle, hresumed, htimer] using hawake
  have hsettled := h.settles [] after.receiver
  rw [receive_nil, append_nil, hempty, nil_append] at hsettled
  exact hsettled hlen hsettles

/-- Texts of ASCII characters, and no compression. -/
def asciiEnvironment : Environment Unit where
  fromUTF8 bytes := some (String.ofList (bytes.map fun byte => Char.ofNat byte.toNat))
  deflateEnabled := false
  inflate _ _ := (none, ())
  reset := id

def openedChannel : WebSocketChannel Unit :=
  ⟨⟨⟨false, false, false, false, 0, [], 0, some "", (), []⟩, []⟩, false, false, false⟩

variable {canGrow : ℕ → Bool} {maskingKey : Fin 4 → UInt8}
  {waiting next : Option (List UInt8 × List Call)} {sent : List (WebSocketFrame × List Call)}

/-- A frame as a server sends it. -/
def serverFrame (opCode : UInt8) (final : Bool) (payload : List UInt8) : WebSocketFrame :=
  ⟨opCode, final, false, false, false, false, payload, .ofNat payload.length⟩

/-- The frames of messages and what they call for. Between two frames the rest of a message may have
to be sent yet, with the calls for the whole message. -/
inductive Sent (env : Environment D) :
    Option (List UInt8 × List Call) → WebSocketFrame × List Call →
    Option (List UInt8 × List Call) → Prop
  | whole {opCode : UInt8} {payload : List UInt8} {calls : List Call} :
      opCode = opCodeText ∨ opCode = opCodeBinary → message env opCode payload = .ok calls →
      Sent env none (serverFrame opCode true payload, calls) none
  | first {opCode : UInt8} {payload rest : List UInt8} {calls : List Call} :
      opCode = opCodeText ∨ opCode = opCodeBinary →
      message env opCode (payload ++ rest) = .ok calls →
      Sent env none (serverFrame opCode false payload, []) (some (rest, calls))
  | next {payload rest : List UInt8} {calls : List Call} : Sent env (some (payload ++ rest, calls))
      (serverFrame opCodeContinuation false payload, []) (some (rest, calls))
  | last {payload : List UInt8} {calls : List Call} :
      Sent env (some (payload, calls)) (serverFrame opCodeContinuation true payload, calls) none
  | ping {payload : List UInt8} {waiting : Option (List UInt8 × List Call)} : payload.length ≤ 125 →
      Sent env waiting (serverFrame opCodePing true payload, [.enqueueRawFrame opCodePong payload])
        waiting
  | pong {payload : List UInt8} {waiting : Option (List UInt8 × List Call)} : payload.length ≤ 125 →
      Sent env waiting (serverFrame opCodePong true payload, []) waiting

/-- The channel has what has been sent of the message. -/
def Waits (env : Environment D) (session : Session D) : Option (List UInt8 × List Call) → Prop
  | none => session.hasContinuousFrame = false ∧ session.continuousFrameData = []
  | some (rest, calls) => session.hasContinuousFrame = true ∧
      message env session.continuousFrameOpCode (session.continuousFrameData ++ rest) = .ok calls

theorem receiveFrame_serverFrame {opCode : UInt8} {final : Bool} {payload : List UInt8}
    (h : validate session.hasContinuousFrame (serverFrame opCode final payload) = none) :
    receiveFrame env (serverFrame opCode final payload) session =
      dispatch env (serverFrame opCode final payload) session := by
  have hinflate : inflate env (serverFrame opCode final payload) session.deflateFramer =
      (.ok (serverFrame opCode final payload), session.deflateFramer) := by
    simp [inflate, serverFrame]
  rw [receiveFrame, hinflate]
  dsimp only
  rw [h]

theorem receiveFrame_sent {waiting next : Option (List UInt8 × List Call)}
    {sent : WebSocketFrame × List Call} (h : Sent env waiting sent next)
    (hwaits : Waits env session waiting) : ∃ session',
      receiveFrame env sent.1 session = (none, session') ∧ Waits env session' next ∧
      session'.calls = session.calls ++ sent.2 ∧
      session'.receivedClosingHandshake = session.receivedClosingHandshake := by
  have hcontrol {opCode : UInt8} {payload : List UInt8} (hlen : payload.length ≤ 125)
      (h : isControlOpCode opCode = true) (continuous : Bool) :
      validate continuous (serverFrame opCode true payload) = none := by
    have hshort : ¬ UInt64.ofNat payload.length > maxPayloadLengthWithoutExtendedLengthField := by
      rw [gt_iff_lt, UInt64.lt_iff_toNat_lt,
        UInt64.toNat_ofNat_of_lt' (hlen.trans_lt (by decide))]
      exact not_lt.mpr hlen
    simp [validate, serverFrame, isReservedOpCode, h, hshort]
  have hdata {opCode : UInt8} {payload : List UInt8} (final : Bool)
      (h : opCode = opCodeText ∨ opCode = opCodeBinary)
      (hnone : session.hasContinuousFrame = false) :
      receiveFrame env (serverFrame opCode final payload) session =
        if final then deliver env opCode payload session
        else (none, { session with
          hasContinuousFrame := true
          continuousFrameOpCode := opCode
          continuousFrameData := session.continuousFrameData ++ payload }) := by
    have hne : opCode ≠ opCodeContinuation := by
      rcases h with rfl | rfl <;> decide
    rw [receiveFrame_serverFrame, dispatch]
    · exact (if_neg hne).trans (if_pos h)
    · rw [hnone]
      rcases h with rfl | rfl <;> rfl
  have hcontinuation {payload : List UInt8} (final : Bool)
      (hsome : session.hasContinuousFrame = true) :
      receiveFrame env (serverFrame opCodeContinuation final payload) session =
        if final then deliver env session.continuousFrameOpCode
          (session.continuousFrameData ++ payload)
          { session with hasContinuousFrame := false, continuousFrameData := [] }
        else (none, { session with
          continuousFrameData := session.continuousFrameData ++ payload }) := by
    rw [receiveFrame_serverFrame, dispatch, hsome]
    · rfl
    · rw [hsome]
      rfl
  cases h with
  | @whole _ payload _ hopCode hmessage =>
    have heq := @hdata _ payload true hopCode hwaits.1
    rw [if_pos rfl, deliver, hmessage] at heq
    exact ⟨_, heq, hwaits, rfl, rfl⟩
  | first hopCode hmessage =>
    refine ⟨_, hdata _ hopCode hwaits.1, ⟨rfl, ?_⟩, (append_nil _).symm, rfl⟩
    rw [hwaits.2]
    exact hmessage
  | next =>
    refine ⟨_, hcontinuation _ hwaits.1, ⟨hwaits.1, ?_⟩, (append_nil _).symm, rfl⟩
    rw [append_assoc]
    exact hwaits.2
  | @last payload _ =>
    have heq := @hcontinuation payload true hwaits.1
    rw [if_pos rfl, deliver, hwaits.2] at heq
    exact ⟨_, heq, ⟨rfl, rfl⟩, rfl, rfl⟩
  | ping hlen => exact ⟨_, receiveFrame_serverFrame (hcontrol hlen rfl _), hwaits, rfl, rfl⟩
  | pong hlen =>
    exact ⟨_, receiveFrame_serverFrame (hcontrol hlen rfl _), hwaits, (append_nil _).symm, rfl⟩

theorem takeFrame_sent {sent : WebSocketFrame × List Call} (h : Sent env waiting sent next)
    (hwaits : Waits env session waiting) : ∃ session',
      (∀ rest, takeFrame env sent.1 rest session = ⟨session', rest⟩) ∧ Waits env session' next ∧
      session'.calls = session.calls ++ sent.2 ∧ (session'.Over → session.Over) := by
  have hdiscard := receiveFrame_discards env sent.1 session
  obtain ⟨session', hrecv, hnext, hcalls, hclosing⟩ := receiveFrame_sent h hwaits
  rw [hrecv] at hdiscard
  refine ⟨{ session' with deflateFramer := env.reset session'.deflateFramer }, fun rest => ?_,
    ?_, hcalls, ?_⟩
  · rw [takeFrame, hrecv]
  · cases next <;> exact hnext
  · exact Or.imp hdiscard.symm.trans hclosing.symm.trans

theorem Sent.frame {sent : WebSocketFrame × List Call} (h : Sent env waiting sent next) :
    ∃ opCode ≤ 15, ∃ final payload, sent.1 = serverFrame opCode final payload := by
  cases h with
  | whole hopCode _ | first hopCode _ =>
    refine ⟨_, ?_, _, _, rfl⟩
    rcases hopCode with rfl | rfl <;> decide
  | next | last | ping _ | pong _ => exact ⟨_, by decide, _, _, rfl⟩

theorem processFrame_sent {sent : WebSocketFrame × List Call} (h : Sent env waiting sent next)
    (hmade : makeFrameData canGrow sent.1 maskingKey = .ok data)
    (hpayload : sent.1.payload.length < 2 ^ 63) (hlen : (data ++ suffix).length < 2 ^ 64) :
    data ≠ [] ∧ processFrame env ⟨session, data ++ suffix⟩ =
      .ok (!(takeFrame env sent.1 suffix session).buffer.isEmpty,
        takeFrame env sent.1 suffix session) := by
  obtain ⟨opCode, hopCode, final, payload, hframe⟩ := h.frame
  rw [hframe] at hmade hpayload ⊢
  have hpay : (UInt64.ofNat payload.length).toNat = payload.length :=
    UInt64.toNat_ofNat_of_lt' (hpayload.trans (by decide))
  have hmakeable : (serverFrame opCode final payload).Makeable := ⟨hopCode, rfl, rfl, hpay.le⟩
  have hwire := @frame_wireOf _ maskingKey hmakeable []
  rw [append_nil, serverFrame, hpay, take_length] at hwire
  obtain rfl := (makeFrameData_outcome hmakeable.length_le).of_ok hmade
  refine ⟨?_, ?_⟩
  · simp [WireFrame.bytes, WireFrame.front, header]
  · rw [processFrame_bytes _ rfl hlen, serverFrame, hwire]
    rwa [length_wireOf hmakeable.length_le, serverFrame, hpay]

theorem Sent.settles {datas : List (List UInt8)} (h : Run (Sent env) waiting sent none)
    (hmade : Forall₂ (fun frame data => makeFrameData canGrow frame.1 maskingKey = .ok data)
      sent datas)
    (hpayload : ∀ frame ∈ sent, frame.1.payload.length < 2 ^ 63)
    (hlen : datas.flatten.length < 2 ^ 64) (hover : ¬ session.Over)
    (hwaits : Waits env session waiting) : ∃ session', Settles env ⟨session, datas.flatten⟩
      ⟨session', []⟩ ∧ session'.calls = session.calls ++ sent.flatMap Prod.snd := by
  generalize hfinal : none = final at h
  induction h generalizing session datas with
  | nil _ =>
    cases hmade
    exact ⟨session, .empty rfl, (append_nil _).symm⟩
  | cons hsent _ ih =>
    cases hmade with
    | cons hdata hmade =>
      rw [flatten_cons] at hlen ⊢
      obtain ⟨session', htake, hnext, hcalls, hover'⟩ := takeFrame_sent hsent hwaits
      obtain ⟨hne, hproc⟩ := @processFrame_sent _ _ session _ _ _ _ _ _ _ hsent hdata
        (hpayload _ mem_cons_self) hlen
      rw [length_append] at hlen
      obtain ⟨settled, hsettles, hrest⟩ := ih hmade
        (fun frame hmem => hpayload _ (mem_cons_of_mem _ hmem)) (by omega) (hover ∘ hover') hnext
        hfinal
      rw [htake] at hproc
      refine ⟨settled, hsettles.of_take (append_ne_nil_of_left_ne_nil hne _)
        ((processBuffer_eq hover).trans hproc), ?_⟩
      rw [hrest, hcalls, append_assoc, flatMap_cons]

end WebKit.WebSockets
