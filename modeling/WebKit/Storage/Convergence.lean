import WebKit.Storage.Agreement

/-!
# The invariant of one connection

The invariant looks at the map as it will be once the reply to `GetValues` that may be on
its way has arrived (`effective`), and compares it with the area's items after all messages
that are on their way have been delivered (`Inv.agrees`). Every step of the system is one of
a few things that happen to a connection: another connection's change is reported
(`Inv.notified`), the area's data is deleted (`Inv.cacheCleared`), a message of its own is
handled (`Inv.answered`, `Inv.answeredValues`), a message is delivered (`Inv.deliver`), a
call is made (`Inv.call`), or the reply arrives (`Inv.receiveReply`).
-/

variable {area : StorageArea}

open List

namespace WebKit.Storage

open Replica StorageAreaMap ManagerMessage StorageManager Connection Option

/-- The call removes a key that holds a null value. -/
def LocalCall.RemovesNull (items : Items) (call : LocalCall) : Prop :=
  ∃ id key, call = .removeItem id key ∧ items.lookup key = some none

namespace Connection

variable {c c' : Connection} {f g : WTFString → Option (Option WTFString)}
  {handled : StorageManager.Handled} {message : AreaMapMessage}

/-- The map once the reply to `GetValues` has arrived. -/
def effective (c : Connection) : StorageAreaMap :=
  match c.reply with
  | none => c.areaMap
  | some values => c.areaMap.importValues values

/-- The changes that have not reached the manager. -/
def onTheirWay (c : Connection) : List SentChange := c.toManager.filterMap sent

/-- A call waits as long as its `GetValues` is the last message to the manager or the reply
is on its way. -/
structure Phase (c : Connection) : Prop where
  idle : c.waiting = none → c.reply = none ∧ ∀ seed, .getValues seed ∉ c.toManager
  waits : c.waiting ≠ none → c.areaMap.storageMap = none ∧
    ((c.reply = none ∧ ∃ before, c.toManager = before ++ [.getValues c.areaMap.currentSeed] ∧
        ∀ seed, .getValues seed ∉ before) ∨
      (c.reply ≠ none ∧ c.toManager = []))

structure Inv (c : Connection) (f : WTFString → Option (Option WTFString)) : Prop where
  phase : c.Phase
  kept : c.effective.Kept c.unanswered
  aligned : ∃ answered, c.unanswered = answered ++ c.onTheirWay ∧
    List.Forall₂ Answers (c.toAreaMap.filter (·.isAnswer)) answered
  ordered : c.effective.Ordered c.onTheirWay
  awaits : c.effective.AwaitsValues c.toAreaMap
  agrees : (c.effective.settleAll c.toAreaMap).Agrees (c.onTheirWay.map (·.change)) f
  replays : Replays c.toAreaMap f
  seeds : ∀ seed, .didGetValues seed ∈ c.toAreaMap → seed ≤ c.effective.currentSeed ∧
    (c.effective.storageMap = none → seed < c.effective.currentSeed)

/-- Nothing goes wrong when the next message is a clear: no pending key has a value, or the
map is not loaded and no change of its own is on its way or reported after the clear. -/
def ClearIsSafe (c : Connection) : Prop :=
  ∀ newValue rest, c.toAreaMap = .dispatchStorageEvent 0 none newValue :: rest →
    c.areaMap.hasPendingClear = false → c.areaMap.hasPendingGetValues = false →
    match c.areaMap.storageMap with
    | none => c.onTheirWay = [] ∧ ∀ m ∈ rest, m.isOwnEvent = false
    | some storageMap => ∀ key ∈ c.areaMap.pendingValueChanges, storageMap.getItem key = none

theorem inv_create (quotaInBytes : UInt32) (f : WTFString → Option (Option WTFString)) :
    (create quotaInBytes).Inv f where
  phase := ⟨fun _ => ⟨rfl, fun _ => not_mem_nil⟩, fun h => absurd rfl h⟩
  kept := ⟨.nil, by simp [create], by simp [create], fun _ => ⟨rfl, rfl, rfl, by simp [create]⟩,
    fun _ => rfl, rfl, fun _ h => by cases h⟩
  aligned := ⟨[], rfl, .nil⟩
  ordered h := absurd rfl h
  awaits h := by cases h
  agrees _ h := by cases h
  replays := .nil
  seeds _ h := by cases h

theorem effective_of_reply (h : c.reply = none) : c.effective = c.areaMap := by
  unfold effective
  rw [h]

namespace Inv

theorem settled_kept (h : c.Inv f) : (c.effective.settleAll c.toAreaMap).Kept c.onTheirWay := by
  obtain ⟨answered, heq, hans⟩ := h.aligned
  have hkept := h.kept
  rw [heq] at hkept
  exact Kept.settleAll hans hkept

theorem push (h : c.Inv f) (hanswer : message.isAnswer = false)
    (hvalues : ∀ seed, message ≠ .didGetValues seed)
    (hagrees : ((c.effective.settleAll c.toAreaMap).settle message).Agrees
      (c.onTheirWay.map (·.change)) g)
    (hreplays : Replays (c.toAreaMap ++ [message]) g) :
    Inv { c with toAreaMap := c.toAreaMap ++ [message] } g where
  phase := ⟨h.phase.idle, h.phase.waits⟩
  kept := h.kept
  aligned := by
    obtain ⟨answered, heq, hans⟩ := h.aligned
    refine ⟨answered, heq, ?_⟩
    rw [filter_append, filter_cons_of_neg (by simp [hanswer]), filter_nil, append_nil]
    exact hans
  ordered := h.ordered
  awaits hpend := mem_append_left _ (h.awaits hpend)
  agrees := by
    rw [settleAll_append]
    exact hagrees
  replays := hreplays
  seeds seed hmem := by
    rcases mem_append.mp hmem with hmem | hmem
    · exact h.seeds seed hmem
    · exact absurd (mem_singleton.mp hmem).symm (hvalues seed)

theorem cacheCleared (h : c.Inv f) (g : WTFString → Option (Option WTFString)) :
    Inv { c with toAreaMap := c.toAreaMap ++ [.clearCache] } g :=
  h.push rfl (by simp) (fun _ hnone => by cases hnone) Replays.concat_clearCache

theorem pushEvent (h : c.Inv f) (event : StorageEvent) : Inv { c with toAreaMap := c.toAreaMap ++
      [.dispatchStorageEvent 0 event.key event.newValue] } (event.change.apply f) :=
  h.push rfl (by simp) (h.agrees.event h.settled_kept h.awaits.settleAll event)
    (h.replays.concat_event 0 event)

theorem notified (h : c.Inv f) (hevent : (handled.event = none ∧ g = f) ∨
      ∃ event, handled.event = some event ∧ g = event.change.apply f) :
    (c.notified handled).Inv g := by
  unfold Connection.notified StorageManager.dispatchEvents
  rcases hevent with ⟨hnone, rfl⟩ | ⟨event, hsome, rfl⟩
  · rw [hnone, append_nil]
    exact h
  · rw [hsome]
    exact h.pushEvent event

/-! ## The manager handles a message of this connection -/

variable {u : SentChange}

theorem answer_change_eq_none (h : Answers message u) : message.change = none := by
  cases h <;> rfl

theorem answer_isAnswer (h : Answers message u) : message.isAnswer = true := by
  cases h <;> rfl

variable {rest : List ManagerMessage} {request : ManagerMessage}

theorem phase_tail
    (h : c.Inv f) (hman : c.toManager = request :: rest) (hsent : request.sent = some u)
    (messages : List AreaMapMessage) :
    Phase { c with toManager := rest, toAreaMap := messages } where
  idle hidle := ⟨(h.phase.idle hidle).1, fun seed hmem =>
    (h.phase.idle hidle).2 seed (by rw [hman]; exact mem_cons_of_mem _ hmem)⟩
  waits hwaits := by
    obtain ⟨hunloaded, hwaits⟩ := h.phase.waits hwaits
    refine ⟨hunloaded, ?_⟩
    rcases hwaits with ⟨hreply, before, heq, hbef⟩ | ⟨_, hnil⟩
    · rw [hman] at heq
      rcases before with _ | ⟨first, before⟩
      · obtain ⟨rfl, -⟩ := cons.inj heq
        cases hsent
      · obtain ⟨-, heq⟩ := cons.inj heq
        exact .inl ⟨hreply, before, heq, fun seed hmem =>
          hbef seed (mem_cons_of_mem _ hmem)⟩
    · rw [hman] at hnil
      cases hnil

theorem answered (h : c.Inv area.items.lookup)
    (hman : c.toManager = request :: rest) (hsent : request.sent = some u)
    (hcarried : StorageManager.Carried area u handled) :
    (c.answered handled).Inv handled.area.items.lookup := by
  have hway : c.onTheirWay = u :: rest.filterMap sent := by
    rw [onTheirWay, hman, filterMap_cons_some hsent]
  have hkept := h.settled_kept
  have hagrees := h.agrees
  have hord := h.ordered
  rw [hway] at hkept hagrees hord
  -- the event comes back to its source, where it changes nothing
  obtain ⟨events, hevents, hown, hnone, hreplays⟩ : ∃ events, dispatchEvents handled true = events ∧
      (c.effective.settleAll (c.toAreaMap ++ events) = c.effective.settleAll c.toAreaMap) ∧
      (∀ m ∈ events, m.isAnswer = false ∧ ∀ seed, m ≠ .didGetValues seed) ∧
      Replays (c.toAreaMap ++ events) handled.area.items.lookup := by
    refine ⟨_, rfl, ?_⟩
    unfold dispatchEvents
    rcases hcarried.event with ⟨hevent, hitems⟩ | ⟨event, hevent, hchange, hitems⟩
    · rw [hevent, hitems, append_nil]
      exact ⟨rfl, by simp, h.replays⟩
    · rw [hevent, hitems, ← hchange]
      refine ⟨?_, ?_, h.replays.concat_event _ event⟩
      · rw [settleAll_append, settleAll_cons, settleAll_nil, if_pos rfl, settle_own hcarried.source]
      · intro m hm
        rw [mem_singleton.mp hm]
        exact ⟨rfl, by simp⟩
  have hsame : c.answered handled =
      { c with
        toManager := rest
        toAreaMap := c.toAreaMap ++ events ++ [handled.answer] } := by
    unfold Connection.answered
    rw [hevents, hman, hcarried.values]
    rfl
  rw [hsame]
  obtain ⟨done, heq, hans⟩ := h.aligned
  have hfilter : events.filter (·.isAnswer) = [] :=
    filter_eq_nil_iff.mpr fun m hm => by simp [(hnone m hm).1]
  exact {
    phase := h.phase_tail hman hsent _
    kept := h.kept
    aligned := by
      refine ⟨done ++ [u], ?_, ?_⟩
      · rw [heq, hway]
        exact (append_assoc done [u] _).symm
      · rw [filter_append, filter_append, hfilter, append_nil,
          filter_cons_of_pos (answer_isAnswer hcarried.answers), filter_nil]
        exact rel_append hans (.cons hcarried.answers .nil)
    ordered := by
      refine hord.tail ?_ fun v hv => h.kept.le v ?_
      · have hsorted := h.kept.sorted
        rw [heq, hway] at hsorted
        exact (pairwise_append.mp hsorted).2.1
      · rw [heq, hway]
        exact mem_append_right _ (mem_cons_of_mem _ hv)
    awaits := fun hpend =>
      mem_append_left _ (mem_append_left _ (h.awaits hpend))
    agrees := by
      rw [settleAll_append]
      change ((c.effective.settleAll (c.toAreaMap ++ events)).settleAll [handled.answer]).Agrees _ _
      rw [hown]
      exact hagrees.answer hkept hord.settleAll hcarried.answers hcarried.quotaError
    replays := hreplays.concat_other (answer_change_eq_none hcarried.answers)
    seeds := fun seed hmem => by
      rcases mem_append.mp hmem with hmem | hmem
      · rcases mem_append.mp hmem with hmem | hmem
        · exact h.seeds seed hmem
        · exact absurd rfl ((hnone _ hmem).2 seed)
      · have hanswer := answer_isAnswer hcarried.answers
        rw [← mem_singleton.mp hmem] at hanswer
        cases hanswer }

theorem exists_of_forall₂ {messages : List AreaMapMessage} {answered : List SentChange}
    (h : List.Forall₂ Answers messages answered) (hmem : message ∈ messages) :
    ∃ u ∈ answered, Answers message u := by
  induction h with
  | nil => cases hmem
  | cons hans _ ih =>
    rcases mem_cons.mp hmem with rfl | hmem
    · exact ⟨_, mem_cons_self, hans⟩
    · obtain ⟨u, hu, hans⟩ := ih hmem
      exact ⟨u, mem_cons_of_mem _ hu, hans⟩

/-- While the map is not loaded, all answers on their way are to changes under older seeds. -/
theorem old_answers (h : c.Inv f) (hunloaded : c.effective.storageMap = none) :
    ∀ m ∈ c.toAreaMap, m.isAnswer = true → ∃ u, Answers m u ∧ u.seed < c.effective.currentSeed := by
  intro m hm hisAnswer
  obtain ⟨done, heq, hans⟩ := h.aligned
  obtain ⟨u, hu, hanswer⟩ := exists_of_forall₂ hans (mem_filter.mpr ⟨hm, hisAnswer⟩)
  refine ⟨u, hanswer, (h.kept.unloaded hunloaded).2.2.2 u ?_⟩
  rw [heq]
  exact mem_append_left _ hu

theorem answeredValues {seed : Nat}
    (h : c.Inv area.items.lookup) (hman : c.toManager = .getValues seed :: rest) :
    (c.answered (getValues area seed)).Inv area.items.lookup := by
  have hwaits : c.waiting ≠ none := fun hidle =>
    (h.phase.idle hidle).2 seed (by rw [hman]; exact mem_cons_self)
  obtain ⟨hunloaded, hwaiting⟩ := h.phase.waits hwaits
  -- nothing else is on its way to the manager
  obtain ⟨hreply, rfl, rfl⟩ : c.reply = none ∧ rest = [] ∧ seed = c.areaMap.currentSeed := by
    rcases hwaiting with ⟨hreply, before, heq, hbef⟩ | ⟨_, hnil⟩
    · rw [hman] at heq
      rcases before with _ | ⟨first, before⟩
      · obtain ⟨hfirst, hrest⟩ := cons.inj heq
        cases hfirst
        exact ⟨hreply, hrest, rfl⟩
      · obtain ⟨rfl, -⟩ := cons.inj heq
        exact absurd mem_cons_self (hbef seed)
    · rw [hman] at hnil
      cases hnil
  have heff := effective_of_reply hreply
  have hold := h.old_answers (by rw [heff]; exact hunloaded)
  have hkept := h.kept
  have hseeds := h.seeds
  obtain ⟨done, heq, hans⟩ := h.aligned
  have hway : c.onTheirWay = [] := by
    rw [onTheirWay, hman]
    rfl
  rw [heff] at hold hkept hseeds
  have hsame : c.answered (getValues area c.areaMap.currentSeed) =
      { c with
        toManager := []
        toAreaMap := c.toAreaMap ++ [.didGetValues c.areaMap.currentSeed]
        reply := some area.items } := by
    unfold Connection.answered StorageManager.getValues StorageManager.dispatchEvents
    rw [hman, append_nil]
    rfl
  rw [hsame]
  exact {
    phase := ⟨fun hidle => absurd hidle hwaits, fun _ => ⟨hunloaded, .inr ⟨some_ne_none _, rfl⟩⟩⟩
    kept := hkept.load hunloaded _ true
    aligned := by
      refine ⟨done, heq.trans (by rw [hway]; rfl), ?_⟩
      rw [filter_append]
      exact (append_nil _).symm ▸ hans
    ordered := fun _ => .inl fun u hu => by cases hu
    awaits := fun _ => mem_append_right _ mem_cons_self
    agrees := by
      rw [settleAll_append]
      change (((c.areaMap.importValues area.items).settleAll c.toAreaMap).settle
        (.didGetValues c.areaMap.currentSeed)).Agrees _ _
      intro storageMap hsettled key _
      rcases @settleAll_ignored (c.areaMap.importValues area.items) c.toAreaMap rfl hold
        (fun seed hmem => (hseeds seed hmem).2 hunloaded) with hnone | hignored
      · rw [settle_storageMap_none hnone] at hsettled
        cases hsettled
      · rw [hignored] at hsettled
        have himport : (c.areaMap.importValues area.items).storageMap = some storageMap := by
          rw [← hsettled]
          unfold settle StorageAreaMap.handle didGetValues
          dsimp only
          split <;> rfl
        cases himport
        exact StorageMap.lookup_importItems _ _
    replays := h.replays.concat_other rfl
    seeds := fun seed hmem => by
      refine ⟨?_, fun hnone => by cases hnone⟩
      rcases mem_append.mp hmem with hmem | hmem
      · exact (hseeds seed hmem).1
      · cases mem_singleton.mp hmem
        exact le_rfl }

theorem deliverSettled {rest : List AreaMapMessage} (h : c.Inv f) (hidle : c.waiting = none)
    (hqueue : c.toAreaMap = message :: rest) :
    Inv { c with
      areaMap := c.areaMap.settle message
      toAreaMap := rest
      unanswered := if message.isAnswer then c.unanswered.tail else c.unanswered } f := by
  have hreply := (h.phase.idle hidle).1
  have heff := effective_of_reply hreply
  have heff' : effective { c with
      areaMap := c.areaMap.settle message
      toAreaMap := rest
      unanswered := if message.isAnswer then c.unanswered.tail else c.unanswered } =
      c.areaMap.settle message := effective_of_reply hreply
  obtain ⟨done, heq, hans⟩ := h.aligned
  have hkept := h.kept
  have hord := h.ordered
  have hawaits := h.awaits
  have hagrees := h.agrees
  have hreplays := h.replays
  have hseeds := h.seeds
  rw [heff] at hkept hord hawaits hagrees hseeds
  rw [hqueue] at hans hawaits hagrees hreplays hseeds
  -- the answer, if it is one, is to the first change without answer
  obtain ⟨done', heq', hans', hkept'⟩ : ∃ done',
      (if message.isAnswer then c.unanswered.tail else c.unanswered) = done' ++ c.onTheirWay ∧
      List.Forall₂ Answers (rest.filter (·.isAnswer)) done' ∧
      (c.areaMap.settle message).Kept
        (if message.isAnswer then c.unanswered.tail else c.unanswered) := by
    cases hisAnswer : message.isAnswer with
    | false =>
      rw [filter_cons_of_neg (by simp [hisAnswer])] at hans
      exact ⟨done, heq, hans, hkept.settle hisAnswer⟩
    | true =>
      rw [filter_cons_of_pos hisAnswer] at hans
      cases hans with
      | cons hanswer hans =>
        rw [heq] at hkept ⊢
        exact ⟨_, rfl, hans, hkept.settle_answer hanswer⟩
  exact {
    phase := ⟨fun _ => ⟨hreply, (h.phase.idle hidle).2⟩, fun hwaits => absurd hidle hwaits⟩
    kept := by
      rw [heff']
      exact hkept'
    aligned := ⟨done', heq', hans'⟩
    ordered := by
      rw [heff']
      exact @Ordered.settleAll _ _ [message] hord
    awaits := by
      rw [heff']
      exact hawaits.settle
    agrees := by
      rw [heff']
      exact hagrees
    replays := hreplays.tail
    seeds := fun seed hmem => by
      rw [heff']
      obtain ⟨hle, hlt⟩ := hseeds seed (mem_cons_of_mem _ hmem)
      rcases settle_cases c.areaMap message with hreset | ⟨hseed, hsome, _, _⟩
      · rw [hreset]
        exact ⟨Nat.le_succ_of_le hle, fun _ => Nat.lt_succ_of_le hle⟩
      · rw [hseed]
        refine ⟨hle, fun hnone => hlt ?_⟩
        rw [hnone] at hsome
        exact not_isSome_iff_eq_none.mp (by rw [← hsome]; simp) }

/-- A clear reaches an unloaded map that has no change of its own outstanding. -/
theorem deliverUnloaded {rest : List AreaMapMessage} {newValue : Option WTFString} (h : c.Inv f)
    (hidle : c.waiting = none) (hunloaded : c.areaMap.storageMap = none)
    (hqueue : c.toAreaMap = .dispatchStorageEvent 0 none newValue :: rest)
    (hway : c.onTheirWay = []) (hown : ∀ m ∈ rest, m.isOwnEvent = false) :
    Inv { c with
      areaMap := { c.areaMap with storageMap := some (.create c.areaMap.quotaInBytes) }
      toAreaMap := rest } f := by
  have hreply := (h.phase.idle hidle).1
  have heff := effective_of_reply hreply
  have heff' : effective { c with
      areaMap := { c.areaMap with storageMap := some (.create c.areaMap.quotaInBytes) }
      toAreaMap := rest } =
      { c.areaMap with storageMap := some (.create c.areaMap.quotaInBytes) } :=
    effective_of_reply hreply
  have hold := h.old_answers (by rw [heff]; exact hunloaded)
  have hkept := h.kept
  have hseeds := h.seeds
  obtain ⟨done, heq, hans⟩ := h.aligned
  rw [heff] at hold hkept hseeds
  rw [hqueue] at hold hans hseeds
  obtain ⟨hpend, hclear, hvalues, _⟩ := hkept.unloaded hunloaded
  exact {
    phase := ⟨fun _ => ⟨hreply, (h.phase.idle hidle).2⟩, fun hwaits => absurd hidle hwaits⟩
    kept := by
      rw [heff']
      exact hkept.load hunloaded _ c.areaMap.hasPendingGetValues
    aligned := ⟨done, heq, hans⟩
    ordered := fun _ => .inl fun u hu => by
      change u ∈ c.onTheirWay at hu
      rw [hway] at hu
      cases hu
    awaits := by
      rw [heff']
      intro hpend
      exact absurd (hvalues.symm.trans hpend) Bool.false_ne_true
    agrees := by
      rw [heff']
      have hfollows := @settleAll_replay
        { c.areaMap with storageMap := some (.create c.areaMap.quotaInBytes) }
        (.create c.areaMap.quotaInBytes) rest rfl hpend hclear hvalues hown
        fun m hm => hold m (mem_cons_of_mem _ hm)
      intro storageMap hsettled key _
      rcases hfollows with hnone | ⟨hnot, storageMap', hsome, hget⟩
      · rw [hsettled] at hnone
        cases hnone
      · rw [hsettled, some.injEq] at hsome
        rw [h.replays [] 0 newValue rest hqueue hnot, hsome]
        exact congrFun hget key
    replays := by
      have hreplays := h.replays
      rw [hqueue] at hreplays
      exact hreplays.tail
    seeds := fun seed hmem => by
      rw [heff']
      exact ⟨(hseeds seed (mem_cons_of_mem _ hmem)).1, fun hnone => by cases hnone⟩ }

theorem deliver (h : c.Inv f) (hsafe : c.ClearIsSafe) (hdeliver : c.deliver = some c') :
    c'.Inv f := by
  unfold Connection.deliver at hdeliver
  split at hdeliver
  · cases hdeliver
  · rename_i hwaiting
    have hidle : c.waiting = none := not_isSome_iff_eq_none.mp hwaiting
    split at hdeliver
    · cases hdeliver
    · rename_i message rest hqueue
      cases hdeliver
      have hsettled := h.deliverSettled hidle hqueue
      by_cases happl : c.areaMap.AppliesClear message
      · obtain ⟨⟨newValue, rfl⟩, hclear, hvalues⟩ := happl
        have hsafe := hsafe newValue rest hqueue hclear hvalues
        cases hmap : c.areaMap.storageMap with
        | none =>
          rw [hmap] at hsafe
          have hunloaded := h.deliverUnloaded hidle hmap hqueue hsafe.1 hsafe.2
          have hhandle : c.areaMap.handle (.dispatchStorageEvent 0 none newValue) =
              { c.areaMap with storageMap := some (.create c.areaMap.quotaInBytes) } := by
            unfold StorageAreaMap.handle dispatchStorageEvent applyChange applyClear
            simp [hclear, hvalues, hmap]
          rw [hhandle]
          exact hunloaded
        | some storageMap =>
          rw [hmap] at hsafe
          rw [handle_eq_settle hmap hsafe]
          exact hsettled
      · rw [handle_eq_settle_of_not happl]
        exact hsettled

/-! ## Local calls -/

theorem changed {areaMap : StorageAreaMap} {requests : List ManagerMessage} (h : c.Inv f)
    (hidle : c.waiting = none) (hvalues : ∀ seed, .getValues seed ∉ requests)
    (hkept : areaMap.Kept (c.unanswered ++ requests.filterMap sent))
    (hseed : ∀ u ∈ requests.filterMap sent, u.seed = c.areaMap.currentSeed)
    (hagree : AgreeOn (fun key => lastValue ((requests.filterMap sent).map
      (·.change)) key = none) c.areaMap areaMap) :
    Inv { c with
      areaMap := areaMap
      toManager := c.toManager ++ requests
      unanswered := c.unanswered ++ requests.filterMap sent } f := by
  have hreply := (h.phase.idle hidle).1
  have heff := effective_of_reply hreply
  have heff' : effective { c with
      areaMap := areaMap
      toManager := c.toManager ++ requests
      unanswered := c.unanswered ++ requests.filterMap sent } = areaMap :=
    effective_of_reply hreply
  have hway : onTheirWay { c with
      areaMap := areaMap
      toManager := c.toManager ++ requests
      unanswered := c.unanswered ++ requests.filterMap sent } =
      c.onTheirWay ++ requests.filterMap sent := filterMap_append
  obtain ⟨done, heq, hans⟩ := h.aligned
  have hord := h.ordered
  have hawaits := h.awaits
  have hagrees := h.agrees
  have hseeds := h.seeds
  rw [heff] at hord hawaits hagrees hseeds
  exact {
    phase := by
      refine ⟨fun _ => ⟨hreply, fun seed hmem => ?_⟩, fun hwaits => absurd hidle hwaits⟩
      rcases mem_append.mp hmem with hmem | hmem
      · exact (h.phase.idle hidle).2 seed hmem
      · exact hvalues seed hmem
    kept := by
      rw [heff']
      exact hkept
    aligned := ⟨done, by rw [hway, ← append_assoc, ← heq], hans⟩
    ordered := by
      rw [heff', hway]
      intro hloaded
      rw [← hagree.seed, currentChanges_append]
      rcases hord (mt hagree.storageMap_eq_none.mp hloaded) with hall | hclear
      · refine .inl fun u hu => ?_
        rcases mem_append.mp hu with hu | hu
        · exact hall u hu
        · exact hseed u hu
      · exact .inr (mem_append_left _ hclear)
    awaits := by
      rw [heff']
      intro hpend
      rw [← hagree.seed]
      exact hawaits (hagree.values.trans hpend)
    agrees := by
      rw [heff', hway, map_append]
      refine (hagree.settleAll c.toAreaMap).agrees (fun storageMap hmap key hkey => ?_)
        fun key hkey => ?_
      · exact hagrees storageMap hmap key (lastValue_of_append hkey).1
      · exact (lastValue_of_append hkey).2
    replays := h.replays
    seeds := fun seed hmem => by
      rw [heff', ← hagree.seed]
      exact ⟨(hseeds seed hmem).1, fun hnone =>
        (hseeds seed hmem).2 (hagree.storageMap_eq_none.mpr hnone)⟩ }

theorem unchanged {areaMap : StorageAreaMap} (h : c.Inv f) (hidle : c.waiting = none)
    (hkept : areaMap.Kept c.unanswered) (hagree : AgreeOn (fun _ => True) c.areaMap areaMap) :
    Inv { c with areaMap := areaMap } f := by
  have hchanged := @changed c f areaMap [] h hidle (fun _ => not_mem_nil)
    (by rw [filterMap_nil, append_nil]; exact hkept) (fun _ hu => by cases hu)
    ⟨hagree.seed, hagree.clear, hagree.values, fun k _ => hagree.pending k trivial, ?_⟩
  · rw [filterMap_nil, append_nil, append_nil] at hchanged
    exact hchanged
  · have hitems := hagree.items
    simpa using hitems

theorem makeChange {storageMap : StorageMap} {key : WTFString} {result : StorageAreaMap × Option ManagerMessage} (h : c.Inv f)
    (hidle : c.waiting = none) (hmap : c.areaMap.storageMap = some storageMap)
    (hsent : request.sent = some u) (hseed : u.seed = c.areaMap.currentSeed)
    (habout : ∀ k, u.change.isAbout k = decide (key = k)) (hclear : u.change.isClear = false)
    (hnull : ∀ key, u.change ≠ .set key none)
    (hmakes : MakesChange c.areaMap storageMap key request u.change result) :
    (c.sendIfSome result.1 result.2).Inv f := by
  have hkept := h.kept
  rw [effective_of_reply (h.phase.idle hidle).1] at hkept
  rcases hmakes with ⟨storageMap', rfl, hget⟩ | ⟨storageMap', rfl, hget⟩
  · refine h.unchanged hidle ?_ ⟨rfl, rfl, rfl, fun _ _ => rfl, ?_⟩
    · refine hkept.setItems fun k value hvalue => ?_
      rw [hget, hkept.shows storageMap hmap k value hvalue]
    · rw [hmap]
      exact .some fun k _ => (hget k).symm
  · have hsents : [request].filterMap sent = [u] := by
      rw [filterMap_cons_some hsent, filterMap_nil]
    refine h.changed hidle ?_ ?_ ?_ ⟨rfl, rfl, rfl, fun k hk => ?_, ?_⟩
    · intro seed hmem
      rw [← mem_singleton.mp hmem] at hsent
      cases hsent
    · rw [hsents]
      exact hkept.change hmap hseed habout hclear hnull hget
    · rw [hsents]
      intro v hv
      rw [mem_singleton.mp hv, hseed]
    · rw [hsents, map_singleton, lastValue_eq_none] at hk
      have hne := Change.isAbout_eq_false (hk _ mem_cons_self)
      rw [habout, decide_eq_false_iff_not] at hne
      exact (count_cons_of_ne hne).symm
    · rw [hmap]
      refine .some fun k hk => ?_
      rw [hsents, map_singleton, lastValue_eq_none] at hk
      rw [hget, Change.apply_of_none _ (hk _ mem_cons_self)]

theorem clear (h : c.Inv f) (hidle : c.waiting = none) (id : ℕ+) : (c.clear id).Inv f := by
  have hreply := (h.phase.idle hidle).1
  have heff := effective_of_reply hreply
  have heff' : (c.clear id).effective = (c.areaMap.clear id).1 := effective_of_reply hreply
  have hway : (c.clear id).onTheirWay =
      c.onTheirWay ++ [⟨c.areaMap.currentSeed + 1, .clear⟩] := filterMap_append
  obtain ⟨done, heq, hans⟩ := h.aligned
  have hkept := h.kept
  have hseeds := h.seeds
  rw [heff] at hkept hseeds
  exact {
    phase := by
      refine ⟨fun _ => ⟨hreply, fun seed hmem => ?_⟩, fun hwaits => absurd hidle hwaits⟩
      rcases mem_append.mp hmem with hmem | hmem
      · exact (h.phase.idle hidle).2 seed hmem
      · cases mem_singleton.mp hmem
    kept := by
      rw [heff']
      exact hkept.clear id
    aligned := ⟨done, by rw [hway, ← append_assoc, ← heq]; rfl, hans⟩
    ordered := by
      rw [heff', hway]
      intro _
      refine .inr ?_
      rw [currentChanges_append]
      refine mem_append_right _ ?_
      have hseed : (⟨c.areaMap.currentSeed + 1, .clear⟩ : SentChange).seed =
          (c.areaMap.clear id).1.currentSeed := rfl
      rw [currentChanges_cons_of_eq hseed]
      exact mem_cons_self
    awaits := by
      rw [heff']
      intro hpend
      cases hpend
    agrees := by
      rw [hway, map_append]
      intro storageMap _ key hkey
      exact absurd (lastValue_of_append hkey).2 (by simp [lastValue])
    replays := h.replays
    seeds := fun seed hmem => by
      rw [heff']
      exact ⟨Nat.le_succ_of_le (hseeds seed hmem).1, fun hnone => by cases hnone⟩ }

theorem loadAndPerform (h : c.Inv f) (hidle : c.waiting = none) (call : LocalCall)
    (hnull : ∀ storageMap, c.areaMap.storageMap = some storageMap →
      ¬ call.RemovesNull storageMap.items) : (c.loadAndPerform call).Inv f := by
  unfold Connection.loadAndPerform
  have hreply := (h.phase.idle hidle).1
  split
  · rename_i storageMap hmap
    cases call with
    | read => exact h
    | setItem id key value =>
      exact h.makeChange hidle hmap (u := ⟨_, .set key (some value)⟩) rfl rfl (fun k => rfl) rfl
        (by simp) (makesChange_setItem _ storageMap id key value)
    | removeItem id key =>
      exact h.makeChange hidle hmap (u := ⟨_, .remove key⟩) rfl rfl (fun k => rfl) rfl (by simp)
        (makesChange_removeItem _ id fun hget => hnull storageMap hmap ⟨id, key, rfl, hget⟩)
    | clear id => exact h.clear hidle id
  · rename_i hunloaded
    have hway : onTheirWay (send { c with waiting := some call } c.areaMap
        (.getValues c.areaMap.currentSeed)) = c.onTheirWay := by
      unfold onTheirWay send
      rw [filterMap_append]
      exact append_nil _
    have hsent : (send { c with waiting := some call } c.areaMap
        (.getValues c.areaMap.currentSeed)).unanswered = c.unanswered := append_nil _
    have heff : (send { c with waiting := some call } c.areaMap
        (.getValues c.areaMap.currentSeed)).effective = c.effective := by
      unfold effective send
      rw [hreply]
    obtain ⟨done, heq, hans⟩ := h.aligned
    exact {
      phase := ⟨fun hidle' => (by cases hidle'), fun _ => ⟨hunloaded,
        .inl ⟨hreply, c.toManager, rfl, (h.phase.idle hidle).2⟩⟩⟩
      kept := by
        rw [heff, hsent]
        exact h.kept
      aligned := ⟨done, by rw [hway, hsent]; exact heq, hans⟩
      ordered := by
        rw [heff, hway]
        exact h.ordered
      awaits := by
        exact h.awaits
      agrees := by
        rw [heff, hway]
        exact h.agrees
      replays := h.replays
      seeds := by
        exact h.seeds }

theorem call (h : c.Inv f) {call : LocalCall}
    (hnull : ∀ storageMap, c.areaMap.storageMap = some storageMap →
      ¬ call.RemovesNull storageMap.items) (hcall : c.call call = some c') : c'.Inv f := by
  unfold Connection.call at hcall
  split at hcall
  · cases hcall
  · rename_i hwaiting
    have hidle : c.waiting = none := not_isSome_iff_eq_none.mp hwaiting
    split at hcall
    · cases hcall
      exact h.clear hidle _
    · cases hcall
      exact h.loadAndPerform hidle _ hnull

theorem receiveReply (h : c.Inv f)
    (hnull : ∀ call values, c.waiting = some call → c.reply = some values →
      ¬ call.RemovesNull values) (hrecv : c.receiveReply = some c') : c'.Inv f := by
  unfold Connection.receiveReply at hrecv
  split at hrecv
  · rename_i call values hwaiting hreply
    cases hrecv
    have hwaits : c.waiting ≠ none := by
      rw [hwaiting]
      exact some_ne_none _
    have hnil : c.toManager = [] := by
      rcases (h.phase.waits hwaits).2 with ⟨hnone, _⟩ | ⟨_, hnil⟩
      · rw [hreply] at hnone
        cases hnone
      · exact hnil
    have heff : c.effective = c.areaMap.importValues values := by
      unfold effective
      rw [hreply]
    have hloaded : Inv { c with
        areaMap := c.areaMap.importValues values, waiting := none, reply := none } f := {
      phase := ⟨fun _ => ⟨rfl, fun seed hmem => by
        rw [hnil] at hmem
        cases hmem⟩, fun hwaits => absurd rfl hwaits⟩
      kept := heff ▸ h.kept
      aligned := h.aligned
      ordered := heff ▸ h.ordered
      awaits := heff ▸ h.awaits
      agrees := heff ▸ h.agrees
      replays := h.replays
      seeds := heff ▸ h.seeds }
    refine hloaded.loadAndPerform rfl call fun storageMap hmap hremoves => ?_
    obtain ⟨id, key, rfl, hget⟩ := hremoves
    cases hmap
    rw [StorageMap.lookup_importItems] at hget
    exact hnull _ values hwaiting hreply ⟨id, key, rfl, hget⟩
  · cases hrecv

end Inv

end Connection

/-!
## The maps converge

Every step that meets `Harmless` keeps the invariant of every connection (`inv_step`), so
after a run of such steps the system is `Sound` (`storage_converges`): a loaded map on a
quiet connection has the area's items, and every change shows in its own map while it is
pending. A step that does not meet `Harmless` is a clear that throws a pending value away or
turns an unloaded map with changes of its own into an empty one, or a removal of a key with a
null value, which is neither sent nor reported. `not_sound` is a run in which a clear throws
a pending value away.
-/

open Replica StorageAreaMap Transition

namespace StorageSystem

variable {ι : Type*} {s t : StorageSystem ι} {l : StorageStep ι}

/-- The step loses nothing: no key with a null value is removed, and a clear that is
delivered meets `ClearIsSafe`. -/
def Harmless (s : StorageSystem ι) : StorageStep ι → Prop
  | .call i call => ∀ storageMap, (s.connections i).areaMap.storageMap = some storageMap →
      ¬ call.RemovesNull storageMap.items
  | .receiveReply i => ∀ call values, (s.connections i).waiting = some call →
      (s.connections i).reply = some values → ¬ call.RemovesNull values
  | .deliver i => (s.connections i).ClearIsSafe
  | .handle i => ∀ message rest, (s.connections i).toManager = message :: rest →
      ¬ StorageManager.RemovesNull s.area.items message
  | .clearCache => True

def Inv (s : StorageSystem ι) : Prop := ∀ i, (s.connections i).Inv s.area.items.lookup

section

variable [DecidableEq ι]

theorem inv_setConnection (h : s.Inv) {i : ι} {c : Connection}
    (hc : c.Inv s.area.items.lookup) : (s.setConnection i c).Inv := by
  intro j
  unfold setConnection
  dsimp only
  by_cases hj : j = i
  · subst hj
    rw [Function.update_self]
    exact hc
  · rw [Function.update_of_ne hj]
    exact h j

theorem inv_handle {i : ι} (h : s.Inv)
    (hnull : ∀ message rest, (s.connections i).toManager = message :: rest →
      ¬ StorageManager.RemovesNull s.area.items message)
    (hhandle : s.handle i = some t) : t.Inv := by
  unfold handle at hhandle
  split at hhandle
  · cases hhandle
  · rename_i message rest hman
    cases hhandle
    intro j
    dsimp only
    cases hsent : message.sent with
    | none =>
      cases message with
      | getValues seed =>
        have hitems : (StorageManager.handle s.area (.getValues seed)).area.items =
            s.area.items := s.area.items_open
        rw [hitems]
        split
        · rename_i hj
          subst hj
          exact (h j).answeredValues hman
        · exact (h j).notified (.inl ⟨rfl, rfl⟩)
      | setItem id seed key value => cases hsent
      | removeItem id seed key => cases hsent
      | clear id seed => cases hsent
    | some u =>
      have hcarried := StorageManager.handle_change hsent (hnull message rest hman)
      split
      · rename_i hj
        subst hj
        exact (h j).answered hman hsent hcarried
      · refine (h j).notified ?_
        rcases hcarried.event with ⟨hevent, hitems⟩ | ⟨event, hevent, hchange, hitems⟩
        · exact .inl ⟨hevent, hitems⟩
        · exact .inr ⟨event, hevent, by rw [hchange]; exact hitems⟩

theorem inv_step (h : s.Inv) (hharmless : s.Harmless l) (hstep : s.Step l t) : t.Inv := by
  cases l with
  | call i call =>
    obtain ⟨c, hc, rfl⟩ := map_eq_some_iff.mp hstep
    exact inv_setConnection h ((h i).call hharmless hc)
  | receiveReply i =>
    obtain ⟨c, hc, rfl⟩ := map_eq_some_iff.mp hstep
    exact inv_setConnection h ((h i).receiveReply hharmless hc)
  | deliver i =>
    obtain ⟨c, hc, rfl⟩ := map_eq_some_iff.mp hstep
    exact inv_setConnection h ((h i).deliver hharmless hc)
  | handle i => exact inv_handle h hharmless hstep
  | clearCache =>
    cases hstep
    exact fun i => (h i).cacheCleared _

theorem inv_run {labels : List (StorageStep ι)} {quota : ι → UInt32}
    (hrun : Run (guarded Step Harmless) (initial area quota) labels s) : s.Inv :=
  hrun.preserves (I := Inv) (fun _ _ _ h hstep => inv_step h hstep.1 hstep.2)
    fun i => inv_create (quota i) _

end

variable {i : ι} {storageMap : StorageMap} {u : SentChange} {earlier later : List SentChange}

section

variable (h : s.Inv) (hmap : (s.connections i).areaMap.storageMap = some storageMap)
include h hmap

theorem Inv.effective_loaded : (s.connections i).effective = (s.connections i).areaMap := by
  refine effective_of_reply ?_
  by_cases hidle : (s.connections i).waiting = none
  · exact ((h i).phase.idle hidle).1
  · have hunloaded := ((h i).phase.waits hidle).1
    rw [hmap] at hunloaded
    cases hunloaded

theorem Inv.keepsPending (hsplit : (s.connections i).unanswered = earlier ++ u :: later)
    (hseed : u.seed = (s.connections i).areaMap.currentSeed) : Shows storageMap u later := by
  intro key value hvalue hlast
  have hkept := (h i).kept
  rw [h.effective_loaded hmap, hsplit] at hkept
  refine hkept.shows storageMap hmap key value ?_
  rw [currentChanges_append, currentChanges_cons_of_eq hseed]
  refine lastValue_of_last hvalue fun c hc => ?_
  obtain ⟨w, hw, rfl⟩ := mem_map.mp (mem_of_mem_currentChanges hc)
  exact hlast w hw

theorem Inv.keepsSent (hsplit : (s.connections i).onTheirWay = earlier ++ u :: later) :
    Shows storageMap u later := by
  obtain ⟨done, heq, -⟩ := (h i).aligned
  rw [hsplit, ← append_assoc] at heq
  by_cases hseed : u.seed = (s.connections i).areaMap.currentSeed
  · exact h.keepsPending hmap heq hseed
  -- a clear was sent after a change under an older seed
  intro key value _ hlast
  have hord := (h i).ordered
  have hkept := (h i).kept
  rw [h.effective_loaded hmap] at hord hkept
  have hmem : u ∈ (s.connections i).onTheirWay := by
    rw [hsplit]
    exact mem_append_right _ mem_cons_self
  rcases hord (by rw [hmap]; exact some_ne_none _) with hall | hclear
  · exact absurd (hall u hmem) hseed
  · obtain ⟨w, hw, hwclear⟩ := mem_map.mp hclear
    obtain ⟨hw, hwseed⟩ := mem_filter.mp hw
    have hwseed : w.seed = (s.connections i).areaMap.currentSeed := by simpa using hwseed
    rw [hsplit] at hw
    have hsorted := hkept.sorted
    have hule := hkept.le u (by rw [heq]; exact mem_append_right _ mem_cons_self)
    rw [heq, append_assoc] at hsorted
    have hsorted := pairwise_append.mp (pairwise_append.mp hsorted).2.1
    rcases mem_append.mp hw with hw | hw
    · have hle := hsorted.2.2 w hw u mem_cons_self
      omega
    · rcases mem_cons.mp hw with rfl | hw
      · exact absurd hwseed hseed
      · have hnone := hlast w hw
        rw [hwclear] at hnone
        cases hnone

end

theorem Inv.sound (h : s.Inv) : s.Sound where
  converged i storageMap hmap hquiet key := by
    have hagrees := (h i).agrees
    rw [h.effective_loaded hmap, hquiet.2.1, onTheirWay, hquiet.1] at hagrees
    exact hagrees storageMap hmap key rfl
  keepsPending _ _ hmap _ _ _ hsplit hseed := h.keepsPending hmap hsplit hseed
  keepsSent _ _ hmap _ _ _ hsplit := h.keepsSent hmap hsplit

/-- A local storage area with nothing in it. -/
def emptyArea : StorageArea := ⟨true, [], false, 100, .create 100⟩

/-- While the item `[99]` is pending in the first map, the clear of the second map arrives. -/
def clearWhilePending : List (StorageStep Bool) :=
  [.call false (.setItem 1 [97] [98]), .handle false, .receiveReply false, .handle false,
    .deliver false, .deliver false, .deliver false, .call true (.clear 1),
    .call false (.setItem 1 [99] [100]), .handle true, .deliver false]

theorem pending_value_lost :
    (clearWhilePending.foldlM step (initial emptyArea fun _ => 100)).map (fun s =>
      ((s.connections false).areaMap.storageMap.map (·.items.lookup [99]),
        (s.connections false).unanswered, (s.connections false).areaMap.currentSeed)) =
      some (some (some none), [⟨0, .set [99] (some [100])⟩], 0) := by
  decide +kernel

end StorageSystem

end WebKit.Storage
