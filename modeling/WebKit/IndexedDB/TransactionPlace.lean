import WebKit.IndexedDB.TransactionCoordinator

/-!
# The place of a transaction

Seen from one transaction the coordinator has four places: the transaction is registered,
queued, started, or released, that is, in none of the collections any more. `Consistent`
says which fields a transaction may have in its place, and how its queues relate to what it
was asked and did. `consistent_of_step` is the step lemma: an event that is enabled moves
the transaction along with the one call it makes to the coordinator, and keeps the fields
consistent with the new place. The condition on `commit` is needed here: a commit that goes
through before the transaction was started releases `m_database` without telling the
coordinator.
-/

namespace WebKit.IndexedDB

open Function List TransactionBackend History Call

/-- Where the coordinator has a transaction. -/
inductive Place
  | registered
  | queued
  | started
  | released
  deriving DecidableEq, Repr

/-- The states a transaction may be in. -/
def Place.Allows : Place → TransactionState → Prop
  | registered, state => state = .unopened ∨ state = .unused
  | queued, state => state = .startPending ∨ state = .finished
  | started, state => state = .startPending ∨ state = .running ∨ state = .finished
  | released, state => state = .finished ∨ state = .unused

/-- A transaction in its place, with what is outstanding and what it did. -/
structure Consistent (t : TransactionSystem) (h : History) (p : Place) : Prop where
  allows : p.Allows t.backend.state
  database : t.backend.database = false ↔ p = .released
  finished : h.finished = true ↔ p = .released
  timer : t.backend.taskTimerIsActive = true → (p = .started ∨ p = .released) ∧
    t.openReplyPending = false ∧ t.backend.state ≠ .unused
  flight : t.tasksInFlight ≠ [] → (p = .started ∨ p = .released) ∧
    t.openReplyPending = false ∧ t.backend.state ≠ .unused
  opening : t.openReplyPending = true →
    (p = .registered ∨ p = .released) ∧ t.backend.state ≠ .unused
  committing : t.commitReplies ≠ [] → t.backend.state = .finished ∧ t.openReplyPending = false
  captured : true ∉ t.commitReplies
  tasks : h.scheduled = h.performed ++ t.backend.taskQueue
  aborting : h.aborted = false → h.abortPerformed = [] ∧
    t.backend.abortTaskQueue = h.abortScheduled.reverse
  aborted : h.aborted = true → p = .released ∧ h.abortPerformed = h.abortScheduled.reverse

/-- The calls the coordinator receives. -/
def Call.coordinated? : Call → Bool
  | .didStartTransaction | .didFinishTransaction => true
  | _ => false

/-- The commit a call asks the server for. -/
def Call.committed? : Call → Option Bool
  | .commitTransaction unused => some unused
  | _ => none

/-- The calls of one method move the transaction from one place to the other. -/
inductive Move : Place → Place → List Call → Prop
  | stay {p : Place} {calls : List Call} (h : calls.filter coordinated? = []) :
      Move p p calls
  | queue {calls : List Call} (h : calls.filter coordinated? = [.didStartTransaction]) :
      Move .registered .queued calls
  | release {p : Place} {calls : List Call} (hp : p ≠ .released)
      (h : calls.filter coordinated? = [.didFinishTransaction]) : Move p .released calls

namespace TransactionSystem

variable (t : TransactionSystem) (calls : List Call)

@[simp] theorem foldl_absorb_openReplyPending :
    (calls.foldl absorb t).openReplyPending = t.openReplyPending := by
  induction calls generalizing t with
  | nil => rfl
  | cons c calls ih =>
    rw [foldl_cons, ih]
    cases c <;> rfl

@[simp] theorem foldl_absorb_tasksInFlight : (calls.foldl absorb t).tasksInFlight =
      (calls.filterMap performedTask?).reverse ++ t.tasksInFlight := by
  induction calls generalizing t with
  | nil => rfl
  | cons c calls ih =>
    rw [foldl_cons, ih]
    cases c <;> simp [absorb, performedTask?, filterMap_cons]

@[simp] theorem foldl_absorb_commitReplies : (calls.foldl absorb t).commitReplies =
      (calls.filterMap committed?).reverse ++ t.commitReplies := by
  induction calls generalizing t with
  | nil => rfl
  | cons c calls ih =>
    rw [foldl_cons, ih]
    cases c <;> simp [absorb, committed?, filterMap_cons]

theorem foldl_absorb_with_backend (b : TransactionBackend) :
    calls.foldl absorb { t with backend := b } = { calls.foldl absorb t with backend := b } := by
  induction calls generalizing t with
  | nil => rfl
  | cons c calls ih =>
    rw [foldl_cons, foldl_cons, ← ih]
    cases c <;> rfl

end TransactionSystem

/-! ## One method at a time -/

/-- The method leaves the fields `b` and makes these calls; the transaction is consistent
with the place it moves to, and it performed a task only if it was started. -/
def Advances (t : TransactionSystem) (h : History) (p : Place) (b : TransactionBackend)
    (calls : List Call) : Prop :=
  ∃ q, Move p q calls ∧
    Consistent (calls.foldl .absorb { t with backend := b }) (h.perform t.backend calls) q ∧
    ∀ task, Call.perform task ∈ calls → p = .started

@[simp] theorem History.perform_nil (h : History) (b : TransactionBackend) :
    h.perform b [] = h := by
  simp [perform]

theorem History.perform_congr {b b' : TransactionBackend}
    (hb : b.pendingPreemptiveEvents = b'.pendingPreemptiveEvents) (h : History)
    (calls : List Call) : h.perform b calls = h.perform b' calls := by
  unfold perform
  rw [hb]

namespace Consistent

variable {t : TransactionSystem} {h : History} {p : Place} {b : TransactionBackend}
  {calls : List Call}

theorem database_eq_true (hc : Consistent t h p) (hp : p ≠ .released) :
    t.backend.database = true := by
  by_contra hdb
  exact hp (hc.database.mp (by simpa using hdb))

theorem idle (hc : Consistent t h p) (hp : p = .registered ∨ p = .queued) :
    t.backend.taskTimerIsActive = false ∧ t.tasksInFlight = [] := by
  constructor
  · by_contra ht
    have := (hc.timer (by simpa using ht)).1
    rcases hp with rfl | rfl <;> simp at this
  · by_contra hf
    have := (hc.flight hf).1
    rcases hp with rfl | rfl <;> simp at this

theorem registered_of_unused (hc : Consistent t h p) (hs : t.backend.state = .unused)
    (hdb : t.backend.database = true) : p = .registered := by
  have hallow := hc.allows
  rw [hs] at hallow
  cases p with
  | registered => rfl
  | released => simp [hc.database.mpr rfl] at hdb
  | queued | started => simp [Place.Allows] at hallow

theorem advances_silent (hc : Consistent t h p) (hstate : b.state = t.backend.state)
    (hdb : b.database = t.backend.database) (htasks : b.taskQueue = t.backend.taskQueue)
    (haborts : b.abortTaskQueue = t.backend.abortTaskQueue)
    (htimer : b.taskTimerIsActive = true → (p = .started ∨ p = .released) ∧
      t.openReplyPending = false ∧ t.backend.state ≠ .unused) : Advances t h p b [] := by
  refine ⟨p, .stay rfl, ?_, by simp⟩
  rw [History.perform_nil]
  rw [← hstate] at htimer
  refine ⟨?_, ?_, hc.finished, htimer, ?_, ?_, ?_, hc.captured, ?_, ?_, hc.aborted⟩
  · exact hstate ▸ hc.allows
  · exact hdb ▸ hc.database
  · exact hstate ▸ hc.flight
  · exact hstate ▸ hc.opening
  · exact hstate ▸ hc.committing
  · exact htasks ▸ hc.tasks
  · exact haborts ▸ hc.aborting

theorem advances_start (hc : Consistent t h p) (hs : t.backend.state = .unused)
    (hstart : t.backend.start = some (b, calls)) : Advances t h p b calls := by
  unfold TransactionBackend.start at hstart
  split at hstart
  · rename_i hdb
    cases hstart
    obtain rfl := hc.registered_of_unused hs hdb
    obtain ⟨htimer, hflight⟩ := hc.idle (.inl rfl)
    have hopen : t.openReplyPending = false := by
      by_contra ho
      exact (hc.opening (by simpa using ho)).2 hs
    have hreplies : t.commitReplies = [] := by
      by_contra hr
      have := (hc.committing hr).1
      rw [hs] at this
      cases this
    have hfin := hc.finished
    have htasks := hc.tasks
    have habort := hc.aborting
    have haborted := hc.aborted
    refine ⟨.queued, .queue rfl, ?_, by simp⟩
    constructor <;> simp_all [-foldl_cons, Place.Allows, History.perform,
      Call.performedTask?, Call.performedAbort?, Call.committed?]
  · cases hstart

/-- A method that finishes the transaction and releases `m_database` performs no task and
asks for no commit. -/
theorem advances_finish (hc : Consistent t h p) (hp : p ≠ .released)
    (hstate : b.state = .finished) (hdb : b.database = false)
    (htimer : b.taskTimerIsActive = true → t.openReplyPending = false)
    (htasks : b.taskQueue = t.backend.taskQueue)
    (hcoordinated : calls.filter Call.coordinated? = [.didFinishTransaction])
    (hperf : calls.filterMap Call.performedTask? = [])
    (hcommit : calls.filterMap Call.committed? = [])
    (hfin : Call.transactionFinished ∈ calls)
    (hreplies : t.commitReplies ≠ [] → t.openReplyPending = false)
    (hendAborted : Call.resetTransactionSync ∈ calls →
      calls.filterMap Call.performedAbort? = t.backend.abortTaskQueue)
    (hendCommitted : Call.resetTransactionSync ∉ calls →
      calls.filterMap Call.performedAbort? = [] ∧ b.abortTaskQueue = t.backend.abortTaskQueue) :
    Advances t h p b calls := by
  have hnot : h.aborted = false := by
    by_contra ha
    exact hp (hc.aborted (by simpa using ha)).1
  obtain ⟨hnone, hqueue⟩ := hc.aborting hnot
  refine ⟨.released, .release hp hcoordinated, ?_, ?_⟩
  · constructor
    · simp [Place.Allows, hstate]
    · simp [hdb]
    · simp [History.perform, hfin]
    · intro ht
      simp only [TransactionSystem.foldl_absorb_backend] at ht ⊢
      simp [htimer ht, hstate]
    · intro hf
      simp only [TransactionSystem.foldl_absorb_tasksInFlight, hperf] at hf
      simp [(hc.flight hf).2.1, hstate]
    · simp [hstate]
    · intro hr
      simp only [TransactionSystem.foldl_absorb_commitReplies, hcommit] at hr
      simp [hstate, hreplies hr]
    · simp [hcommit, hc.captured]
    · simp [History.perform, hperf, htasks, hc.tasks]
    · intro ha
      have hr : Call.resetTransactionSync ∉ calls := by
        simpa [History.perform, hnot] using ha
      simp [History.perform, hendCommitted hr, hnone, hqueue]
    · intro ha
      have hr : Call.resetTransactionSync ∈ calls := by
        simpa [History.perform, hnot] using ha
      simp [History.perform, hendAborted hr, hnone, hqueue]
  · intro task hmem
    have : task ∈ calls.filterMap Call.performedTask? := mem_filterMap.mpr ⟨_, hmem, rfl⟩
    rw [hperf] at this
    cases this

theorem advances_abort (hc : Consistent t h p) (habort : t.backend.abort = some (b, calls)) :
    Advances t h p b calls := by
  unfold TransactionBackend.abort at habort
  split at habort
  · cases habort
    exact hc.advances_silent rfl rfl rfl rfl hc.timer
  · rename_i hs
    split at habort
    · rename_i hdb
      cases habort
      have hp : p ≠ .released := fun hp => by simp [hc.database.mpr hp] at hdb
      refine hc.advances_finish hp rfl rfl (by simp) rfl ?_ ?_ ?_ (by simp)
        (fun hr => absurd (hc.committing hr).1 hs) (fun _ => ?_) (by simp)
      · simp [filter_map, comp_def, Call.coordinated?, TransactionBackend.closeOpenCursors]
        split <;> rfl
      · simp [filterMap_map, comp_def, Call.performedTask?, TransactionBackend.closeOpenCursors]
      · simp [filterMap_map, comp_def, Call.committed?, TransactionBackend.closeOpenCursors]
      · simp [filterMap_map, comp_def, Call.performedAbort?, TransactionBackend.closeOpenCursors]
        split <;> simp [filterMap_cons, Call.performedAbort?]
    · cases habort

/-- A commit that goes through finds a transaction the coordinator has queued or started. -/
theorem advances_commit (hc : Consistent t h p)
    (hwait : t.backend.state = .unused ∨ t.backend.state = .unopened →
      t.backend.hasPendingTasks = true)
    (hcommit : t.backend.commit = some (b, calls)) : Advances t h p b calls := by
  unfold TransactionBackend.commit at hcommit
  split at hcommit
  · cases hcommit
    exact hc.advances_silent rfl rfl rfl rfl hc.timer
  · dsimp only at hcommit
    split at hcommit
    · cases hcommit
      exact hc.advances_silent rfl rfl rfl rfl hc.timer
    · rename_i hpend
      have hstarted : t.backend.state ≠ .unused ∧ t.backend.state ≠ .unopened := by
        constructor <;> intro hu
        · exact hpend (hwait (.inl hu))
        · exact hpend (hwait (.inr hu))
      split at hcommit
      · rename_i hdb
        cases hcommit
        have hallow := hc.allows
        have hp : p = .queued ∨ p = .started := by
          cases p with
          | queued => exact .inl rfl
          | started => exact .inr rfl
          | registered =>
            rcases hallow with hu | hu
            · exact absurd hu hstarted.2
            · exact absurd hu hstarted.1
          | released =>
            rw [hc.database.mpr rfl] at hdb
            cases hdb
        have hopen : t.openReplyPending = false := by
          by_contra ho
          have := (hc.opening (by simpa using ho)).1
          rcases hp with rfl | rfl <;> simp at this
        have hfin := hc.finished
        have htimer := hc.timer
        have hflight := hc.flight
        have htasks := hc.tasks
        have habort := hc.aborting
        have haborted := hc.aborted
        have hcaptured := hc.captured
        refine ⟨p, .stay rfl, ?_, by simp⟩
        rcases hp with rfl | rfl <;> constructor <;>
          simp_all [-foldl_cons, Place.Allows, History.perform, Call.performedTask?,
            Call.performedAbort?, Call.committed?]
      · cases hcommit

/-- The reply to a commit releases the transaction, unless it was released meanwhile. -/
theorem advances_didCommitTransaction (hc : Consistent t h p) {success : Bool}
    (hs : t.backend.state = .finished) (hopen : t.openReplyPending = false)
    (hcommit : t.backend.didCommitTransaction false success = some (b, calls)) :
    Advances t h p b calls := by
  unfold TransactionBackend.didCommitTransaction at hcommit
  split at hcommit
  · rename_i hdb
    cases hcommit
    have hp : p ≠ .released := fun hp => by simp [hc.database.mpr hp] at hdb
    refine hc.advances_finish hp hs rfl (fun _ => hopen) rfl ?_ ?_ ?_ (by simp) (fun _ => hopen)
      ?_ (fun _ => ⟨?_, rfl⟩)
    · simp [filter_map, comp_def, Call.coordinated?, TransactionBackend.closeOpenCursors]
      split <;> rfl
    · cases success <;> simp [filterMap_map, comp_def, Call.performedTask?,
        TransactionBackend.closeOpenCursors]
    · cases success <;> simp [filterMap_map, comp_def, Call.committed?,
        TransactionBackend.closeOpenCursors]
    · cases success <;> simp [TransactionBackend.closeOpenCursors]
    · cases success <;> simp [filterMap_map, comp_def, Call.performedAbort?,
        TransactionBackend.closeOpenCursors]
  · cases hcommit
    exact hc.advances_silent rfl rfl rfl rfl hc.timer

theorem stop_timer (hc : Consistent t h p) :
    Consistent { t with backend := { t.backend with taskTimerIsActive := false } } h p :=
  { hc with timer := by simp }

theorem restart_timer (hc : Consistent t h p)
    (hp : (p = .started ∨ p = .released) ∧ t.openReplyPending = false ∧ t.backend.state ≠ .unused) :
    Consistent { t with backend := { t.backend with taskTimerIsActive := true } } h p :=
  { hc with timer := fun _ => hp }

theorem begin_running (hc : Consistent t h .started) (hs : t.backend.state = .startPending) :
    Consistent { t with backend := { t.backend with state := .running } } h .started :=
  { hc with
    allows := by simp [Place.Allows]
    timer := fun ht => ⟨.inl rfl, (hc.timer ht).2.1, by simp⟩
    flight := fun hf => ⟨.inl rfl, (hc.flight hf).2.1, by simp⟩
    opening := fun ho => absurd (hc.opening ho).1 (by simp)
    committing := fun hr => by
      have := (hc.committing hr).1
      rw [hs] at this
      cases this }

theorem openReplyPending_of_started (hc : Consistent t h .started) :
    t.openReplyPending = false := by
  by_contra ho
  have := (hc.opening (by simpa using ho)).1
  simp at this

theorem state_of_started (hc : Consistent t h .started) :
    t.backend.state ≠ .unused ∧ t.backend.state ≠ .unopened := by
  have hallow := hc.allows
  rcases hallow with hs | hs | hs <;> rw [hs] <;> simp

theorem advances_performTask (hc : Consistent t h .started) {task : Operation}
    {rest : TransactionBackend} (hs : t.backend.state ≠ .finished)
    (htake : t.backend.takeTask = some (task, rest))
    (hperf : rest.performTask task = some (b, calls)) : Advances t h .started b calls := by
  have hb : calls = [.perform task] ∧ b.state = rest.state ∧ b.database = rest.database ∧
      b.taskTimerIsActive = rest.taskTimerIsActive ∧ b.taskQueue = rest.taskQueue ∧
      b.abortTaskQueue = rest.abortTaskQueue := by
    unfold TransactionBackend.performTask at hperf
    split at hperf <;> cases hperf
    exact ⟨rfl, rfl, rfl, rfl, rfl, rfl⟩
  have hrest : rest.state = t.backend.state ∧ rest.database = t.backend.database ∧
      rest.taskTimerIsActive = t.backend.taskTimerIsActive ∧
      rest.abortTaskQueue = t.backend.abortTaskQueue ∧
      t.backend.taskQueue =
        (if t.backend.pendingPreemptiveEvents = 0 then [task] else []) ++ rest.taskQueue := by
    unfold TransactionBackend.takeTask at htake
    split at htake <;> split at htake <;> cases htake <;> simp_all
  obtain ⟨rfl, hstate, hdb, htimer, hqueue, haborts⟩ := hb
  obtain ⟨hstate', hdb', htimer', haborts', hqueue'⟩ := hrest
  have hopen := hc.openReplyPending_of_started
  have hreplies : t.commitReplies = [] := by
    by_contra hr
    exact hs (hc.committing hr).1
  refine ⟨.started, .stay rfl, ?_, fun _ _ => rfl⟩
  constructor
  · simpa [hstate, hstate'] using hc.allows
  · simpa [hdb, hdb'] using hc.database
  · simpa [History.perform] using hc.finished
  · intro _
    simpa [TransactionSystem.absorb, hopen, hstate, hstate'] using hc.state_of_started.1
  · intro _
    simpa [TransactionSystem.absorb, hopen, hstate, hstate'] using hc.state_of_started.1
  · simp [TransactionSystem.absorb, hopen]
  · simp [TransactionSystem.absorb, hreplies]
  · simp [TransactionSystem.absorb, hreplies]
  · simp only [History.perform, TransactionSystem.foldl_absorb_backend, hqueue, hc.tasks,
      hqueue', append_assoc]
    rfl
  · intro ha
    have hnot : h.aborted = false := by simpa [History.perform] using ha
    simpa [History.perform, filterMap_cons, Call.performedAbort?, haborts, haborts'] using
      hc.aborting hnot
  · intro ha
    have hab : h.aborted = true := by simpa [History.perform] using ha
    exact absurd (hc.aborted hab).1 (by simp)

end Consistent

theorem Advances.beginning {t : TransactionSystem} {h : History} {p : Place}
    {b1 b : TransactionBackend} {begun calls : List Call}
    (hbegun : begun = [] ∨ begun = [.beginTransaction])
    (hpend : b1.pendingPreemptiveEvents = t.backend.pendingPreemptiveEvents)
    (ha : Advances { t with backend := b1 } h p b calls) : Advances t h p b (begun ++ calls) := by
  obtain ⟨q, hmove, hc, hperf⟩ := ha
  rcases hbegun with rfl | rfl
  · rw [perform_congr (b := b1) hpend] at hc
    exact ⟨q, hmove, hc, hperf⟩
  · refine ⟨q, ?_, ?_, ?_⟩
    · cases hmove with
      | stay hcalls => exact .stay hcalls
      | queue hcalls => exact .queue hcalls
      | release hp hcalls => exact .release hp hcalls
    · rw [perform_congr (b := b1) hpend] at hc
      simpa [History.perform, filterMap_cons, Call.performedTask?, Call.performedAbort?,
        TransactionSystem.absorb] using hc
    · intro task hmem
      exact hperf task (by simpa using hmem)

/-- A method that finishes the transaction, and whose completion callback then restarts the
timer. -/
theorem Advances.restart {t : TransactionSystem} {h : History} {p : Place}
    {b : TransactionBackend} {calls : List Call} (ha : Advances t h p b calls)
    (hp : p = .started ∨ p = .released) (hopen : t.openReplyPending = false)
    (hs : b.state = .finished) :
    Advances t h p { b with taskTimerIsActive := true } calls := by
  obtain ⟨q, hmove, hc, hperf⟩ := ha
  have hq : q = .started ∨ q = .released := by
    cases hmove with
    | stay _ => exact hp
    | queue _ => simp at hp
    | release _ _ => exact .inr rfl
  have hstart := hc.restart_timer ⟨hq, by simpa using hopen, by simp [hs]⟩
  refine ⟨q, hmove, ?_, hperf⟩
  rw [TransactionSystem.foldl_absorb_with_backend]
  simpa [TransactionSystem.foldl_absorb_with_backend t calls b] using hstart

namespace Consistent

variable {t : TransactionSystem} {h : History} {p : Place} {b : TransactionBackend}
  {calls : List Call}

theorem taskTimerFired_of_finished (hs : t.backend.state = .finished) :
    t.backend.taskTimerFired = some ({ t.backend with taskTimerIsActive := false }, []) := by
  unfold taskTimerFired beginIfStartPending
  simp only [hs, reduceCtorEq, if_false, Option.bind_some, if_true]
  split <;> simp

theorem beginIfStartPending_started (hc : Consistent t h .started) {b1 : TransactionBackend}
    {begun : List Call} (hbegin : t.backend.beginIfStartPending = some (b1, begun)) :
    Consistent { t with backend := b1 } h .started ∧ (begun = [] ∨ begun = [.beginTransaction]) ∧
      b1.pendingPreemptiveEvents = t.backend.pendingPreemptiveEvents := by
  unfold beginIfStartPending at hbegin
  dsimp only at hbegin
  split at hbegin
  · rename_i hs
    split at hbegin
    · cases hbegin
      exact ⟨hc.stop_timer.begin_running hs, .inr rfl, rfl⟩
    · cases hbegin
  · cases hbegin
    exact ⟨hc.stop_timer, .inl rfl, rfl⟩

theorem advances_taskTimerFired (hc : Consistent t h p)
    (htimer : t.backend.taskTimerIsActive = true)
    (hfired : t.backend.taskTimerFired = some (b, calls)) : Advances t h p b calls := by
  obtain ⟨hp, hopen, hunused⟩ := hc.timer htimer
  rcases hp with rfl | rfl
  · obtain ⟨⟨b1, begun⟩, hbegin, hrest⟩ := Option.bind_eq_some_iff.mp hfired
    obtain ⟨hc1, hbegun, hpend⟩ := hc.beginIfStartPending_started hbegin
    have hstop : Advances { t with backend := b1 } h .started b1 [] :=
      hc1.advances_silent rfl rfl rfl rfl hc1.timer
    dsimp only at hrest
    split at hrest
    · rename_i task rest htake
      split at hrest
      · cases hrest
        simpa using hstop.beginning hbegun hpend
      · rename_i hs
        obtain ⟨⟨b2, performed⟩, hperf, hb⟩ := Option.map_eq_some_iff.mp hrest
        cases hb
        exact (hc1.advances_performTask hs htake hperf).beginning hbegun hpend
    · split at hrest
      · obtain ⟨⟨b2, committed⟩, hcommit, hb⟩ := Option.map_eq_some_iff.mp hrest
        cases hb
        refine (hc1.advances_commit (fun hu => ?_) hcommit).beginning hbegun hpend
        rcases hu with hu | hu
        · exact absurd hu hc1.state_of_started.1
        · exact absurd hu hc1.state_of_started.2
      · cases hrest
        simpa using hstop.beginning hbegun hpend
  · have hs : t.backend.state = .finished := by
      rcases hc.allows with hs | hs
      · exact hs
      · exact absurd hs hunused
    rw [taskTimerFired_of_finished hs] at hfired
    cases hfired
    exact hc.advances_silent rfl rfl rfl rfl (by simp)

theorem abort_state (habort : t.backend.abort = some (b, calls)) : b.state = .finished := by
  unfold abort at habort
  split at habort
  · cases habort
    assumption
  · split at habort <;> cases habort
    rfl

theorem advances_didPerformTask (hc : Consistent t h p) {task : Operation} {success : Bool}
    (hp : (p = .started ∨ p = .released) ∧ t.openReplyPending = false ∧ t.backend.state ≠ .unused)
    (hperf : t.backend.didPerformTask task success = some (b, calls)) :
    Advances t h p b calls := by
  have hrestart : Advances t h p { t.backend with taskTimerIsActive := true } [] :=
    hc.advances_silent rfl rfl rfl rfl fun _ => hp
  unfold TransactionBackend.didPerformTask at hperf
  split at hperf
  · split at hperf
    · split at hperf
      · cases hperf
        refine ⟨p, .stay rfl, ?_, by simp⟩
        have hnone : h.perform t.backend [.setCurrentVersion task] = h := by
          simp [History.perform, filterMap_cons, Call.performedTask?, Call.performedAbort?]
        rw [hnone]
        exact hc.restart_timer hp
      · cases hperf
    · cases hperf
      exact hrestart
  · split at hperf
    · obtain ⟨⟨b1, calls1⟩, habort, hb⟩ := Option.map_eq_some_iff.mp hperf
      cases hb
      exact (hc.advances_abort habort).restart hp.1 hp.2.1 (abort_state habort)
    · cases hperf
      exact hrestart

/-- The reply to `openTransaction` opens a transaction the coordinator has not queued. -/
theorem open_unused (hc : Consistent t h p) (hopen : t.openReplyPending = true) :
    Consistent { t with
      backend := { t.backend with state := .unused }
      openReplyPending := false } h p := by
  obtain ⟨hp, hs⟩ := hc.opening hopen
  have hidle : ¬ ((p = .started ∨ p = .released) ∧ t.openReplyPending = false ∧
      t.backend.state ≠ .unused) := by simp [hopen]
  have hreplies : t.commitReplies = [] := by
    by_contra hr
    have := (hc.committing hr).2
    rw [hopen] at this
    cases this
  exact
    { hc with
      allows := by rcases hp with rfl | rfl <;> simp [Place.Allows]
      timer := fun ht => absurd (hc.timer ht) hidle
      flight := fun hf => absurd (hc.flight hf) hidle
      opening := by simp
      committing := fun hr => absurd hreplies hr }

theorem advances_didOpenTransaction (hc : Consistent t h p) {success : Bool}
    (hopen : t.openReplyPending = true)
    (hopened : t.backend.didOpenTransaction success = some (b, calls)) :
    Advances { t with openReplyPending := false } h p b calls := by
  unfold TransactionBackend.didOpenTransaction at hopened
  have hunused := hc.open_unused hopen
  split at hopened
  · dsimp only at hopened
    split at hopened
    · exact hunused.advances_start rfl hopened
    · cases hopened
      exact hunused.advances_silent rfl rfl rfl rfl hunused.timer
  · cases hopened
    refine ⟨p, .stay rfl, ?_, by simp⟩
    have hnone : h.perform t.backend [.postAbort] = h := by
      simp [History.perform, filterMap_cons, Call.performedTask?, Call.performedAbort?]
    rw [hnone]
    exact
      { hc with
        timer := fun ht => ⟨(hc.timer ht).1, rfl, (hc.timer ht).2.2⟩
        flight := fun hf => ⟨(hc.flight hf).1, rfl, (hc.flight hf).2.2⟩
        opening := fun ho => Bool.noConfusion ho
        committing := fun hr => ⟨(hc.committing hr).1, rfl⟩ }

theorem enqueue (hc : Consistent t h p) (type : TaskType) (task : Operation)
    (abortTask : Option AbortOperation) (hs : t.backend.state ≠ .finished)
    (hdb : t.backend.database = true) :
    Consistent { t with backend := t.backend.enqueueTask type task abortTask }
      (h.schedule t.backend (.scheduleTask type task abortTask)) p := by
  have hp : p ≠ .released := fun hp => by simp [hc.database.mpr hp] at hdb
  simp only [schedule, if_neg hs, enqueueTask]
  exact
    { hc with
      tasks := by
        simp only [hc.tasks]
        split <;> simp
      aborting := fun ha => by
        obtain ⟨hnone, hqueue⟩ := hc.aborting ha
        refine ⟨hnone, ?_⟩
        cases abortTask <;> simp [hqueue]
      aborted := fun ha => absurd (hc.aborted ha).1 hp }

theorem advances_scheduleTask (hc : Consistent t h p) {type : TaskType} {task : Operation}
    {abortTask : Option AbortOperation}
    (hsched : t.backend.scheduleTask type task abortTask = some (b, calls)) :
    Advances t (h.schedule t.backend (.scheduleTask type task abortTask)) p b calls := by
  have hallow := hc.allows
  have hset : t.backend.state ≠ .finished → t.backend.state ≠ .unused →
      t.backend.database = true := by
    intro hf hu
    apply hc.database_eq_true
    rintro rfl
    rcases hallow with hs | hs
    · exact hf hs
    · exact hu hs
  unfold TransactionBackend.scheduleTask at hsched
  cases hs : t.backend.state with
  | finished =>
    rw [hs] at hsched
    cases hsched
    simp only [History.schedule, hs, if_true]
    exact hc.advances_silent rfl rfl rfl rfl hc.timer
  | unused =>
    rw [hs] at hsched
    have hdb : t.backend.database = true := by
      by_contra hdb
      simp [TransactionBackend.start, TransactionBackend.enqueueTask, hdb] at hsched
    exact (hc.enqueue type task abortTask (by simp [hs]) hdb).advances_start hs hsched
  | running =>
    rw [hs] at hsched hallow
    cases hsched
    have hq := hc.enqueue type task abortTask (by simp [hs]) (hset (by simp [hs]) (by simp [hs]))
    have hp : p = .started := by
      cases p <;> simp [Place.Allows] at hallow
      rfl
    subst hp
    exact hq.advances_silent rfl rfl rfl rfl fun _ =>
      ⟨.inl rfl, hc.openReplyPending_of_started, hc.state_of_started.1⟩
  | unopened | startPending =>
    rw [hs] at hsched
    cases hsched
    have hq := hc.enqueue type task abortTask (by simp [hs]) (hset (by simp [hs]) (by simp [hs]))
    exact hq.advances_silent rfl rfl rfl rfl hq.timer

theorem run (hc : Consistent t h .queued) :
    Consistent { t with backend := t.backend.run } h .started := by
  have hstate : t.backend.state = .startPending ∨ t.backend.state = .finished := hc.allows
  have hopen : t.openReplyPending = false := by
    by_contra ho
    have := (hc.opening (by simpa using ho)).1
    simp at this
  have hflight := (hc.idle (.inr rfl)).2
  exact
    { hc with
      allows := by
        rcases hstate with hs | hs
        · exact .inl hs
        · exact .inr (.inr hs)
      database := ⟨fun hd => by simpa using hc.database.mp hd, by simp⟩
      finished := ⟨fun hf => by simpa using hc.finished.mp hf, by simp⟩
      timer := fun _ => ⟨.inl rfl, hopen, by
        change t.backend.state ≠ .unused
        rcases hstate with hs | hs <;> rw [hs] <;> simp⟩
      flight := fun hf => absurd hflight hf
      opening := fun ho => by
        rw [hopen] at ho
        cases ho
      aborted := fun ha => absurd (hc.aborted ha).1 (by simp) }

theorem initial : Consistent .initial .initial .registered := by
  constructor <;> simp [TransactionSystem.initial, TransactionBackend.initial, History.initial,
    Place.Allows]

theorem take_postedAbort (hc : Consistent t h p) :
    Consistent { t with postedAborts := t.postedAborts - 1 } h p := { hc with }

theorem take_taskReply (hc : Consistent t h p) (task : Operation) :
    Consistent { t with tasksInFlight := t.tasksInFlight.erase task } h p :=
  { hc with
    flight := fun hf => hc.flight fun hnil => hf (by simp [hnil]) }

theorem take_commitReply (hc : Consistent t h p) (unused : Bool) :
    Consistent { t with commitReplies := t.commitReplies.erase unused } h p :=
  { hc with
    committing := fun hr => hc.committing fun hnil => hr (by simp [hnil])
    captured := fun hmem => hc.captured (mem_of_mem_erase hmem) }

end Consistent

/-- An enabled event of a consistent transaction moves it and keeps it consistent; a commit
that goes through needs a transaction that has been started. -/
theorem consistent_of_step {t t' : TransactionSystem} {h : History} {p : Place} {e : Event}
    {calls : List Call} (hc : Consistent t h p) (hen : t.Enabled e) (he : e ≠ .coordinatorRun)
    (hwait : e = .commit → t.backend.state = .unused ∨ t.backend.state = .unopened →
      t.backend.hasPendingTasks = true)
    (hstep : t.step e = some (t', calls)) :
    ∃ q, Move p q calls ∧ Consistent t' (h.record t.backend e calls) q ∧
      ∀ task, Call.perform task ∈ calls → p = .started := by
  obtain ⟨⟨b, calls'⟩, hb, heq⟩ := Option.map_eq_some_iff.mp hstep
  cases heq
  cases e with
  | openTransactionReply success => exact hc.advances_didOpenTransaction hen hb
  | postedAbort => exact hc.take_postedAbort.advances_abort hb
  | scheduleTask type task abortTask => exact hc.advances_scheduleTask hb
  | taskReply task success =>
    have hf : t.tasksInFlight ≠ [] := ne_nil_of_mem hen
    exact (hc.take_taskReply task).advances_didPerformTask (hc.flight hf) hb
  | taskTimer => exact hc.advances_taskTimerFired hen hb
  | commit => exact hc.advances_commit (hwait rfl) hb
  | commitTransactionReply unused success =>
    obtain rfl : unused = false := by
      cases unused with
      | false => rfl
      | true => exact absurd hen hc.captured
    obtain ⟨hs, hopen⟩ := hc.committing (ne_nil_of_mem hen)
    exact (hc.take_commitReply false).advances_didCommitTransaction hs hopen hb
  | abort => exact hc.advances_abort hb
  | coordinatorRun => exact absurd rfl he
  | addPreemptiveEvent | registerOpenCursor | unregisterOpenCursor =>
    cases hb
    exact hc.advances_silent rfl rfl rfl rfl hc.timer

end WebKit.IndexedDB
