import WebKit.IndexedDB.TransactionPlace

/-!
# Runs of transactions that share a coordinator

The invariant `Coherent` says that the collections of the coordinator are disjoint and hold
at most one started transaction, that every transaction is consistent with its place, and
that the transactions are started in the order in which they were queued. A step first
changes one transaction and its place (`Coherent.replace`), and then the coordinator may
start the next one (`Coherent.process`).

The transactions of a run keep this as long as no commit of a transaction that has not been
started goes through: such a commit finishes the transaction, and its reply skips
`didFinishTransaction`, so the coordinator keeps it for ever
(`not_soundRuns_of_commit_unused`).
-/

namespace WebKit.IndexedDB

open Transition Function List TransactionCoordinator List.Sublist

variable {ι : Type} [DecidableEq ι]

namespace TransactionCoordinator

/-- Where the coordinator has a transaction. -/
def place (c : TransactionCoordinator ι) (i : ι) : Place :=
  if i ∈ c.queuedTransactions then .queued
  else if i ∈ c.startedTransactions then .started
  else if i ∈ c.transactions then .registered
  else .released

/-- The collections hold every transaction once, and at most one is started. -/
structure WellFormed (c : TransactionCoordinator ι) : Prop where
  nodup : c.transactions.Nodup
  queued_nodup : c.queuedTransactions.Nodup
  disjoint : c.queuedTransactions.Disjoint c.startedTransactions
  queued_subset : c.queuedTransactions ⊆ c.transactions
  started_subset : c.startedTransactions ⊆ c.transactions
  one_started : c.startedTransactions.length ≤ 1

variable {c : TransactionCoordinator ι} {i j : ι}

theorem place_eq_queued : c.place i = .queued ↔ i ∈ c.queuedTransactions := by
  unfold place
  split
  · simp [*]
  · split
    · simp [*]
    · split <;> simp [*]

theorem place_eq_started (hw : c.WellFormed) : c.place i = .started ↔ i ∈ c.startedTransactions := by
  unfold place
  split
  · rename_i hq
    have hs : i ∉ c.startedTransactions := hw.disjoint hq
    simp [hs]
  · split
    · simp [*]
    · split <;> simp [*]

theorem place_eq_released (hw : c.WellFormed) : c.place i = .released ↔ i ∉ c.transactions := by
  unfold place
  split
  · rename_i hq
    simp [hw.queued_subset hq]
  · split
    · rename_i hs
      simp [hw.started_subset hs]
    · split <;> simp [*]

theorem foldl_processTransaction_of_started (l : List ι) (runs : List ι)
    (hs : c.startedTransactions ≠ []) : l.foldl processTransaction (c, runs) = (c, runs) := by
  induction l with
  | nil => rfl
  | cons j l ih =>
    have hbusy : c.canRunTransaction j = false := by simp [canRunTransaction, hs]
    rw [foldl_cons, processTransaction, hbusy]
    exact ih

/-- The coordinator starts the first queued transaction if none is started, and no other. -/
theorem processStartedTransactions_cases (c : TransactionCoordinator ι) :
    c.processStartedTransactions = (c, []) ∨
    ∃ j rest, c.queuedTransactions = j :: rest ∧ c.startedTransactions = [] ∧
      c.processStartedTransactions =
        ({ c with queuedTransactions := rest, startedTransactions := [j] }, [j]) := by
  unfold processStartedTransactions
  cases hq : c.queuedTransactions with
  | nil => exact .inl rfl
  | cons j rest =>
    by_cases hs : c.startedTransactions = []
    · refine .inr ⟨j, rest, rfl, hs, ?_⟩
      have hstart : processTransaction (c, []) j =
          ({ c with queuedTransactions := rest, startedTransactions := [j] }, [j]) := by
        simp [processTransaction, canRunTransaction, hs, hq]
      rw [foldl_cons, hstart]
      exact foldl_processTransaction_of_started _ _ (by simp)
    · exact .inl (foldl_processTransaction_of_started _ _ hs)

omit [DecidableEq ι] in
theorem wellFormed_start {rest : List ι} (hw : c.WellFormed)
    (hq : c.queuedTransactions = j :: rest) :
    ({ c with queuedTransactions := rest, startedTransactions := [j] } :
      TransactionCoordinator ι).WellFormed := by
  have hnodup := hw.queued_nodup
  have hsub := hw.queued_subset
  rw [hq] at hnodup hsub
  exact
    { nodup := hw.nodup
      queued_nodup := (nodup_cons.mp hnodup).2
      disjoint := by
        intro x hx hj
        rw [mem_singleton.mp hj] at hx
        exact (nodup_cons.mp hnodup).1 hx
      queued_subset := fun x hx => hsub (mem_cons_of_mem _ hx)
      started_subset := by
        intro x hx
        rw [mem_singleton.mp hx]
        exact hsub mem_cons_self
      one_started := Nat.le_refl 1 }

theorem place_start {rest : List ι} (hw : c.WellFormed)
    (hq : c.queuedTransactions = j :: rest) (hs : c.startedTransactions = []) :
    ({ c with queuedTransactions := rest, startedTransactions := [j] } :
      TransactionCoordinator ι).place i = if i = j then .started else c.place i := by
  have hnodup := hw.queued_nodup
  rw [hq] at hnodup
  by_cases hij : i = j
  · subst hij
    simp [place, (nodup_cons.mp hnodup).1]
  · simp [place, hq, hs, hij]

theorem wellFormed_didCreateTransaction (hw : c.WellFormed) :
    (c.didCreateTransaction i).WellFormed where
  nodup := hw.nodup.insert
  queued_nodup := hw.queued_nodup
  disjoint := hw.disjoint
  queued_subset _ hx := mem_insert_of_mem (hw.queued_subset hx)
  started_subset _ hx := mem_insert_of_mem (hw.started_subset hx)
  one_started := hw.one_started

theorem place_didCreateTransaction (hw : c.WellFormed) (hi : c.place i = .released) :
    (c.didCreateTransaction i).place j = if j = i then .registered else c.place j := by
  have hnot := (place_eq_released hw).mp hi
  by_cases hij : j = i
  · subst hij
    have hq : j ∉ c.queuedTransactions := fun hq => hnot (hw.queued_subset hq)
    have hs : j ∉ c.startedTransactions := fun hs => hnot (hw.started_subset hs)
    simp [place, didCreateTransaction, hq, hs]
  · simp [place, didCreateTransaction, hij]

/-- A registered transaction is appended to the queue. -/
def enqueue (c : TransactionCoordinator ι) (i : ι) : TransactionCoordinator ι :=
  { c with queuedTransactions := c.queuedTransactions ++ [i] }

theorem didStartTransaction_of_registered (hi : c.place i = .registered) :
    c.didStartTransaction i = (c.enqueue i).processStartedTransactions := by
  have hq : i ∉ c.queuedTransactions := by
    intro hq
    rw [place_eq_queued.mpr hq] at hi
    cases hi
  simp [didStartTransaction, enqueue, hq]

theorem wellFormed_enqueue (hw : c.WellFormed) (hi : c.place i = .registered) :
    (c.enqueue i).WellFormed := by
  have hq : i ∉ c.queuedTransactions := fun hq => by simp [place_eq_queued.mpr hq] at hi
  have hs : i ∉ c.startedTransactions := fun hs => by simp [(place_eq_started hw).mpr hs] at hi
  have ht : i ∈ c.transactions := by
    by_contra ht
    simp [(place_eq_released hw).mpr ht] at hi
  exact
    { hw with
      queued_nodup := by
        rw [enqueue, nodup_append]
        refine ⟨hw.queued_nodup, nodup_singleton i, ?_⟩
        rintro a ha b hb rfl
        rw [mem_singleton.mp hb] at ha
        exact hq ha
      disjoint := by
        intro x hx hx'
        rcases mem_append.mp hx with hx | hx
        · exact hw.disjoint hx hx'
        · rw [mem_singleton.mp hx] at hx'
          exact hs hx'
      queued_subset := by
        intro x hx
        rcases mem_append.mp hx with hx | hx
        · exact hw.queued_subset hx
        · rw [mem_singleton.mp hx]
          exact ht }

theorem place_enqueue : (c.enqueue i).place j = if j = i then .queued else c.place j := by
  by_cases hij : j = i
  · simp [place, enqueue, hij]
  · by_cases hq : j ∈ c.queuedTransactions
    · simp [place, enqueue, hq, hij]
    · simp only [place, enqueue, mem_append, mem_singleton, hq, hij, or_self, if_false]
      rfl

omit [DecidableEq ι] in
theorem WellFormed.started_nodup (hw : c.WellFormed) : c.startedTransactions.Nodup := by
  have hlen := hw.one_started
  match hs : c.startedTransactions with
  | [] => exact nodup_nil
  | [a] => exact nodup_singleton a
  | a :: b :: l =>
    rw [hs] at hlen
    simp at hlen

theorem mem_forget_queued (hw : c.WellFormed) :
    j ∈ (c.forget i).queuedTransactions ↔ j ≠ i ∧ j ∈ c.queuedTransactions := by
  unfold forget
  split
  · exact hw.queued_nodup.mem_erase_iff
  · rename_i hq
    exact ⟨fun hj => ⟨fun hij => hq (hij ▸ hj), hj⟩, fun hj => hj.2⟩

theorem mem_forget_started (hw : c.WellFormed) :
    j ∈ (c.forget i).startedTransactions ↔ j ≠ i ∧ j ∈ c.startedTransactions := by
  unfold forget
  split
  · rename_i hq
    exact ⟨fun hj => ⟨fun hij => hw.disjoint hq (hij ▸ hj), hj⟩, fun hj => hj.2⟩
  · exact hw.started_nodup.mem_erase_iff

theorem mem_forget_transactions (hw : c.WellFormed) :
    j ∈ (c.forget i).transactions ↔ j ≠ i ∧ j ∈ c.transactions := by
  unfold forget
  split <;> exact hw.nodup.mem_erase_iff

theorem forget_queued_sublist : (c.forget i).queuedTransactions.Sublist c.queuedTransactions := by
  unfold forget
  split
  · exact erase_sublist
  · exact refl _

theorem wellFormed_forget (hw : c.WellFormed) : (c.forget i).WellFormed where
  nodup := by
    unfold forget
    split <;> exact hw.nodup.erase i
  queued_nodup := hw.queued_nodup.sublist forget_queued_sublist
  disjoint _ hq hs := hw.disjoint ((mem_forget_queued hw).mp hq).2 ((mem_forget_started hw).mp hs).2
  queued_subset _ hx := (mem_forget_transactions hw).mpr
      ⟨((mem_forget_queued hw).mp hx).1, hw.queued_subset ((mem_forget_queued hw).mp hx).2⟩
  started_subset _ hx := (mem_forget_transactions hw).mpr
      ⟨((mem_forget_started hw).mp hx).1, hw.started_subset ((mem_forget_started hw).mp hx).2⟩
  one_started := by
    refine Nat.le_trans ?_ hw.one_started
    unfold forget
    split
    · exact Nat.le_refl _
    · exact length_erase_le

theorem place_forget (hw : c.WellFormed) :
    (c.forget i).place j = if j = i then .released else c.place j := by
  unfold place
  simp only [mem_forget_queued hw, mem_forget_started hw, mem_forget_transactions hw]
  by_cases hij : j = i <;> simp [hij]

end TransactionCoordinator

/-! ## The invariant -/

namespace CoordinatedSystem

/-- A transaction in its place, or a name that has not been used yet. -/
def Located (s : CoordinatedSystem ι) (i : ι) : Prop :=
  match s.transaction i with
  | none => s.coordinator.place i = .released ∧ i ∉ s.queuedOrder ∧ s.history i = .initial
  | some t => Consistent t (s.history i) (s.coordinator.place i)

structure Coherent (s : CoordinatedSystem ι) : Prop where
  wellFormed : s.coordinator.WellFormed
  located : ∀ i, s.Located i
  in_order : (s.startedOrder ++ s.coordinator.queuedTransactions).Sublist s.queuedOrder
  once : s.queuedOrder.Nodup
  registered : ∀ i, s.coordinator.place i = .registered → i ∉ s.queuedOrder

variable {s : CoordinatedSystem ι} {i : ι}

theorem Coherent.initial : (CoordinatedSystem.initial : CoordinatedSystem ι).Coherent where
  wellFormed := by
    constructor <;> simp [CoordinatedSystem.initial, TransactionCoordinator.initial]
  located i := by
    simp [Located, CoordinatedSystem.initial, TransactionCoordinator.initial,
      TransactionCoordinator.place]
  in_order := List.Sublist.refl []
  once := nodup_nil
  registered i _ := by simp [CoordinatedSystem.initial]

theorem Coherent.sound (hc : s.Coherent) : s.Sound where
  disjoint := hc.wellFormed.disjoint
  one_started := hc.wellFormed.one_started
  in_order := hc.in_order
  once := hc.once
  tasks_in_order i := by
    have hi := hc.located i
    unfold Located at hi
    split at hi
    · rw [hi.2.2]
      exact prefix_rfl
    · rw [hi.tasks]
      exact prefix_append _ _
  aborts_reversed i ha := by
    have hi := hc.located i
    unfold Located at hi
    split at hi
    · rw [hi.2.2] at ha
      cases ha
    · exact (hi.aborted ha).2
  no_reference i hf := by
    have hi := hc.located i
    have hw := hc.wellFormed
    have hplace : s.coordinator.place i = .released := by
      unfold Located at hi
      split at hi
      · exact hi.1
      · exact hi.finished.mp hf
    have hnot := (place_eq_released hw).mp hplace
    exact ⟨hnot, fun hq => hnot (hw.queued_subset hq), fun hs => hnot (hw.started_subset hs)⟩

theorem Coherent.process (hc : s.Coherent) :
    (s.coordinated s.coordinator.processStartedTransactions).Coherent := by
  rcases s.coordinator.processStartedTransactions_cases with hr | ⟨j, rest, hq, hs, hr⟩
  · rw [hr]
    exact hc
  · rw [hr]
    have hplace := fun k => place_start (i := k) hc.wellFormed hq hs
    have hj : s.coordinator.place j = .queued := by
      rw [place_eq_queued, hq]
      exact mem_cons_self
    refine ⟨wellFormed_start hc.wellFormed hq, ?_, ?_, hc.once, ?_⟩
    · intro k
      have hk := hc.located k
      unfold Located at hk ⊢
      simp only [coordinated, foldl_cons, foldl_nil, run, hplace]
      by_cases hkj : k = j
      · subst hkj
        cases ht : s.transaction k with
        | none =>
          rw [ht] at hk
          rw [hj] at hk
          cases hk.1
        | some t =>
          rw [ht] at hk
          rw [hj] at hk
          simpa using hk.run
      · simpa [update_of_ne hkj, hkj] using hk
    · have hin := hc.in_order
      rw [hq] at hin
      simpa [coordinated, run] using hin
    · intro k hk
      have hk' : (if k = j then Place.started else s.coordinator.place k) = .registered := by
        rw [← hplace k]
        exact hk
      split at hk'
      · cases hk'
      · exact hc.registered k hk'

theorem Coherent.replace (hc : s.Coherent) {c : TransactionCoordinator ι} {t : TransactionSystem}
    {h : History} {order : List ι} (hw : c.WellFormed)
    (hplace : ∀ j, j ≠ i → c.place j = s.coordinator.place j)
    (ht : Consistent t h (c.place i)) (horder : ∀ j, j ≠ i → (j ∈ order ↔ j ∈ s.queuedOrder))
    (hin : (s.startedOrder ++ c.queuedTransactions).Sublist order) (honce : order.Nodup)
    (hreg : c.place i = .registered → i ∉ order) :
    ({ s with
      coordinator := c
      transaction := update s.transaction i (some t)
      history := update s.history i h
      queuedOrder := order } : CoordinatedSystem ι).Coherent := by
  refine ⟨hw, ?_, hin, honce, ?_⟩
  · intro j
    have hj := hc.located j
    unfold Located at hj ⊢
    by_cases hij : j = i
    · subst hij
      simpa using ht
    · simpa [update_of_ne hij, hplace j hij, horder j hij] using hj
  · intro j hj
    by_cases hij : j = i
    · subst hij
      exact hreg hj
    · have := hc.registered j (by rw [← hplace j hij]; exact hj)
      rwa [← horder j hij] at this

theorem foldl_coordinate (i : ι) (s : CoordinatedSystem ι) (calls : List Call) :
    calls.foldl (coordinate i) s = (calls.filter Call.coordinated?).foldl (coordinate i) s := by
  induction calls generalizing s with
  | nil => rfl
  | cons c calls ih =>
    rw [foldl_cons, ih]
    cases c <;> rfl

/-- An enabled event, with commits that wait, keeps the invariant and performs tasks of
started transactions only. -/
theorem Coherent.settle (hc : s.Coherent) {e : Event} {t t' : TransactionSystem}
    {calls : List Call} (ht : s.transaction i = some t) (hen : t.Enabled e)
    (he : e ≠ .coordinatorRun)
    (hwait : e = .commit → t.backend.state = .unused ∨ t.backend.state = .unopened →
      t.backend.hasPendingTasks = true)
    (hstep : t.step e = some (t', calls)) : (s.settle i t.backend e t' calls).Coherent := by
  have hi := hc.located i
  unfold Located at hi
  rw [ht] at hi
  obtain ⟨q, hmove, hc', -⟩ := consistent_of_step hi hen he hwait hstep
  have hw := hc.wellFormed
  unfold CoordinatedSystem.settle
  rw [foldl_coordinate]
  generalize hp : s.coordinator.place i = p at hmove hi
  cases hmove with
  | stay hcalls =>
    rw [hcalls]
    exact hc.replace hw (fun _ _ => rfl) (hp ▸ hc') (fun _ _ => Iff.rfl) hc.in_order hc.once
      (hc.registered i)
  | queue hcalls =>
    rw [hcalls, foldl_cons, foldl_nil, coordinate]
    rw [didStartTransaction_of_registered hp]
    have hplace := fun j => place_enqueue (c := s.coordinator) (i := i) (j := j)
    refine Coherent.process (s := { s with
      coordinator := s.coordinator.enqueue i
      transaction := _
      history := _
      queuedOrder := s.queuedOrder ++ [i] }) ?_
    refine hc.replace (wellFormed_enqueue hw hp) ?_ ?_ ?_ ?_ ?_ ?_
    · intro j hj
      rw [hplace, if_neg hj]
    · rw [hplace, if_pos rfl]
      exact hc'
    · intro j hj
      simp [hj]
    · have hin := hc.in_order.append_right [i]
      rwa [append_assoc] at hin
    · rw [nodup_append]
      refine ⟨hc.once, nodup_singleton i, ?_⟩
      rintro a ha b hb rfl
      rw [mem_singleton.mp hb] at ha
      exact hc.registered i hp ha
    · rw [hplace, if_pos rfl]
      simp
  | release hrel hcalls =>
    rw [hcalls, foldl_cons, foldl_nil, coordinate]
    have hplace := fun j => place_forget (i := i) (j := j) hw
    refine Coherent.process (s := { s with
      coordinator := s.coordinator.forget i
      transaction := _
      history := _ }) ?_
    refine hc.replace (wellFormed_forget hw) ?_ ?_ (fun _ _ => Iff.rfl) ?_ hc.once ?_
    · intro j hj
      rw [hplace, if_neg hj]
    · rw [hplace, if_pos rfl]
      exact hc'
    · exact ((refl _).append forget_queued_sublist).trans hc.in_order
    · rw [hplace, if_pos rfl]
      simp

theorem Coherent.step (hc : s.Coherent) {l : Action ι × List Call} {u : CoordinatedSystem ι}
    (hwait : s.CommitWaits l.1) (hstep : s.Step l u) : u.Coherent := by
  obtain ⟨a, calls⟩ := l
  obtain ⟨hen, hu⟩ := hstep
  cases a with
  | create i =>
    cases hu
    have hi := hc.located i
    unfold Located at hi
    have hnone : s.transaction i = none := hen
    rw [hnone] at hi
    have hplace := fun j =>
      TransactionCoordinator.place_didCreateTransaction (j := j) hc.wellFormed hi.1
    have hcreated := hc.replace (h := .initial) (t := .initial) (i := i)
      (TransactionCoordinator.wellFormed_didCreateTransaction hc.wellFormed)
      (fun j hj => by rw [hplace, if_neg hj])
      (by rw [hplace, if_pos rfl]; exact Consistent.initial)
      (fun _ _ => Iff.rfl) hc.in_order hc.once (fun _ => hi.2.1)
    rw [← hi.2.2, update_eq_self] at hcreated
    exact hcreated
  | event i e =>
    obtain ⟨he, t, ht, hen⟩ := hen
    simp only [CoordinatedSystem.step, ht, Option.bind_some] at hu
    obtain ⟨⟨t', calls'⟩, hstep, heq⟩ := Option.map_eq_some_iff.mp hu
    cases heq
    exact hc.settle ht hen he (fun hcommit hs => hwait i t (by rw [hcommit]) ht hs) hstep

theorem not_performs_of_commit {t t' : TransactionSystem} {calls : List Call}
    (hstep : t.step .commit = some (t', calls)) (task : Operation) :
    Call.perform task ∉ calls := by
  obtain ⟨⟨b, calls'⟩, hb, heq⟩ := Option.map_eq_some_iff.mp hstep
  cases heq
  simp only [TransactionSystem.dispatch, TransactionBackend.commit] at hb
  split at hb
  · cases hb
    simp
  · split at hb
    · cases hb
      simp
    · split at hb <;> cases hb
      simp

theorem Coherent.performsStarted (hc : s.Coherent) : s.PerformsStarted := by
  rintro ⟨a, calls⟩ u ⟨hen, hu⟩ i e task rfl hmem
  obtain ⟨he, t, ht, hen⟩ := hen
  simp only [CoordinatedSystem.step, ht, Option.bind_some] at hu
  obtain ⟨⟨t', calls'⟩, hstep, heq⟩ := Option.map_eq_some_iff.mp hu
  cases heq
  have hi := hc.located i
  unfold Located at hi
  rw [ht] at hi
  have hcommit : e ≠ .commit := by
    rintro rfl
    exact not_performs_of_commit hstep task hmem
  obtain ⟨q, -, -, hperf⟩ := consistent_of_step hi hen he (fun hc => absurd hc hcommit) hstep
  exact (TransactionCoordinator.place_eq_started hc.wellFormed).mp (hperf task hmem)

/-- In every run in which a commit of a transaction that has not been started waits for
pending tasks, the coordinator and its transactions stay sound. -/
theorem sound_of_commitWaits {ls : List (Action ι × List Call)} {s : CoordinatedSystem ι}
    (hrun : Run (guarded Step fun s l => s.CommitWaits l.1) .initial ls s) :
    s.Sound ∧ s.PerformsStarted := by
  have hc : s.Coherent := hrun.preserves (I := Coherent)
    (fun _ _ _ hs hstep => hs.step hstep.1 hstep.2) Coherent.initial
  exact ⟨hc.sound, hc.performsStarted⟩

/-- Two transactions; the second has its first task and is started. -/
def startSecond : List (Action Nat × List Call) :=
  [(.create 0, []), (.create 1, []), (.event 1 (.openTransactionReply true), []),
    (.event 1 (.scheduleTask .normalTask ⟨.put, 0⟩ none),
      [.start, .didStartTransaction, .transactionStarted])]

theorem run_startSecond : ∃ s : CoordinatedSystem Nat,
      Run (guarded Step fun s l => s.CommitWaits l.1) .initial startSecond s ∧
        s.coordinator = ⟨[1, 0], [], [1]⟩ := by
  refine ⟨_, .cons ⟨?_, rfl, rfl⟩ (.cons ⟨?_, rfl, rfl⟩ (.cons ⟨?_, ⟨by simp, _, rfl, rfl⟩, rfl⟩
    (.single ⟨?_, ⟨by simp, _, rfl, trivial⟩, rfl⟩))), rfl⟩
  all_goals
    intro i t ha
    cases ha

theorem sound_startSecond :
    ∃ s : CoordinatedSystem Nat, s.coordinator.startedTransactions = [1] ∧
      s.Sound ∧ s.PerformsStarted := by
  obtain ⟨s, hrun, hs⟩ := run_startSecond
  exact ⟨s, by rw [hs], sound_of_commitWaits hrun⟩

/-- The transaction `0` is created, opened and committed before its first task. -/
def commitUnused : List (Action Nat × List Call) :=
  [(.create 0, []), (.event 0 (.openTransactionReply true), []),
    (.event 0 .commit, [.commitTransaction true]),
    (.event 0 (.commitTransactionReply true true),
      [.resetTransaction, .transactionFinished, .onComplete, .transactionFinishedAndCompleteFired])]

theorem run_commitUnused :
    ∃ s : CoordinatedSystem Nat, Run (guarded Step fun _ _ => True) .initial commitUnused s ∧
      (s.history 0).finished = true ∧ s.coordinator.transactions = [0] :=
  ⟨_, .cons ⟨trivial, rfl, rfl⟩ (.cons ⟨trivial, ⟨by simp, _, rfl, rfl⟩, rfl⟩
    (.cons ⟨trivial, ⟨by simp, _, rfl, trivial⟩, rfl⟩
      (.single ⟨trivial, ⟨by simp, _, rfl, mem_cons_self⟩, rfl⟩))), rfl, rfl⟩

/-- Without the condition the coordinator keeps a finished transaction: `commit` skips
`didFinishTransaction` for a transaction that was never started. -/
theorem not_soundRuns_of_commit_unused : ¬ SoundRuns Nat fun _ _ => True := by
  intro h
  obtain ⟨s, hrun, hfinished, hkept⟩ := run_commitUnused
  have hnone := ((h _ s hrun).1.no_reference 0 hfinished).1
  rw [hkept] at hnone
  exact hnone mem_cons_self

end CoordinatedSystem

end WebKit.IndexedDB
