import WebKit.IndexedDB.TransactionCleanup

/-!
# Runs that leave no transaction behind

The steps of the two threads and the calls from outside keep `Tended`. The one exception is an
`unregisterConnection` that comes while a transaction of the connection is being opened.
-/

namespace WebKit.IndexedDB

open Transition List Option
open MainThreadTask (Announced)

namespace DatabaseTask

variable {task : DatabaseTask} {inMemory success result : Bool}
  {metadata : Option DatabaseMetadata} {transactions : Finset IDBIdentifier}
  {transaction : IDBIdentifier}

theorem of_didEstablishTransaction (h : .didEstablishTransaction transaction result ∈
      (task.completions inMemory success metadata).map Prod.fst) :
    ∃ mode, task = .transactionOperation transaction (.openTransaction mode) := by
  cases task with
  | openBackingStoreAndReadMetadata => cases inMemory <;> simp [completions] at h
  | transactionOperation transaction operation =>
    cases operation <;> simp [completions] at h
    rename_i mode
    exact ⟨mode, by rw [h.1]⟩
  | operation requestID operation => cases operation <;> cases success <;> simp [completions] at h
  | shutdownBackingStore type => simp [completions] at h

theorem of_didResetTransaction (h : .didResetTransaction transaction result ∈
      (task.completions inMemory success metadata).map Prod.fst) :
    task = .transactionOperation transaction .resetTransaction := by
  cases task with
  | openBackingStoreAndReadMetadata => cases inMemory <;> simp [completions] at h
  | transactionOperation transaction operation =>
    cases operation <;> simp [completions] at h
    rw [h.1]
  | operation requestID operation => cases operation <;> cases success <;> simp [completions] at h
  | shutdownBackingStore type => simp [completions] at h

theorem mem_perform (h : transaction ∈ (task.perform transactions result).2) :
    transaction ∈ transactions ∧ task ≠ .transactionOperation transaction .resetTransaction ∨
      transaction ∉ transactions ∧
        ∃ mode, task = .transactionOperation transaction (.openTransaction mode) := by
  by_cases hold : transaction ∈ transactions
  · refine .inl ⟨hold, ?_⟩
    rintro rfl
    simp [perform] at h
  · refine .inr ⟨hold, ?_⟩
    cases task with
    | transactionOperation other operation =>
      cases operation with
      | openTransaction mode =>
        rcases Finset.mem_insert.mp h with rfl | hmem
        · exact ⟨mode, rfl⟩
        · exact absurd hmem hold
      | resetTransaction => exact absurd (Finset.mem_of_mem_erase h) hold
      | beginTransaction | commitTransaction | rollbackTransaction => exact absurd h hold
    | openBackingStoreAndReadMetadata | operation requestID operation => exact absurd h hold
    | shutdownBackingStore type => cases h

end DatabaseTask

namespace UniqueIDBDatabase

variable {s t : UniqueIDBDatabase} {transactions : Finset IDBIdentifier}
  {transaction : IDBIdentifier} {connection : ℕ}

theorem Kept.perform (h : Kept transactions [] s) {task : DatabaseTask} {tasks : List DatabaseTask}
    (hpost : s.posting = []) (hdb : s.databaseTasks = task :: tasks) (result : Bool)
    (metadata : Option DatabaseMetadata) :
    Kept (task.perform transactions result).2 [] { s with
      databaseTasks := tasks
      posting := task.completions s.inMemory (task.perform transactions result).1 metadata } := by
  generalize hcomps :
    task.completions s.inMemory (task.perform transactions result).1 metadata = completions
  have hold : s.completing = s.mainThreadTasks := by
    unfold completing
    rw [hpost]
    exact append_nil _
  have hnew : completing { s with databaseTasks := tasks, posting := completions } =
      s.completing ++ completions.map Prod.fst := by
    rw [hold]
    rfl
  have htask : task ∈ s.databaseTasks := hdb ▸ mem_cons_self ..
  have htrans : (completions.map Prod.fst).flatMap MainThreadTask.transactions =
      task.transactions := by
    rw [← hcomps, flatMap_map]
    exact DatabaseTask.transactions_completions
  have hoperating : UniqueIDBDatabase.operating
      { s with databaseTasks := tasks, posting := completions } = s.operating := by
    unfold UniqueIDBDatabase.operating
    rw [hnew, hdb, flatMap_append, htrans, flatMap_cons, append_assoc]
  have hnodup := h.operating.nodup_iff.mpr h.distinct
  constructor
  case noShutdownQueued =>
    exact fun other hother => h.noShutdownQueued other (hdb ▸ mem_cons_of_mem _ hother)
  case noShutdownCompleting =>
    rw [hnew]
    intro other hother
    rcases mem_append.mp hother with hmem | hmem
    · exact h.noShutdownCompleting other hmem
    · obtain ⟨p, hp, rfl⟩ := mem_map.mp hmem
      rw [← hcomps] at hp
      exact (DatabaseTask.normal_completions (h.noShutdownQueued task htask) p hp).2
  case distinct => exact h.distinct
  case operating => exact hoperating ▸ h.operating
  case announced =>
    rw [hnew, ← hcomps]
    exact h.announced.append DatabaseTask.announced_completions
  case rollbacks => exact h.rollbacks
  case opening =>
    exact fun other mode hother =>
      h.opening other mode (hdb ▸ mem_cons_of_mem _ hother)
  case establishing =>
    rw [hnew]
    intro other hother
    rcases mem_append.mp hother with hmem | hmem
    · exact h.establishing other hmem
    · rw [← hcomps] at hmem
      obtain ⟨mode, rfl⟩ := DatabaseTask.of_didEstablishTransaction hmem
      exact h.opening other mode htask
  case resetting =>
    rw [hnew]
    intro other success hother hstored
    rcases mem_append.mp hother with hmem | hmem
    · rcases DatabaseTask.mem_perform hstored with ⟨hmem', -⟩ | ⟨-, mode, rfl⟩
      · exact h.resetting other success hmem hmem'
      · -- the reset and the opening would both be on their way
        have hann := h.announced.mem_transactions hmem (mem_singleton_self _)
        have hqueued : other ∈ s.databaseTasks.flatMap DatabaseTask.transactions :=
          mem_flatMap.mpr ⟨_, htask, mem_singleton_self _⟩
        exact disjoint_of_nodup_append hnodup hann hqueued
    · rw [← hcomps] at hmem
      have hreset := DatabaseTask.of_didResetTransaction hmem
      rcases DatabaseTask.mem_perform hstored with ⟨-, hne⟩ | ⟨-, mode, hopen⟩
      · exact hne hreset
      · rw [hreset] at hopen
        cases hopen
  case stored =>
    intro other hother
    rcases DatabaseTask.mem_perform hother with ⟨hmem, hne⟩ | ⟨hnot, mode, rfl⟩
    · cases h.stored other hmem with
      | rollback pending => exact .rollback pending
      | reset queued =>
        rw [hdb] at queued
        rcases mem_cons.mp queued with heq | hrest
        · exact absurd heq.symm hne
        · exact .reset hrest
      | establishing registered completing =>
        exact .establishing registered (hnew ▸ mem_append_left _ completing)
      | established registered established => exact .established registered established
    · refine .establishing (h.opening other mode htask) ?_
      rw [hnew, ← hcomps]
      apply mem_append_right
      simp [DatabaseTask.completions, DatabaseTask.perform, hnot]

/-! ## Connections -/

/-- The loop of `resetAllTransactions` only adds rollbacks. -/
structure RolledBack (s t : UniqueIDBDatabase) : Prop where
  accepting : t.acceptingNewRequests = true
  connections : t.connections = s.connections
  established : t.establishedTransactions = s.establishedTransactions
  completing : t.completing = s.completing
  rollbacks : ∀ transaction ∈ s.pendingTransactionRollbacks,
    transaction ∈ t.pendingTransactionRollbacks
  opening : ∀ transaction mode,
    .transactionOperation transaction (.openTransaction mode) ∈ t.databaseTasks →
      .transactionOperation transaction (.openTransaction mode) ∈ s.databaseTasks

theorem RolledBack.trans {u : UniqueIDBDatabase} (h : RolledBack s t) (h' : RolledBack t u) :
    RolledBack s u where
  accepting := h'.accepting
  connections := h'.connections.trans h.connections
  established := h'.established.trans h.established
  completing := h'.completing.trans h.completing
  rollbacks := fun transaction ht => h'.rollbacks transaction (h.rollbacks transaction ht)
  opening := fun transaction mode ht => h.opening transaction mode (h'.opening transaction mode ht)

theorem mem_addPendingTransactionRollback {other : IDBIdentifier} :
    other ∈ (s.addPendingTransactionRollback transaction).pendingTransactionRollbacks ↔
      other ∈ s.pendingTransactionRollbacks ∨ other = transaction := by
  unfold addPendingTransactionRollback
  by_cases hmem : transaction ∈ s.pendingTransactionRollbacks
  · simp only [if_pos hmem]
    constructor
    · exact .inl
    · rintro (hold | rfl)
      · exact hold
      · exact hmem
  · simp [if_neg hmem]

theorem Kept.addPendingTransactionRollback (h : Kept transactions [] s) (transaction : IDBIdentifier) :
    Kept transactions [transaction] (s.addPendingTransactionRollback transaction) :=
  { h with
    rollbacks := by
      intro other hother
      rcases mem_addPendingTransactionRollback.mp hother with hold | rfl
      · exact .inl ((h.rollbacks other hold).elim id nofun)
      · exact .inr (mem_singleton_self _)
    stored := by
      intro other hother
      cases h.stored other hother with
      | rollback pending => exact .rollback (mem_addPendingTransactionRollback.mpr (.inl pending))
      | reset queued => exact .reset queued
      | establishing registered completing => exact .establishing registered completing
      | established registered established => exact .established registered established }

theorem Kept.resetTransactions (h : Kept transactions [] s)
    (hacc : s.acceptingNewRequests = true) (list : List IDBIdentifier) :
    Kept transactions [] (s.resetTransactions list) ∧ RolledBack s (s.resetTransactions list) ∧
      ∀ transaction ∈ list,
        transaction ∈ (s.resetTransactions list).pendingTransactionRollbacks := by
  induction list generalizing s with
  | nil => exact ⟨h, ⟨hacc, rfl, rfl, rfl, fun _ => id, fun _ _ => id⟩, nofun⟩
  | cons transaction list ih =>
    have hadded := h.addPendingTransactionRollback transaction
    have hmem : transaction ∈
        (s.addPendingTransactionRollback transaction).pendingTransactionRollbacks :=
      mem_addPendingTransactionRollback.mpr (.inr rfl)
    have hrolledBack : RolledBack s (s.addPendingTransactionRollback transaction) :=
      ⟨hacc, rfl, rfl, rfl, fun other hother =>
        mem_addPendingTransactionRollback.mpr (.inl hother), fun _ _ => id⟩
    have hone : ∀ u, u = (if (s.addPendingTransactionRollback
          transaction).hasPendingTransactionRequest transaction
        then s.addPendingTransactionRollback transaction
        else (s.addPendingTransactionRollback transaction).finalizeRollback transaction) →
        Kept transactions [] u ∧ RolledBack s u ∧ transaction ∈ u.pendingTransactionRollbacks := by
      rintro u rfl
      split
      · rename_i hpend
        obtain ⟨request, hreq, heq⟩ := any_eq_true.mp hpend
        refine ⟨{ hadded with rollbacks := ?_ }, hrolledBack, hmem⟩
        intro other hother
        rcases hadded.rollbacks other hother with hold | hexempt
        · exact .inl hold
        · rw [mem_singleton.mp hexempt]
          exact .inl (mem_map.mpr ⟨request, hreq, by simpa using heq⟩)
      · rename_i hpend
        have hnot := not_mem_of_not_hasPending (Bool.not_eq_true _ ▸ hpend)
        have heq := finalizeRollback_eq hrolledBack.accepting (Bool.not_eq_true _ ▸ hpend)
        refine ⟨hadded.finalizeRollback hrolledBack.accepting hnot, ?_, ?_⟩
        · apply hrolledBack.trans
          rw [heq]
          refine ⟨hacc, rfl, rfl, rfl, fun _ => id, fun other mode hother => ?_⟩
          rcases mem_append.mp hother with hold | hnew
          · exact hold
          · cases mem_singleton.mp hnew
        · rw [heq]
          exact hmem
    obtain ⟨hkept, hback, hhere⟩ := hone _ rfl
    obtain ⟨hkept', hback', hrest⟩ := ih hkept hback.accepting
    refine ⟨hkept', hback.trans hback', ?_⟩
    intro other hother
    rcases mem_cons.mp hother with rfl | hother
    · exact hback'.rollbacks _ hhere
    · exact hrest other hother

/-- The transaction is being opened, and the main thread does not know of it yet. -/
def Opening (s : UniqueIDBDatabase) (transaction : IDBIdentifier) : Prop :=
  (∃ mode, .transactionOperation transaction (.openTransaction mode) ∈ s.databaseTasks) ∨
    .didEstablishTransaction transaction true ∈ s.completing

/-- The connection goes when its transactions are being rolled back. -/
theorem Kept.removeConnection (h : Kept transactions [] s) (connection : ℕ)
    (hestab : ∀ transaction ∈ s.establishedTransactions,
      transaction.connection = connection → transaction ∈ s.pendingTransactionRollbacks)
    (hopening : ∀ transaction, transaction.connection = connection → ¬ s.Opening transaction) :
    Kept transactions [] { s with connections := s.connections.filter (· ≠ connection) } :=
  { h with
    opening := by
      intro transaction mode ht
      refine mem_filter.mpr ⟨h.opening transaction mode ht, ?_⟩
      have hne : transaction.connection ≠ connection :=
        fun heq => hopening transaction heq (.inl ⟨mode, ht⟩)
      simpa using hne
    establishing := by
      intro transaction ht
      refine mem_filter.mpr ⟨h.establishing transaction ht, ?_⟩
      have hne : transaction.connection ≠ connection :=
        fun heq => hopening transaction heq (.inr ht)
      simpa using hne
    stored := by
      intro transaction ht
      cases h.stored transaction ht with
      | rollback pending => exact .rollback pending
      | reset queued => exact .reset queued
      | establishing registered completing =>
        refine .establishing (mem_filter.mpr ⟨registered, ?_⟩) completing
        have hne : transaction.connection ≠ connection :=
          fun heq => hopening transaction heq (.inr completing)
        simpa using hne
      | established registered established =>
        by_cases heq : transaction.connection = connection
        · exact .rollback (hestab transaction established heq)
        · exact .established (mem_filter.mpr ⟨registered, by simpa using heq⟩) established }

theorem Kept.unregisterConnection (h : Kept transactions [] s)
    (hacc : s.acceptingNewRequests = true)
    (hopening : ∀ transaction, transaction.connection = connection → ¬ s.Opening transaction) :
    Tended transactions (s.unregisterConnection connection) := by
  have hreset : s.resetAllTransactions connection = s.resetTransactions
      (s.establishedTransactions.filter fun transaction => transaction.connection = connection) := by
    unfold resetAllTransactions
    rw [if_neg (by simp [hacc])]
  obtain ⟨hkept, hback, hrolls⟩ := h.resetTransactions hacc
    (s.establishedTransactions.filter fun transaction => transaction.connection = connection)
  rw [← hreset] at hkept hback hrolls
  have hrem := hkept.removeConnection connection (fun transaction ht heq => hrolls transaction
      (mem_filter.mpr ⟨hback.established ▸ ht, by simpa using heq⟩))
    (fun transaction heq hopen => hopening transaction heq <| by
      rcases hopen with ⟨mode, ht⟩ | ht
      · exact .inl ⟨mode, hback.opening transaction mode ht⟩
      · exact .inr (hback.completing ▸ ht))
  unfold UniqueIDBDatabase.unregisterConnection
  simp only
  split
  · exact .of_not_accepting (shutdown_not_accepting _)
  · rename_i hcond
    refine fun _ => ⟨hrem, fun hnone => .inl fun hrolls => hcond ?_⟩
    simp only at hnone hrolls
    simp only [hnone, hrolls]
    rfl

/-- The last connection goes, and nothing has to be rolled back. -/
theorem unregisterConnection_not_accepting (hconns : s.connections.filter (· ≠ connection) = [])
    (hrolls : s.pendingTransactionRollbacks = [])
    (hestab : (s.establishedTransactions.filter fun transaction =>
      transaction.connection = connection) = []) :
    (s.unregisterConnection connection).acceptingNewRequests = false := by
  have hreset : s.resetAllTransactions connection = s := by
    unfold resetAllTransactions
    split
    · rfl
    · rw [hestab]
      rfl
  unfold UniqueIDBDatabase.unregisterConnection
  simp only [hreset, hconns, hrolls]
  exact shutdown_not_accepting _

theorem unregisterConnection_of_not_accepting (h : s.acceptingNewRequests = false) :
    (s.unregisterConnection connection).acceptingNewRequests = false := by
  have hreset : s.resetAllTransactions connection = s := by
    unfold resetAllTransactions
    rw [if_pos (by simp [h])]
  unfold UniqueIDBDatabase.unregisterConnection
  simp only [hreset]
  split
  · exact shutdown_not_accepting _
  · exact h

/-- Nothing that transactions depend on changes; other tasks may be queued. -/
theorem Tended.of_same (h : Tended transactions s) (extra : List DatabaseTask)
    (hacc : t.acceptingNewRequests = s.acceptingNewRequests)
    (hdb : t.databaseTasks = s.databaseTasks ++ extra)
    (hextra : ∀ task ∈ extra, task.transactions = [] ∧ task.isShutdown = false)
    (hcomp : t.completing = s.completing)
    (hpend : t.pendingTransactionRequests = s.pendingTransactionRequests)
    (hrolls : t.pendingTransactionRollbacks = s.pendingTransactionRollbacks)
    (hconns : t.connections = s.connections)
    (hestab : t.establishedTransactions = s.establishedTransactions) :
    Tended transactions t := by
  intro haccepts
  obtain ⟨hkept, hwatched⟩ := h (hacc ▸ haccepts)
  constructor
  · exact hkept.of_same extra hdb hextra hcomp hpend hrolls (fun _ => hconns ▸ id) hestab
  · exact hwatched.of_same (fun hnone => hconns ▸ hnone) hrolls fun _ => hpend ▸ id

theorem Tended.getOrEstablishIDBDatabaseMetadata (h : Tended transactions s) (requestID : ℕ) :
    Tended transactions (s.getOrEstablishIDBDatabaseMetadata requestID) := by
  unfold UniqueIDBDatabase.getOrEstablishIDBDatabaseMetadata
  split
  · exact h.of_same [] rfl (append_nil _).symm nofun rfl rfl rfl rfl rfl
  rename_i hacc
  split
  · exact h.of_same [] rfl (append_nil _).symm nofun rfl rfl rfl rfl rfl
  simp only
  split
  · rw [postDatabaseTask_eq]
    · refine h.of_same [.openBackingStoreAndReadMetadata] rfl rfl ?_ rfl rfl rfl rfl rfl
      intro task htask
      rw [mem_singleton.mp htask]
      exact ⟨rfl, rfl⟩
    · simpa using hacc
  · exact h.of_same [] rfl (append_nil _).symm nofun rfl rfl rfl rfl rfl

theorem Tended.requestOperation (h : Tended transactions s) (requestID : ℕ)
    (operation : DatabaseOperation) :
    Tended transactions (s.requestOperation requestID operation) := by
  cases hacc : s.acceptingNewRequests with
  | false =>
    rw [requestOperation_of_not_accepting hacc]
    exact .of_not_accepting hacc
  | true =>
    rw [requestOperation_of_accepting hacc]
    refine h.of_same [.operation requestID operation] rfl rfl ?_ rfl rfl rfl rfl rfl
    intro task htask
    rw [mem_singleton.mp htask]
    exact ⟨rfl, rfl⟩

theorem completing_post {task : MainThreadTask} {type : DatabaseTaskType}
    {posting : List (MainThreadTask × DatabaseTaskType)}
    (hpost : s.posting = (task, type) :: posting) :
    completing { s with posting := posting, mainThreadTasks := s.mainThreadTasks ++ [task] } =
      s.completing := by
  unfold completing
  rw [hpost, map_cons]
  exact append_assoc ..

theorem Kept.transactionOperation (h : Kept transactions [] s) (hwatched : s.Watched)
    (hacc : s.acceptingNewRequests = true) (hreg : transaction.connection ∈ s.connections)
    (requestID : ℕ) (operation : TransactionOperation) :
    Tended transactions (s.transactionOperation requestID transaction operation) := by
  unfold UniqueIDBDatabase.transactionOperation postTransactionOperation
  rw [if_neg (by simp [hacc])]
  split
  · exact fun _ => ⟨h.of_same [] (append_nil _).symm nofun rfl rfl rfl (fun _ => id) rfl, hwatched⟩
  · rename_i hpend
    have hnot := not_mem_of_not_hasPending (Bool.not_eq_true _ ▸ hpend)
    rw [postDatabaseTask_eq hacc]
    refine fun _ => ⟨?_, hwatched.of_same id rfl fun _ => mem_append_left _⟩
    exact h.weaken.posted hnot (fun _ => id) (fun _ => .inl) fun _ _ => hreg

theorem foldl_answer_metadata (ids : List ℕ) (s : UniqueIDBDatabase) :
    ∃ answers, ids.foldl (fun s id => s.answer id (.completed s.metadata.isSome)) s =
      { s with answers := answers } := by
  induction ids generalizing s with
  | nil => exact ⟨s.answers, rfl⟩
  | cons id ids ih =>
    obtain ⟨answers, hfold⟩ := ih (s.answer id (.completed s.metadata.isSome))
    refine ⟨answers, ?_⟩
    rw [foldl_cons, hfold]
    rfl

theorem didOpenBackingStoreAndReadMetadata_eq (metadata : Option DatabaseMetadata) :
    ∃ read answers, s.didOpenBackingStoreAndReadMetadata metadata =
      { s with
        didGetMetadataFromBackingStore := true
        metadata := read
        pendingMetadataRequests := []
        answers := answers } := by
  exact ⟨_, foldl_answer_metadata s.pendingMetadataRequests _⟩

theorem Kept.performMainThreadTask (h : Kept transactions [] s) (hwatched : s.Watched)
    (hacc : s.acceptingNewRequests = true) {task : MainThreadTask}
    {tasks : List MainThreadTask} (hmain : s.mainThreadTasks = task :: tasks) :
    Tended transactions (performMainThreadTask { s with mainThreadTasks := tasks } task) := by
  have hkept : ∀ established : List IDBIdentifier, task.transactions = [] →
      (∀ transaction ∈ transactions, transaction ∈ s.establishedTransactions →
        transaction ∈ established) →
      (∀ transaction, task = .didEstablishTransaction transaction true →
        transaction ∈ established) →
      Kept transactions [] { s with
        mainThreadTasks := tasks
        establishedTransactions := established } :=
    fun _ hnone hold hnew => h.pop hmain hnone hold hnew
  cases task with
  | didOpenBackingStoreAndReadMetadata metadata =>
    intro _
    show Kept _ _ (didOpenBackingStoreAndReadMetadata _ _) ∧
      Watched (didOpenBackingStoreAndReadMetadata _ _)
    obtain ⟨read, answers, heq⟩ :=
      @didOpenBackingStoreAndReadMetadata_eq { s with mainThreadTasks := tasks } metadata
    rw [heq]
    refine ⟨?_, hwatched.of_same id rfl fun _ => id⟩
    exact (hkept _ rfl (fun _ _ => id) nofun).of_same [] (append_nil _).symm nofun
      rfl rfl rfl (fun _ => id) rfl
  | didEstablishTransaction transaction success =>
    refine fun _ => ⟨?_, ?_⟩
    · cases success with
      | false => exact hkept _ rfl (fun _ _ => id) nofun
      | true =>
        apply hkept _ rfl
        · intro other _ hother
          split
          · exact hother
          · exact mem_append_left _ hother
        · intro other heq
          cases heq
          split
          · assumption
          · exact mem_append_right _ (mem_singleton_self _)
    · cases success <;> exact hwatched.of_same id rfl fun _ => id
  | didResetTransaction transaction success =>
    refine fun _ => ⟨?_, ?_⟩
    · cases success with
      | false => exact hkept _ rfl (fun _ _ => id) nofun
      | true =>
        apply hkept _ rfl _ nofun
        intro other hstored hother
        refine mem_filter.mpr ⟨hother, ?_⟩
        have hne : other ≠ transaction := by
          rintro rfl
          refine h.resetting other true ?_ hstored
          unfold completing
          rw [hmain]
          exact mem_cons_self ..
        simpa using hne
    · cases success <;> exact hwatched.of_same id rfl fun _ => id
  | didCompleteTransactionOperation transaction success =>
    exact h.didCompleteTransactionOperation hwatched hacc hmain
  | didCompleteRequest requestID success =>
    have hpopped := hkept s.establishedTransactions rfl (fun _ _ => id) nofun
    show Tended transactions (didCompleteRequest _ _ _)
    unfold didCompleteRequest
    split <;>
      exact fun _ => ⟨hpopped.of_same [] (append_nil _).symm nofun rfl rfl rfl
        (fun _ => id) rfl, hwatched.of_same id rfl fun _ => id⟩
  | didShutdownBackingStore type =>
    have hfalse := h.noShutdownCompleting (.didShutdownBackingStore type) <| by
      unfold completing
      rw [hmain]
      exact mem_cons_self ..
    cases hfalse

theorem performCompletion_not_accepting (h : s.acceptingNewRequests = false)
    (task : MainThreadTask) : (s.performCompletion task).acceptingNewRequests = false := by
  cases task with
  | didOpenBackingStoreAndReadMetadata metadata =>
    show (s.didOpenBackingStoreAndReadMetadata metadata).acceptingNewRequests = false
    obtain ⟨read, answers, heq⟩ := @didOpenBackingStoreAndReadMetadata_eq s metadata
    rw [heq]
    exact h
  | didEstablishTransaction _ success | didResetTransaction _ success => cases success <;> exact h
  | didCompleteTransactionOperation transaction success =>
    have hcontinued : ∀ called : UniqueIDBDatabase, called.acceptingNewRequests = false →
        (if transaction ∈ called.pendingTransactionRollbacks
          then called.finalizeRollback transaction else called).acceptingNewRequests = false := by
      intro called hnot
      split
      · exact finalizeRollback_not_accepting hnot
      · exact hnot
    apply hcontinued
    split
    · exact h
    · apply callTransactionCallback_not_accepting
      exact h
  | didCompleteRequest requestID success =>
    show (s.didCompleteRequest requestID success).acceptingNewRequests = false
    unfold didCompleteRequest
    split <;> exact h
  | didShutdownBackingStore type => exact h

theorem foldl_performCompletion_not_accepting (tasks : List MainThreadTask)
    (h : s.acceptingNewRequests = false) :
    (tasks.foldl performCompletion s).acceptingNewRequests = false := by
  induction tasks generalizing s with
  | nil => exact h
  | cons task tasks ih => exact ih (performCompletion_not_accepting h task)

theorem didShutdownBackingStore_not_accepting (h : s.acceptingNewRequests = false)
    (type : ShutdownType) : (s.didShutdownBackingStore type).acceptingNewRequests = false := by
  have hdrained : (s.mainThreadTasks.foldl performCompletion
      { s with mainThreadTasks := [] }).acceptingNewRequests = false :=
    foldl_performCompletion_not_accepting _ h
  obtain ⟨metadata, habort⟩ := abortRequests_of_not_accepting hdrained
  unfold didShutdownBackingStore
  simp only [habort]
  split <;> exact hdrained

theorem performMainThreadTask_not_accepting (h : s.acceptingNewRequests = false)
    (task : MainThreadTask) : (s.performMainThreadTask task).acceptingNewRequests = false := by
  cases task with
  | didShutdownBackingStore type => exact didShutdownBackingStore_not_accepting h type
  | _ => exact performCompletion_not_accepting h _

theorem apply_not_accepting {event : Event} (h : s.acceptingNewRequests = false)
    (happly : s.apply event = some t) : t.acceptingNewRequests = false := by
  cases event with
  | registerConnection | performNextDatabaseTask | callOnMainThread =>
    simp only [apply] at happly
    split at happly <;> cases happly
    exact h
  | unregisterConnection connection =>
    simp only [apply] at happly
    split at happly <;> cases happly
    exact unregisterConnection_of_not_accepting h
  | getOrEstablishIDBDatabaseMetadata =>
    cases happly
    simp only [withNextRequestID, getOrEstablishIDBDatabaseMetadata]
    rw [if_pos (by simp [h])]
    exact h
  | transactionOperation transaction operation =>
    cases happly
    simp only [withNextRequestID, transactionOperation, postTransactionOperation]
    rw [if_pos (by simp [h])]
    exact h
  | requestOperation operation =>
    cases happly
    simp only [withNextRequestID, requestOperation]
    rw [if_pos (by simp [h])]
    exact h
  | deleteDatabase =>
    cases happly
    simp only [withNextRequestID, deleteDatabase]
    rw [if_pos (by simp [h])]
    exact h
  | postMainThreadTask =>
    simp only [apply] at happly
    split at happly
    · cases happly
    · split at happly <;> cases happly <;> exact h
  | performNextMainThreadTask =>
    simp only [apply] at happly
    split at happly
    · cases happly
    · cases happly
      apply performMainThreadTask_not_accepting
      exact h

end UniqueIDBDatabase

namespace BackedDatabase

open UniqueIDBDatabase

variable {s t : BackedDatabase}

/-! ## Runs -/

/-- A connection is unregistered when its transactions are not just being opened, or when that
shuts the database down. -/
def OpensEstablished (s : BackedDatabase) : UniqueIDBDatabase.Event → Prop
  | .unregisterConnection connection =>
    (∀ transaction : IDBIdentifier, transaction.connection = connection →
      ¬ s.database.Opening transaction) ∨
    s.database.connections.filter (· ≠ connection) = [] ∧
      s.database.pendingTransactionRollbacks = [] ∧
      (s.database.establishedTransactions.filter fun transaction =>
        transaction.connection = connection) = []
  | _ => True

theorem exists_apply {event : UniqueIDBDatabase.Event} (h : s.apply event = some t) :
    ∃ event', s.database.apply event' = some t.database := by
  unfold apply at h
  split at h
  · split at h
    · cases h
    · obtain ⟨database, happly, rfl⟩ := map_eq_some_iff.mp h
      exact ⟨_, happly⟩
  · obtain ⟨database, happly, rfl⟩ := map_eq_some_iff.mp h
    exact ⟨_, happly⟩

theorem tended_step {event : UniqueIDBDatabase.Event} (h : Tended s.transactions s.database)
    (hguard : s.OpensEstablished event) (hstep : s.Step event t) :
    Tended t.transactions t.database := by
  obtain ⟨-, hconn, happly⟩ := hstep
  cases hacc : s.database.acceptingNewRequests with
  | false =>
    obtain ⟨event', hevent⟩ := exists_apply happly
    exact .of_not_accepting (apply_not_accepting hacc hevent)
  | true =>
    obtain ⟨hkept, hwatched⟩ := h hacc
    have hnext : Tended s.transactions
        { s.database with nextRequestID := s.database.nextRequestID + 1 } :=
      h.of_same [] rfl (append_nil _).symm (forall_mem_nil _) rfl rfl rfl rfl rfl
    obtain ⟨hkeptNext, hwatchedNext⟩ := hnext hacc
    cases event with
    | registerConnection connection =>
      obtain ⟨database, happl, rfl⟩ := map_eq_some_iff.mp happly
      simp only [UniqueIDBDatabase.apply] at happl
      split at happl <;> cases happl
      refine fun _ => ⟨?_, fun hnone =>
        absurd hnone (append_ne_nil_of_right_ne_nil _ (cons_ne_nil _ _))⟩
      exact hkept.of_same [] (append_nil _).symm (forall_mem_nil _) rfl rfl rfl
        (fun _ => mem_append_left _) rfl
    | unregisterConnection connection =>
      obtain ⟨database, happl, rfl⟩ := map_eq_some_iff.mp happly
      simp only [UniqueIDBDatabase.apply] at happl
      split at happl <;> cases happl
      rcases hguard with hopening | ⟨hconns, hrolls, hestab⟩
      · exact hkept.unregisterConnection hacc hopening
      · exact .of_not_accepting (unregisterConnection_not_accepting hconns hrolls hestab)
    | getOrEstablishIDBDatabaseMetadata =>
      cases happly
      exact hnext.getOrEstablishIDBDatabaseMetadata _
    | transactionOperation transaction operation =>
      cases happly
      exact hkeptNext.transactionOperation hwatchedNext hacc hconn _ _
    | requestOperation operation =>
      cases happly
      exact hnext.requestOperation _ _
    | deleteDatabase =>
      cases happly
      apply Tended.of_not_accepting
      simp only [withNextRequestID, deleteDatabase]
      rw [if_neg (by simp [hacc])]
      exact shutdown_not_accepting _
    | performNextDatabaseTask result metadata =>
      simp only [apply] at happly
      split at happly
      · cases happly
      · rename_i task tasks hdb
        obtain ⟨database, happl, rfl⟩ := map_eq_some_iff.mp happly
        simp only [UniqueIDBDatabase.apply] at happl
        split at happl
        · rename_i task' tasks' hpost hdb'
          rw [hdb] at hdb'
          cases hdb'
          cases happl
          exact fun _ => ⟨hkept.perform hpost hdb result metadata,
            hwatched.of_same id rfl fun _ => id⟩
        · cases happl
    | postMainThreadTask =>
      obtain ⟨database, happl, rfl⟩ := map_eq_some_iff.mp happly
      simp only [UniqueIDBDatabase.apply] at happl
      split at happl
      · cases happl
      · rename_i task type posting hpost
        rw [if_neg (by simp [hacc])] at happl
        cases happl
        exact h.of_same [] rfl (append_nil _).symm (forall_mem_nil _) (completing_post hpost)
          rfl rfl rfl rfl
    | performNextMainThreadTask =>
      obtain ⟨database, happl, rfl⟩ := map_eq_some_iff.mp happly
      simp only [UniqueIDBDatabase.apply] at happl
      split at happl
      · cases happl
      · rename_i task tasks hmain
        cases happl
        exact hkept.performMainThreadTask hwatched hacc hmain
    | callOnMainThread =>
      obtain ⟨database, happl, rfl⟩ := map_eq_some_iff.mp happly
      simp only [UniqueIDBDatabase.apply] at happl
      split at happl <;> cases happl
      exact h.of_same [] rfl (append_nil _).symm (forall_mem_nil _) rfl rfl rfl rfl rfl

theorem tended_create (inMemory : Bool) (connection : ℕ) :
    Tended ∅ (UniqueIDBDatabase.create inMemory connection) := by
  refine fun _ => ⟨⟨nofun, nofun, nodup_nil, List.Perm.nil, trivial, nofun, nofun, nofun,
    nofun, nofun⟩, nofun⟩

/-- No transaction and no rollback is left behind. -/
structure NoOrphans (s : BackedDatabase) : Prop where
  transactions : ∀ transaction ∈ s.transactions,
    transaction.connection ∈ s.database.connections
  rollbacks : s.database.pendingTransactionRollbacks = []
  connections : s.database.connections ≠ []

theorem noOrphans_of_tended (h : Tended s.transactions s.database)
    (hacc : s.database.acceptingNewRequests = true) (hidle : s.Idle) : s.NoOrphans := by
  obtain ⟨hkept, hwatched⟩ := h hacc
  obtain ⟨hdb, hpost, hmain⟩ := hidle
  have hcomp : s.database.completing = [] := by
    unfold completing
    rw [hmain, hpost]
    rfl
  have hpend : s.database.pendingTransactionRequests.map Prod.fst = [] := by
    have hperm := hkept.operating
    unfold operating at hperm
    rw [hcomp, hdb] at hperm
    exact hperm.nil_eq.symm
  have hrolls : s.database.pendingTransactionRollbacks = [] := by
    rw [eq_nil_iff_forall_not_mem]
    intro transaction ht
    rcases hkept.rollbacks transaction ht with hmem | hexempt
    · rw [hpend] at hmem
      cases hmem
    · cases hexempt
  refine ⟨?_, hrolls, ?_⟩
  · intro transaction ht
    cases hkept.stored transaction ht with
    | rollback pending =>
      rw [hrolls] at pending
      cases pending
    | reset queued =>
      rw [hdb] at queued
      cases queued
    | establishing registered | established registered => exact registered
  · intro hnone
    rcases hwatched hnone with hroll | ⟨transaction, hreset⟩
    · exact hroll hrolls
    · rw [map_eq_nil_iff.mp hpend] at hreset
      cases hreset

/-- While requests are accepted, a database at rest has no transaction of a connection that has
gone, if no connection goes while a transaction of it is being opened. -/
theorem no_orphaned_transaction {inMemory : Bool} {connection : ℕ}
    {events : List UniqueIDBDatabase.Event}
    (h : Run (guarded Step OpensEstablished) (create inMemory connection) events s)
    (haccepting : s.database.acceptingNewRequests = true) (hidle : s.Idle) : s.NoOrphans := by
  have htended : Tended s.transactions s.database :=
    h.preserves (I := fun s => Tended s.transactions s.database)
      (fun _ _ _ hs hstep => tended_step hs hstep.1 hstep.2) (tended_create inMemory connection)
  exact noOrphans_of_tended htended haccepting hidle

/-- A database without object stores. -/
def emptyMetadata : DatabaseMetadata where
  name := "database"
  id := 1
  version := 1
  maxObjectStoreId := 0
  objectStores := fun _ => none

/-- A connection goes when its transaction has been opened: the transaction is rolled back and
reset. -/
theorem no_orphaned_transaction_rollback :
    ∃ s, Run (guarded Step OpensEstablished) (create false 1)
        [.registerConnection 2, .getOrEstablishIDBDatabaseMetadata,
          .performNextDatabaseTask true (some emptyMetadata), .postMainThreadTask, .performNextMainThreadTask,
          .transactionOperation ⟨2, 7⟩ (.openTransaction .readOnly),
          .performNextDatabaseTask true none, .postMainThreadTask, .postMainThreadTask,
          .performNextMainThreadTask, .performNextMainThreadTask, .unregisterConnection 2,
          .performNextDatabaseTask false none, .postMainThreadTask, .performNextMainThreadTask,
          .performNextDatabaseTask true none, .postMainThreadTask, .postMainThreadTask,
          .performNextMainThreadTask, .performNextMainThreadTask] s ∧
      s.transactions = ∅ ∧ s.NoOrphans := by
  refine Exists.imp (fun s (h : Run (guarded Step OpensEstablished) _ _ s ∧
      s.database.acceptingNewRequests = true ∧ s.Idle ∧ _) =>
    ⟨h.1, h.2.2.2, no_orphaned_transaction h.1 h.2.1 h.2.2.1⟩) ?_
  refine ⟨_,
    .cons ⟨trivial, trivial, trivial, rfl⟩ <| .cons ⟨trivial, trivial, trivial, rfl⟩ <|
    .cons ⟨trivial, trivial, trivial, rfl⟩ <| .cons ⟨trivial, trivial, trivial, rfl⟩ <|
    .cons ⟨trivial, trivial, trivial, rfl⟩ <| .cons ⟨trivial, trivial, .tail _ (.head _), rfl⟩ <|
    .cons ⟨trivial, trivial, trivial, rfl⟩ <| .cons ⟨trivial, trivial, trivial, rfl⟩ <|
    .cons ⟨trivial, trivial, trivial, rfl⟩ <| .cons ⟨trivial, trivial, trivial, rfl⟩ <|
    .cons ⟨trivial, trivial, trivial, rfl⟩ <| .cons ⟨.inl ?_, trivial, trivial, rfl⟩ <|
    .cons ⟨trivial, trivial, trivial, rfl⟩ <| .cons ⟨trivial, trivial, trivial, rfl⟩ <|
    .cons ⟨trivial, trivial, trivial, rfl⟩ <| .cons ⟨trivial, trivial, trivial, rfl⟩ <|
    .cons ⟨trivial, trivial, trivial, rfl⟩ <| .cons ⟨trivial, trivial, trivial, rfl⟩ <|
    .cons ⟨trivial, trivial, trivial, rfl⟩ <| .cons ⟨trivial, trivial, trivial, rfl⟩ <| .nil _,
    rfl, ⟨rfl, rfl, rfl⟩, rfl⟩
  rintro transaction - (⟨mode, htask⟩ | htask) <;> cases htask

/-- A connection goes while its transaction is being opened, and the transaction stays. -/
theorem not_no_orphaned_transaction :
    ¬ ∀ (inMemory : Bool) (connection : ℕ) (events : List UniqueIDBDatabase.Event)
        (s : BackedDatabase),
      Run Step (create inMemory connection) events s →
      s.database.acceptingNewRequests = true → s.Idle → s.NoOrphans := by
  intro h
  obtain ⟨s, hrun, haccepting, hidle, hstored, hconnections⟩ :
      ∃ s, Run Step (create false 1)
        [.registerConnection 2, .getOrEstablishIDBDatabaseMetadata,
          .performNextDatabaseTask true (some emptyMetadata), .postMainThreadTask, .performNextMainThreadTask,
          .transactionOperation ⟨2, 7⟩ (.openTransaction .readOnly), .unregisterConnection 2,
          .performNextDatabaseTask true none, .postMainThreadTask, .postMainThreadTask,
          .performNextMainThreadTask, .performNextMainThreadTask] s ∧
      s.database.acceptingNewRequests = true ∧ s.Idle ∧ s.transactions = {⟨2, 7⟩} ∧
      s.database.connections = [1] := by
    refine ⟨_,
      .cons ⟨trivial, trivial, rfl⟩ <| .cons ⟨trivial, trivial, rfl⟩ <|
      .cons ⟨trivial, trivial, rfl⟩ <| .cons ⟨trivial, trivial, rfl⟩ <|
      .cons ⟨trivial, trivial, rfl⟩ <| .cons ⟨trivial, .tail _ (.head _), rfl⟩ <|
      .cons ⟨trivial, trivial, rfl⟩ <| .cons ⟨trivial, trivial, rfl⟩ <|
      .cons ⟨trivial, trivial, rfl⟩ <| .cons ⟨trivial, trivial, rfl⟩ <|
      .cons ⟨trivial, trivial, rfl⟩ <| .cons ⟨trivial, trivial, rfl⟩ <| .nil _,
      rfl, ⟨rfl, rfl, rfl⟩, rfl, rfl⟩
  have horphan := (h _ _ _ _ hrun haccepting hidle).transactions ⟨2, 7⟩
    (by rw [hstored]; exact Finset.mem_singleton_self _)
  rw [hconnections] at horphan
  simp at horphan

end BackedDatabase

end WebKit.IndexedDB
