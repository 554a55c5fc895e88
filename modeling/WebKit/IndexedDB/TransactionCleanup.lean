import Mathlib.Data.Finset.Erase
import Mathlib.Data.Finset.Insert
import WebKit.IndexedDB.RequestAnswersRun

/-!
# The database with the transactions of its backing store

`m_transactions` decides which transactions can be established and reset; it is cleared with the
backing store. Everything else that a task does in the backing store has any result.
-/

open List

namespace WebKit.IndexedDB

open MainThreadTask Prod

/-- The part of a task in `m_transactions`: its result, and what is there afterwards. -/
def DatabaseTask.perform (transactions : Finset IDBIdentifier) (result : Bool) :
    DatabaseTask → Bool × Finset IDBIdentifier
  | .transactionOperation transaction (.openTransaction _) =>
    (decide (transaction ∉ transactions), insert transaction transactions)
  | .transactionOperation transaction .resetTransaction =>
    (decide (transaction ∈ transactions), transactions.erase transaction)
  | .shutdownBackingStore _ => (result, ∅)
  | _ => (result, transactions)

structure BackedDatabase where
  database : UniqueIDBDatabase
  transactions : Finset IDBIdentifier

namespace BackedDatabase

open UniqueIDBDatabase

variable (s : BackedDatabase)

def apply : UniqueIDBDatabase.Event → Option BackedDatabase
  | .performNextDatabaseTask result metadata =>
    match s.database.databaseTasks with
    | [] => none
    | task :: _ =>
      let performed := task.perform s.transactions result
      (s.database.apply (.performNextDatabaseTask performed.1 metadata)).map fun database =>
        ⟨database, performed.2⟩
  | event => (s.database.apply event).map fun database => ⟨database, s.transactions⟩

/-- The transactions of a request are those of a registered connection. -/
def FromConnection : UniqueIDBDatabase.Event → Prop
  | .transactionOperation transaction _ => transaction.connection ∈ s.database.connections
  | _ => True

def Step (s : BackedDatabase) (event : UniqueIDBDatabase.Event) (t : BackedDatabase) : Prop :=
  s.database.Allowed event ∧ s.FromConnection event ∧ s.apply event = some t

def create (inMemory : Bool) (connection : ℕ) : BackedDatabase :=
  ⟨.create inMemory connection, ∅⟩

/-- No task is queued or running. -/
def Idle : Prop :=
  s.database.databaseTasks = [] ∧ s.database.posting = [] ∧ s.database.mainThreadTasks = []

end BackedDatabase

/-!
## No transaction is left behind

While requests are accepted, every transaction of the backing store is attended to (`Attended`):
its rollback waits or its reset is queued, or its connection is registered and knows of it, or
will. A rollback that waits has an operation of its transaction on the way, whose completion
goes on with it. So when nothing is on the way, nothing waits.

An unregistered connection leaves a transaction behind when the transaction was still being
opened: `m_establishedTransactions` does not have it yet.
-/

open Transition

variable {tasks : List MainThreadTask}

namespace MainThreadTask

/-- The transaction that the next completion is about. -/
def announced : MainThreadTask → List IDBIdentifier
  | .didEstablishTransaction transaction _ | .didResetTransaction transaction _ => [transaction]
  | _ => []

/-- What is announced is completed later. -/
def Announced : List MainThreadTask → Prop
  | [] => True
  | task :: tasks =>
    (∀ transaction ∈ task.announced, transaction ∈ tasks.flatMap transactions) ∧ Announced tasks

theorem Announced.append {tasks tasks' : List MainThreadTask} (h : Announced tasks)
    (h' : Announced tasks') : Announced (tasks ++ tasks') := by
  induction tasks with
  | nil => exact h'
  | cons task tasks ih =>
    refine ⟨fun transaction ht => ?_, ih h.2⟩
    show transaction ∈ (tasks ++ tasks').flatMap transactions
    rw [flatMap_append]
    exact mem_append_left _ (h.1 transaction ht)

theorem Announced.mem_transactions (h : Announced tasks)
    {task : MainThreadTask} (hmem : task ∈ tasks) {transaction : IDBIdentifier}
    (ht : transaction ∈ task.announced) :
    transaction ∈ tasks.flatMap transactions := by
  induction tasks with
  | nil => cases hmem
  | cons first tasks ih =>
    apply mem_append_right
    rcases mem_cons.mp hmem with rfl | hmem
    · exact h.1 transaction ht
    · exact ih h.2 hmem

end MainThreadTask

open MainThreadTask (Announced)

theorem DatabaseTask.announced_completions {task : DatabaseTask} {inMemory success : Bool}
    {metadata : Option DatabaseMetadata} :
    Announced ((task.completions inMemory success metadata).map fst) := by
  cases task with
  | openBackingStoreAndReadMetadata =>
    cases inMemory <;> simp [completions, Announced, MainThreadTask.announced]
  | transactionOperation transaction operation =>
    cases operation <;>
      simp [completions, Announced, MainThreadTask.announced, MainThreadTask.transactions]
  | operation requestID operation =>
    cases operation <;> cases success <;>
      simp [completions, Announced, announced]
  | shutdownBackingStore type => simp [completions, Announced, announced]

namespace UniqueIDBDatabase

variable {s t : UniqueIDBDatabase} {transactions : Finset IDBIdentifier}
  {transaction : IDBIdentifier} {exempt : List IDBIdentifier}

/-- The completions that have been posted or are to be posted. -/
def completing (s : UniqueIDBDatabase) : List MainThreadTask :=
  s.mainThreadTasks ++ s.posting.map fst

/-- The transactions with an operation that has not been completed. -/
def operating (s : UniqueIDBDatabase) : List IDBIdentifier :=
  s.completing.flatMap MainThreadTask.transactions ++
    s.databaseTasks.flatMap DatabaseTask.transactions

/-- Why a transaction of the backing store is not left behind. -/
inductive Attended (s : UniqueIDBDatabase) (transaction : IDBIdentifier) : Prop
  | rollback (pending : transaction ∈ s.pendingTransactionRollbacks)
  | reset (queued : .transactionOperation transaction .resetTransaction ∈ s.databaseTasks)
  | establishing (registered : transaction.connection ∈ s.connections)
      (completing : .didEstablishTransaction transaction true ∈ s.completing)
  | established (registered : transaction.connection ∈ s.connections)
      (established : transaction ∈ s.establishedTransactions)

/-- The state of the transactions, apart from the rollbacks that are just being continued. -/
structure Kept (transactions : Finset IDBIdentifier) (exempt : List IDBIdentifier)
    (s : UniqueIDBDatabase) : Prop where
  noShutdownQueued : ∀ task ∈ s.databaseTasks, task.isShutdown = false
  noShutdownCompleting : ∀ task ∈ s.completing, task.isShutdown = false
  distinct : (s.pendingTransactionRequests.map fst).Nodup
  operating : s.operating.Perm (s.pendingTransactionRequests.map fst)
  announced : Announced s.completing
  rollbacks : ∀ transaction ∈ s.pendingTransactionRollbacks,
    transaction ∈ s.pendingTransactionRequests.map fst ∨ transaction ∈ exempt
  opening : ∀ transaction mode,
    .transactionOperation transaction (.openTransaction mode) ∈ s.databaseTasks →
      transaction.connection ∈ s.connections
  establishing : ∀ transaction, .didEstablishTransaction transaction true ∈ s.completing →
    transaction.connection ∈ s.connections
  resetting : ∀ transaction success,
    .didResetTransaction transaction success ∈ s.completing → transaction ∉ transactions
  stored : ∀ transaction ∈ transactions, s.Attended transaction

/-- Without a connection, a rollback or a reset will shut the database down. -/
def Watched (s : UniqueIDBDatabase) : Prop :=
  s.connections = [] → s.pendingTransactionRollbacks ≠ [] ∨
    ∃ transaction, (transaction, .didReset) ∈ s.pendingTransactionRequests

theorem Kept.weaken (h : Kept transactions [] s) : Kept transactions exempt s :=
  { h with
    rollbacks := fun transaction ht => .inl <| (h.rollbacks transaction ht).elim id nofun }

theorem Kept.of_same (h : Kept transactions exempt s) (extra : List DatabaseTask)
    (hdb : t.databaseTasks = s.databaseTasks ++ extra)
    (hextra : ∀ task ∈ extra, task.transactions = [] ∧ task.isShutdown = false)
    (hcomp : t.completing = s.completing)
    (hpend : t.pendingTransactionRequests = s.pendingTransactionRequests)
    (hrolls : t.pendingTransactionRollbacks = s.pendingTransactionRollbacks)
    (hconns : ∀ connection ∈ s.connections, connection ∈ t.connections)
    (hestab : t.establishedTransactions = s.establishedTransactions) :
    Kept transactions exempt t where
  noShutdownQueued := by
    rw [hdb]
    intro task htask
    rcases mem_append.mp htask with hold | hnew
    · exact h.noShutdownQueued task hold
    · exact (hextra task hnew).2
  noShutdownCompleting := by
    rw [hcomp]
    exact h.noShutdownCompleting
  distinct := by
    rw [hpend]
    exact h.distinct
  operating := by
    have hnone : extra.flatMap DatabaseTask.transactions = [] := by
      rw [flatMap_eq_nil_iff]
      exact fun task htask => (hextra task htask).1
    unfold UniqueIDBDatabase.operating
    rw [hdb, hcomp, hpend, flatMap_append, hnone, append_nil]
    exact h.operating
  announced := by
    rw [hcomp]
    exact h.announced
  rollbacks := by
    rw [hrolls, hpend]
    exact h.rollbacks
  opening := by
    intro transaction mode htask
    rw [hdb] at htask
    rcases mem_append.mp htask with hold | hnew
    · exact hconns _ (h.opening transaction mode hold)
    · cases (hextra _ hnew).1
  establishing := by
    rw [hcomp]
    exact fun transaction htask => hconns _ (h.establishing transaction htask)
  resetting := by
    rw [hcomp]
    exact h.resetting
  stored := by
    intro transaction ht
    cases h.stored transaction ht with
    | rollback pending => exact .rollback (hrolls ▸ pending)
    | reset queued => exact .reset (hdb ▸ mem_append_left _ queued)
    | establishing registered completing =>
      exact .establishing (hconns _ registered) (hcomp ▸ completing)
    | established registered established =>
      exact .established (hconns _ registered) (hestab ▸ established)

/-- An operation of a transaction without one is queued. Its reset may take the place of its
rollback. -/
theorem Kept.posted (h : Kept transactions (transaction :: exempt) s)
    (hnot : transaction ∉ s.pendingTransactionRequests.map Prod.fst)
    {operation : TransactionOperation} {callback : TransactionCallback}
    {rollbacks : List IDBIdentifier}
    (hfewer : ∀ other ∈ rollbacks, other ∈ s.pendingTransactionRollbacks)
    (hreset : ∀ other ∈ s.pendingTransactionRollbacks,
      other ∈ rollbacks ∨ other = transaction ∧ operation = .resetTransaction)
    (hopen : ∀ mode, operation = .openTransaction mode → transaction.connection ∈ s.connections) :
    Kept transactions exempt { s with
      pendingTransactionRollbacks := rollbacks
      databaseTasks := s.databaseTasks ++ [.transactionOperation transaction operation]
      pendingTransactionRequests := s.pendingTransactionRequests ++ [(transaction, callback)] } := by
  have hkeys : (s.pendingTransactionRequests ++ [(transaction, callback)]).map Prod.fst =
      s.pendingTransactionRequests.map Prod.fst ++ [transaction] := map_append
  constructor
  case noShutdownQueued =>
    intro task htask
    rcases mem_append.mp htask with hold | hnew
    · exact h.noShutdownQueued task hold
    · rw [mem_singleton.mp hnew]
      rfl
  case noShutdownCompleting => exact h.noShutdownCompleting
  case distinct =>
    rw [hkeys]
    refine nodup_append.mpr ⟨h.distinct, nodup_singleton _, ?_⟩
    intro a ha b hb hab
    rw [mem_singleton.mp hb] at hab
    exact hnot (hab ▸ ha)
  case operating =>
    rw [hkeys]
    show (s.completing.flatMap MainThreadTask.transactions ++
      (s.databaseTasks ++ [DatabaseTask.transactionOperation transaction operation]).flatMap
        DatabaseTask.transactions).Perm _
    rw [flatMap_append, ← append_assoc]
    exact h.operating.append_right _
  case announced => exact h.announced
  case rollbacks =>
    rw [hkeys]
    intro other hother
    rcases h.rollbacks other (hfewer other hother) with hpend | hexempt
    · exact .inl (mem_append_left _ hpend)
    · rcases mem_cons.mp hexempt with rfl | hexempt
      · exact .inl (mem_append_right _ (mem_singleton_self _))
      · exact .inr hexempt
  case opening =>
    intro other mode htask
    rcases mem_append.mp htask with hold | hnew
    · exact h.opening other mode hold
    · cases mem_singleton.mp hnew
      exact hopen mode rfl
  case establishing => exact h.establishing
  case resetting => exact h.resetting
  case stored =>
    intro other hother
    cases h.stored other hother with
    | rollback pending =>
      rcases hreset other pending with hroll | ⟨rfl, rfl⟩
      · exact .rollback hroll
      · exact .reset (mem_append_right _ (mem_singleton_self _))
    | reset queued => exact .reset (mem_append_left _ queued)
    | establishing registered completing => exact .establishing registered completing
    | established registered established => exact .established registered established

theorem finalizeRollback_eq (hacc : s.acceptingNewRequests = true)
    (hnot : s.hasPendingTransactionRequest transaction = false) :
    s.finalizeRollback transaction =
      { s with
        databaseTasks := s.databaseTasks ++ [.transactionOperation transaction .rollbackTransaction]
        pendingTransactionRequests :=
          s.pendingTransactionRequests ++ [(transaction, .didRollback)] } := by
  unfold finalizeRollback postTransactionOperation
  rw [if_neg (by simp [hacc]), if_neg (by simp [hnot]), postDatabaseTask_eq hacc]

theorem didRollbackCallback_eq (hacc : s.acceptingNewRequests = true)
    (hnot : s.hasPendingTransactionRequest transaction = false) :
    s.didRollbackCallback transaction =
      { s with
        pendingTransactionRollbacks := s.pendingTransactionRollbacks.filter (· ≠ transaction)
        databaseTasks := s.databaseTasks ++ [.transactionOperation transaction .resetTransaction]
        pendingTransactionRequests :=
          s.pendingTransactionRequests ++ [(transaction, .didReset)] } := by
  unfold didRollbackCallback postTransactionOperation
  rw [if_neg (by simp [hnot]), if_neg (by simp [hacc]), if_neg]
  · rw [postDatabaseTask_eq]
    exact hacc
  · show ¬ s.hasPendingTransactionRequest transaction = true
    simp [hnot]

theorem not_hasPending_of_not_mem (h : transaction ∉ s.pendingTransactionRequests.map fst) :
    s.hasPendingTransactionRequest transaction = false := by
  unfold hasPendingTransactionRequest
  rw [any_eq_false]
  intro request hreq heq
  exact h (mem_map.mpr ⟨request, hreq, by simpa using heq⟩)

theorem Kept.finalizeRollback (h : Kept transactions (transaction :: exempt) s)
    (hacc : s.acceptingNewRequests = true)
    (hnot : transaction ∉ s.pendingTransactionRequests.map fst) :
    Kept transactions exempt (s.finalizeRollback transaction) := by
  rw [finalizeRollback_eq hacc (not_hasPending_of_not_mem hnot)]
  exact h.posted hnot (fun _ => id) (fun _ => .inl) nofun

theorem Kept.didRollbackCallback (h : Kept transactions [transaction] s)
    (hacc : s.acceptingNewRequests = true)
    (hnot : transaction ∉ s.pendingTransactionRequests.map fst) :
    Kept transactions [] (s.didRollbackCallback transaction) := by
  rw [didRollbackCallback_eq hacc (not_hasPending_of_not_mem hnot)]
  refine h.posted hnot (fun other hother => (mem_filter.mp hother).1) ?_ nofun
  intro other hother
  by_cases heq : other = transaction
  · exact .inr ⟨heq, rfl⟩
  · exact .inl (mem_filter.mpr ⟨hother, by simpa using heq⟩)

theorem Kept.of_not_mem (h : Kept transactions [transaction] s)
    (hnot : transaction ∉ s.pendingTransactionRollbacks) : Kept transactions [] s :=
  { h with
    rollbacks := by
      intro other hother
      rcases h.rollbacks other hother with hpend | hexempt
      · exact .inl hpend
      · rw [mem_singleton.mp hexempt] at hother
        exact absurd hother hnot }

/-- A completion is taken from the queue. It can change which transactions are established. -/
theorem Kept.pop (h : Kept transactions exempt s) {task : MainThreadTask} (hmain : s.mainThreadTasks = task :: tasks)
    (htrans : task.transactions = []) {established : List IDBIdentifier}
    (hold : ∀ transaction ∈ transactions, transaction ∈ s.establishedTransactions →
      transaction ∈ established)
    (hnew : ∀ transaction, task = .didEstablishTransaction transaction true →
      transaction ∈ established) :
    Kept transactions exempt { s with
      mainThreadTasks := tasks
      establishedTransactions := established } := by
  have hcomp : s.completing =
      task :: completing { s with
        mainThreadTasks := tasks
        establishedTransactions := established } := by
    unfold completing
    rw [hmain]
    rfl
  have hmem : ∀ other ∈ completing { s with
        mainThreadTasks := tasks
        establishedTransactions := established }, other ∈ s.completing := by
    rw [hcomp]
    exact fun other hother => mem_cons_of_mem _ hother
  have hann := h.announced
  rw [hcomp] at hann
  have hoperating : s.operating = UniqueIDBDatabase.operating { s with
        mainThreadTasks := tasks
        establishedTransactions := established } := by
    unfold UniqueIDBDatabase.operating
    rw [hcomp, flatMap_cons, htrans]
    rfl
  exact
    { noShutdownQueued := h.noShutdownQueued
      noShutdownCompleting := fun other hother => h.noShutdownCompleting other (hmem other hother)
      distinct := h.distinct
      operating := hoperating ▸ h.operating
      announced := hann.2
      rollbacks := h.rollbacks
      opening := h.opening
      establishing := fun transaction ht => h.establishing transaction (hmem _ ht)
      resetting := fun transaction success ht => h.resetting transaction success (hmem _ ht)
      stored := by
        intro transaction ht
        cases h.stored transaction ht with
        | rollback pending => exact .rollback pending
        | reset queued => exact .reset queued
        | establishing registered completing =>
          rw [hcomp] at completing
          rcases mem_cons.mp completing with heq | hrest
          · exact .established registered (hnew transaction heq.symm)
          · exact .establishing registered hrest
        | established registered established =>
          exact .established registered (hold transaction ht established) }

theorem Kept.take (h : Kept transactions [] s) {success : Bool} (hmain : s.mainThreadTasks =
      .didCompleteTransactionOperation transaction success :: tasks)
    {requests : List (IDBIdentifier × TransactionCallback)} {callback : TransactionCallback}
    (hperm : s.pendingTransactionRequests.Perm ((transaction, callback) :: requests)) :
    Kept transactions [transaction] { s with
      mainThreadTasks := tasks
      pendingTransactionRequests := requests } := by
  have hkeys := hperm.map Prod.fst
  have hdist := hkeys.nodup_iff.mp h.distinct
  have hcomp : s.completing =
      .didCompleteTransactionOperation transaction success :: completing { s with
        mainThreadTasks := tasks
        pendingTransactionRequests := requests } := by
    unfold completing
    rw [hmain]
    rfl
  have hann := h.announced
  rw [hcomp] at hann
  have hmem : ∀ other ∈ completing { s with
        mainThreadTasks := tasks
        pendingTransactionRequests := requests }, other ∈ s.completing := by
    rw [hcomp]
    exact fun other hother => mem_cons_of_mem _ hother
  have hoperating : s.operating = transaction :: UniqueIDBDatabase.operating { s with
        mainThreadTasks := tasks
        pendingTransactionRequests := requests } := by
    unfold UniqueIDBDatabase.operating
    rw [hcomp]
    rfl
  exact
    { noShutdownQueued := h.noShutdownQueued
      noShutdownCompleting := fun other hother => h.noShutdownCompleting other (hmem other hother)
      distinct := (nodup_cons.mp hdist).2
      operating := by
        have hperm := h.operating.trans hkeys
        rw [hoperating] at hperm
        exact hperm.cons_inv
      announced := hann.2
      rollbacks := by
        intro other hother
        have hpend := (h.rollbacks other hother).elim id nofun
        rcases mem_cons.mp (hkeys.subset hpend) with rfl | hrest
        · exact .inr (mem_singleton_self _)
        · exact .inl hrest
      opening := h.opening
      establishing := fun transaction ht => h.establishing transaction (hmem _ ht)
      resetting := fun transaction success ht => h.resetting transaction success (hmem _ ht)
      stored := by
        intro other ht
        cases h.stored other ht with
        | rollback pending => exact .rollback pending
        | reset queued => exact .reset queued
        | establishing registered completing =>
          rw [hcomp] at completing
          rcases mem_cons.mp completing with heq | hrest
          · cases heq
          · exact .establishing registered hrest
        | established registered established => exact .established registered established }

/-- What holds while requests are accepted. -/
def Tended (transactions : Finset IDBIdentifier) (s : UniqueIDBDatabase) : Prop :=
  s.acceptingNewRequests = true → Kept transactions [] s ∧ s.Watched

theorem Tended.of_not_accepting (h : s.acceptingNewRequests = false) : Tended transactions s := by
  intro hacc
  rw [h] at hacc
  cases hacc

theorem Watched.of_same (h : s.Watched) (hconns : t.connections = [] → s.connections = [])
    (hrolls : t.pendingTransactionRollbacks = s.pendingTransactionRollbacks)
    (hpend : ∀ request ∈ s.pendingTransactionRequests,
      request ∈ t.pendingTransactionRequests) : t.Watched := by
  intro hnone
  rcases h (hconns hnone) with hroll | ⟨transaction, hreset⟩
  · exact .inl (hrolls ▸ hroll)
  · exact .inr ⟨transaction, hpend _ hreset⟩

theorem shutdown_not_accepting (type : ShutdownType) :
    (s.shutdown type).acceptingNewRequests = false := by
  unfold shutdown
  split
  · rename_i h
    simpa using h
  · rfl

section

variable (h : s.acceptingNewRequests = false)
include h

theorem didResetCallback_not_accepting :
    s.didResetCallback = s := by
  unfold didResetCallback
  rw [if_neg (by simp [h])]

theorem didRollbackCallback_not_accepting :
    (s.didRollbackCallback transaction).acceptingNewRequests = false := by
  unfold didRollbackCallback
  split
  · exact h
  · unfold postTransactionOperation
    rw [if_pos (by simp [h]), didResetCallback_not_accepting]
    all_goals exact h

theorem finalizeRollback_not_accepting :
    (s.finalizeRollback transaction).acceptingNewRequests = false := by
  unfold finalizeRollback postTransactionOperation
  rw [if_pos (by simp [h])]
  exact didRollbackCallback_not_accepting h

theorem callTransactionCallback_not_accepting (callback : TransactionCallback) (result : Answer) :
    (s.callTransactionCallback transaction callback result).acceptingNewRequests = false := by
  cases callback with
  | client requestID => exact h
  | didRollback => exact didRollbackCallback_not_accepting h
  | didReset =>
    show s.didResetCallback.acceptingNewRequests = false
    rw [didResetCallback_not_accepting h]
    exact h

end

/-- A rollback that waits goes on when the operation of its transaction is completed. -/
theorem Tended.finalizeRollback (hkept : s.acceptingNewRequests = true →
      Kept transactions [transaction] s)
    (hnot : transaction ∉ s.pendingTransactionRequests.map fst)
    (hwatched : s.acceptingNewRequests = true → s.Watched) :
    Tended transactions (if transaction ∈ s.pendingTransactionRollbacks
      then s.finalizeRollback transaction else s) := by
  cases hacc : s.acceptingNewRequests with
  | false =>
    apply of_not_accepting
    split
    · exact finalizeRollback_not_accepting hacc
    · exact hacc
  | true =>
    intro _
    split
    · rename_i hmem
      refine ⟨(hkept hacc).finalizeRollback hacc hnot, fun _ => .inl ?_⟩
      rw [finalizeRollback_eq hacc (not_hasPending_of_not_mem hnot)]
      exact ne_nil_of_mem hmem
    · rename_i hmem
      exact ⟨(hkept hacc).of_not_mem hmem, hwatched hacc⟩

theorem Kept.didCompleteTransactionOperation (h : Kept transactions [] s)
    (hwatched : s.Watched) (hacc : s.acceptingNewRequests = true) {success : Bool}
    (hmain : s.mainThreadTasks = .didCompleteTransactionOperation transaction success :: tasks) :
    Tended transactions
      (UniqueIDBDatabase.didCompleteTransactionOperation { s with mainThreadTasks := tasks }
        transaction success) := by
  have hpend : transaction ∈ s.pendingTransactionRequests.map Prod.fst := by
    apply h.operating.subset
    unfold UniqueIDBDatabase.operating completing
    rw [hmain]
    exact mem_cons_self ..
  obtain ⟨⟨key, callback⟩, hfind, rfl⟩ := exists_find?_of_mem hpend
  have hperm := perm_of_find? h.distinct hfind
  have htaken := h.take hmain hperm
  have hnot := (nodup_cons.mp ((hperm.map Prod.fst).nodup_iff.mp h.distinct)).1
  unfold UniqueIDBDatabase.didCompleteTransactionOperation
  simp only [hfind]
  cases callback with
  | client requestID =>
    apply Tended.finalizeRollback
    · exact fun _ => htaken.of_same [] (append_nil _).symm nofun rfl rfl rfl (fun _ => id) rfl
    · exact hnot
    · intro _ hnone
      rcases hwatched hnone with hroll | ⟨other, hreset⟩
      · exact .inl hroll
      · rcases mem_cons.mp (hperm.subset hreset) with heq | hrest
        · cases heq
        · exact .inr ⟨other, hrest⟩
  | didRollback =>
    have hkept := htaken.didRollbackCallback hacc hnot
    have heq := @didRollbackCallback_eq { s with
      mainThreadTasks := tasks
      pendingTransactionRequests :=
        s.pendingTransactionRequests.filter fun request => request.1 ≠ key } key hacc
      (not_hasPending_of_not_mem hnot)
    rw [if_neg]
    · intro _
      refine ⟨hkept, fun _ => .inr ⟨key, ?_⟩⟩
      show (key, TransactionCallback.didReset) ∈
        (UniqueIDBDatabase.didRollbackCallback _ key).pendingTransactionRequests
      rw [heq]
      exact mem_append_right _ (mem_singleton_self _)
    · show key ∉ (UniqueIDBDatabase.didRollbackCallback _ key).pendingTransactionRollbacks
      rw [heq]
      intro hmem
      simpa using (mem_filter.mp hmem).2
  | didReset =>
    simp only [callTransactionCallback, didResetCallback]
    split
    · apply Tended.of_not_accepting
      split
      · exact finalizeRollback_not_accepting (shutdown_not_accepting _)
      · exact shutdown_not_accepting _
    · rename_i hcond
      apply Tended.finalizeRollback (fun _ => htaken) hnot
      intro _ hnone
      refine .inl fun hrolls => hcond ?_
      simp only at hnone hrolls
      simp [hacc, hnone, hrolls]

end UniqueIDBDatabase

end WebKit.IndexedDB
