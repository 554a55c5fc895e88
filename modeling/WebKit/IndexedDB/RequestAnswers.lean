import WebKit.IndexedDB.UniqueIDBDatabase

/-!
# Every request is answered once

Every request id that was given out is in one place: it has been answered, or one of the
collections holds it (`Accounted`). A completion on its way finds its request, because no two
completions are on their way for one request; once the database stops accepting requests the
database thread drops its completions, so only those in the queue of the main thread count.
-/

namespace WebKit.IndexedDB

open List MainThreadTask Prod DatabaseTask

namespace MainThreadTask

def requestIDs : MainThreadTask → List ℕ
  | .didCompleteRequest requestID _ => [requestID]
  | _ => []

def transactions : MainThreadTask → List IDBIdentifier
  | .didCompleteTransactionOperation transaction _ => [transaction]
  | _ => []

def isShutdown : MainThreadTask → Bool
  | .didShutdownBackingStore _ => true
  | _ => false

end MainThreadTask

namespace DatabaseTask

def requestIDs : DatabaseTask → List ℕ
  | .operation requestID _ => [requestID]
  | _ => []

def transactions : DatabaseTask → List IDBIdentifier
  | .transactionOperation transaction _ => [transaction]
  | _ => []

def isShutdown : DatabaseTask → Bool
  | .shutdownBackingStore _ => true
  | _ => false

/-- The tasks that post two completions when they fail. -/
def repliesTwice : DatabaseTask → Bool
  | .operation _ (.count _ _ _) | .operation _ (.deleteRange _ _) => true
  | _ => false

variable {task : DatabaseTask} {inMemory success : Bool} {metadata : Option DatabaseMetadata}

theorem requestIDs_completions (h : task.repliesTwice = true → success = true) :
    ((task.completions inMemory success metadata).flatMap fun p => p.1.requestIDs) =
      task.requestIDs := by
  cases task with
  | openBackingStoreAndReadMetadata => cases inMemory <;> rfl
  | transactionOperation transaction operation => cases operation <;> rfl
  | operation requestID operation =>
    cases operation with
    | count transaction objectStoreID indexID =>
      obtain rfl := h rfl
      rfl
    | deleteRange transaction objectStoreID =>
      obtain rfl := h rfl
      rfl
    | _ => rfl
  | shutdownBackingStore type => rfl

theorem transactions_completions :
    ((task.completions inMemory success metadata).flatMap fun p => p.1.transactions) =
      task.transactions := by
  cases task with
  | openBackingStoreAndReadMetadata => cases inMemory <;> rfl
  | transactionOperation transaction operation => cases operation <;> rfl
  | operation requestID operation => cases operation <;> cases success <;> rfl
  | shutdownBackingStore type => rfl

theorem normal_completions (h : task.isShutdown = false) :
    ∀ p ∈ task.completions inMemory success metadata, p.2 = .normal ∧ p.1.isShutdown = false := by
  cases task with
  | openBackingStoreAndReadMetadata => cases inMemory <;> simp [completions, MainThreadTask.isShutdown]
  | transactionOperation transaction operation =>
    cases operation <;> simp [completions, MainThreadTask.isShutdown]
  | operation requestID operation =>
    cases operation <;> cases success <;> simp [completions, MainThreadTask.isShutdown]
  | shutdownBackingStore type => cases h

end DatabaseTask

/-- The request of a client, if the callback is one. -/
def TransactionCallback.requestIDs : TransactionCallback → List ℕ
  | .client requestID => [requestID]
  | _ => []

namespace UniqueIDBDatabase

variable {s t : UniqueIDBDatabase}

/-- The completions on their way. -/
def inFlight {α : Type} (ofMain : MainThreadTask → List α) (ofDatabase : DatabaseTask → List α)
    (s : UniqueIDBDatabase) : List α :=
  s.mainThreadTasks.flatMap ofMain ++ if s.acceptingNewRequests then
      (s.posting.flatMap fun p => ofMain p.1) ++ s.databaseTasks.flatMap ofDatabase
    else []

def requestIDsInFlight : UniqueIDBDatabase → List ℕ :=
  inFlight requestIDs requestIDs

def transactionsInFlight : UniqueIDBDatabase → List IDBIdentifier :=
  inFlight transactions transactions

/-- The request ids in the collections. -/
def held (s : UniqueIDBDatabase) : List ℕ :=
  s.pendingMetadataRequests ++
    (s.pendingTransactionRequests.flatMap fun request => request.2.requestIDs) ++
    s.pendingDatabaseTasks.map fst ++ s.pendingShutdownTask.toList ++ s.refusedDeletions

/-- How far the shutdown has come. -/
inductive Stage (s : UniqueIDBDatabase) : Prop
  | accepting
      (accepting : s.acceptingNewRequests = true) (didShutdown : s.didShutdown = false)
      (databaseTasks : ∀ task ∈ s.databaseTasks, task.isShutdown = false)
      (posting : ∀ p ∈ s.posting, p.2 = .normal ∧ p.1.isShutdown = false)
      (mainThreadTasks : ∀ task ∈ s.mainThreadTasks, task.isShutdown = false)
      (pendingShutdownTask : s.pendingShutdownTask = none)
  | queued (type : ShutdownType)
      (accepting : s.acceptingNewRequests = false) (didShutdown : s.didShutdown = false)
      (databaseTasks : s.databaseTasks = [.shutdownBackingStore type])
      (posting : ∀ p ∈ s.posting, p.2 = .normal ∧ p.1.isShutdown = false)
      (mainThreadTasks : ∀ task ∈ s.mainThreadTasks, task.isShutdown = false)
  | performed (type : ShutdownType)
      (accepting : s.acceptingNewRequests = false) (didShutdown : s.didShutdown = false)
      (databaseTasks : s.databaseTasks = [])
      (posting : s.posting = [(.didShutdownBackingStore type, .shutdown)])
      (mainThreadTasks : ∀ task ∈ s.mainThreadTasks, task.isShutdown = false)
  | posted (type : ShutdownType) (tasks : List MainThreadTask)
      (accepting : s.acceptingNewRequests = false) (didShutdown : s.didShutdown = false)
      (databaseTasks : s.databaseTasks = []) (posting : s.posting = [])
      (mainThreadTasks : s.mainThreadTasks = tasks ++ [.didShutdownBackingStore type])
      (others : ∀ task ∈ tasks, task.isShutdown = false)
  | done
      (accepting : s.acceptingNewRequests = false) (didShutdown : s.didShutdown = true)
      (databaseTasks : s.databaseTasks = []) (posting : s.posting = [])
      (mainThreadTasks : s.mainThreadTasks = [])
      (pendingMetadataRequests : s.pendingMetadataRequests = [])
      (pendingTransactionRequests : s.pendingTransactionRequests = [])
      (pendingDatabaseTasks : s.pendingDatabaseTasks = [])
      (pendingShutdownTask : s.pendingShutdownTask = none)

/-- Every request id is in one place, apart from some that are being moved. -/
structure Accounted (moved : List ℕ) (s : UniqueIDBDatabase) : Prop where
  account : ∀ id, (s.answers.map fst).count id + s.held.count id + moved.count id =
    if id < s.nextRequestID then 1 else 0
  requests : s.requestIDsInFlight.Nodup
  requestsPending : ∀ id ∈ s.requestIDsInFlight, id ∈ s.pendingDatabaseTasks.map fst
  transactions : s.transactionsInFlight.Nodup
  transactionsPending : ∀ transaction ∈ s.transactionsInFlight,
    transaction ∈ s.pendingTransactionRequests.map fst
  distinctTransactions : (s.pendingTransactionRequests.map fst).Nodup
  found : s.foundNull = false
  stage : s.Stage

/-! ## The parts of a step -/

/-- The stage depends on the tasks, and at its end on the requests that wait. -/
theorem Stage.of_tasks (hs : s.Stage) (accepting : t.acceptingNewRequests = s.acceptingNewRequests)
    (didShutdown : t.didShutdown = s.didShutdown)
    (databaseTasks : t.databaseTasks = s.databaseTasks) (posting : t.posting = s.posting)
    (mainThreadTasks : t.mainThreadTasks = s.mainThreadTasks)
    (pendingShutdownTask : t.pendingShutdownTask = s.pendingShutdownTask)
    (metadata : s.pendingMetadataRequests = [] → t.pendingMetadataRequests = [])
    (transaction : s.pendingTransactionRequests = [] → t.pendingTransactionRequests = [])
    (database : s.pendingDatabaseTasks = [] → t.pendingDatabaseTasks = []) : t.Stage := by
  cases hs with
  | accepting h1 h2 h3 h4 h5 h6 =>
    rw [← databaseTasks] at h3
    rw [← posting] at h4
    rw [← mainThreadTasks] at h5
    exact .accepting (accepting.trans h1) (didShutdown.trans h2) h3 h4 h5
      (pendingShutdownTask.trans h6)
  | queued type h1 h2 h3 h4 h5 =>
    rw [← posting] at h4
    rw [← mainThreadTasks] at h5
    exact .queued type (accepting.trans h1) (didShutdown.trans h2) (databaseTasks.trans h3) h4 h5
  | performed type h1 h2 h3 h4 h5 =>
    rw [← mainThreadTasks] at h5
    exact .performed type (accepting.trans h1) (didShutdown.trans h2) (databaseTasks.trans h3)
      (posting.trans h4) h5
  | posted type tasks h1 h2 h3 h4 h5 h6 =>
    exact .posted type tasks (accepting.trans h1) (didShutdown.trans h2)
      (databaseTasks.trans h3) (posting.trans h4) (mainThreadTasks.trans h5) h6
  | done h1 h2 h3 h4 h5 h6 h7 h8 h9 =>
    exact .done (accepting.trans h1) (didShutdown.trans h2) (databaseTasks.trans h3)
      (posting.trans h4) (mainThreadTasks.trans h5) (metadata h6) (transaction h7) (database h8)
      (pendingShutdownTask.trans h9)

/-- The requests that wait and the tasks on their way are the same. -/
structure SameTasks (s t : UniqueIDBDatabase) : Prop where
  accepting : t.acceptingNewRequests = s.acceptingNewRequests
  didShutdown : t.didShutdown = s.didShutdown
  databaseTasks : t.databaseTasks = s.databaseTasks
  posting : t.posting = s.posting
  mainThreadTasks : t.mainThreadTasks = s.mainThreadTasks
  pendingMetadataRequests : t.pendingMetadataRequests = s.pendingMetadataRequests
  pendingTransactionRequests : t.pendingTransactionRequests = s.pendingTransactionRequests
  pendingDatabaseTasks : t.pendingDatabaseTasks = s.pendingDatabaseTasks
  pendingShutdownTask : t.pendingShutdownTask = s.pendingShutdownTask
  foundNull : t.foundNull = s.foundNull

namespace SameTasks

variable {α : Type}

theorem inFlight (h : SameTasks s t) (ofMain : MainThreadTask → List α)
    (ofDatabase : DatabaseTask → List α) :
    t.inFlight ofMain ofDatabase = s.inFlight ofMain ofDatabase := by
  unfold UniqueIDBDatabase.inFlight
  rw [h.accepting, h.databaseTasks, h.posting, h.mainThreadTasks]

theorem stage (h : SameTasks s t) (hs : s.Stage) : t.Stage :=
  hs.of_tasks h.accepting h.didShutdown h.databaseTasks h.posting h.mainThreadTasks
    h.pendingShutdownTask h.pendingMetadataRequests.trans h.pendingTransactionRequests.trans
    h.pendingDatabaseTasks.trans

end SameTasks

variable {moved moved' : List ℕ} {requestID : ℕ} {transaction : IDBIdentifier}

namespace Accounted

section

variable (h : Accounted moved s)
include h

theorem of_same (hsame : SameTasks s t)
    (account : ∀ id, (t.answers.map fst).count id + t.held.count id + moved'.count id =
      if id < t.nextRequestID then 1 else 0) : Accounted moved' t where
  account := account
  requests := by
    unfold requestIDsInFlight
    rw [hsame.inFlight]
    exact h.requests
  requestsPending := by
    unfold requestIDsInFlight
    rw [hsame.inFlight, hsame.pendingDatabaseTasks]
    exact h.requestsPending
  transactions := by
    unfold transactionsInFlight
    rw [hsame.inFlight]
    exact h.transactions
  transactionsPending := by
    unfold transactionsInFlight
    rw [hsame.inFlight, hsame.pendingTransactionRequests]
    exact h.transactionsPending
  distinctTransactions := by
    rw [hsame.pendingTransactionRequests]
    exact h.distinctTransactions
  found := hsame.foundNull.trans h.found
  stage := hsame.stage h.stage

theorem of_irrelevant (hsame : SameTasks s t)
    (hans : t.answers = s.answers) (href : t.refusedDeletions = s.refusedDeletions)
    (hnext : t.nextRequestID = s.nextRequestID) : Accounted moved t := by
  refine h.of_same hsame ?_
  have hheld : t.held = s.held := by
    unfold held
    rw [hsame.pendingMetadataRequests, hsame.pendingTransactionRequests,
      hsame.pendingDatabaseTasks, hsame.pendingShutdownTask, href]
  rw [hheld, hans, hnext]
  exact h.account

theorem with_rollbacks (rollbacks : List IDBIdentifier) :
    Accounted moved { s with pendingTransactionRollbacks := rollbacks } :=
  h.of_irrelevant ⟨rfl, rfl, rfl, rfl, rfl, rfl, rfl, rfl, rfl, rfl⟩ rfl rfl rfl

theorem with_connections (connections : List ℕ) :
    Accounted moved { s with connections := connections } :=
  h.of_irrelevant ⟨rfl, rfl, rfl, rfl, rfl, rfl, rfl, rfl, rfl, rfl⟩ rfl rfl rfl

theorem with_establishedTransactions (established : List IDBIdentifier) :
    Accounted moved { s with establishedTransactions := established } :=
  h.of_irrelevant ⟨rfl, rfl, rfl, rfl, rfl, rfl, rfl, rfl, rfl, rfl⟩ rfl rfl rfl

end

theorem answer (h : Accounted (requestID :: moved) s) (answer : Answer) :
    Accounted moved (s.answer requestID answer) := by
  refine h.of_same ⟨rfl, rfl, rfl, rfl, rfl, rfl, rfl, rfl, rfl, rfl⟩ fun id => ?_
  have hacct := h.account id
  have hans : (s.answer requestID answer).answers.map fst =
      s.answers.map fst ++ [requestID] := map_append
  have hheld : (s.answer requestID answer).held = s.held := rfl
  have hnext : (s.answer requestID answer).nextRequestID = s.nextRequestID := rfl
  rw [count_cons] at hacct
  rw [hans, hheld, hnext, count_append, count_singleton]
  omega

theorem withNextRequestID (h : Accounted [] s) :
    Accounted [s.nextRequestID] { s with nextRequestID := s.nextRequestID + 1 } := by
  refine h.of_same ⟨rfl, rfl, rfl, rfl, rfl, rfl, rfl, rfl, rfl, rfl⟩ fun id => ?_
  have hacct := h.account id
  have hheld : held { s with nextRequestID := s.nextRequestID + 1 } = s.held := rfl
  rw [hheld, count_singleton]
  simp only [count_nil, Nat.add_zero] at hacct
  rw [hacct]
  by_cases heq : s.nextRequestID = id
  · subst heq
    simp
  · have hlt : id < s.nextRequestID ↔ id < s.nextRequestID + 1 := by omega
    simp [heq, hlt]

end Accounted

/-! ## The parts of a step that post tasks -/

variable {task : DatabaseTask}

section

variable {α : Type} {ofMain : MainThreadTask → List α} {ofDatabase : DatabaseTask → List α}

theorem inFlight_of_accepting (h : s.acceptingNewRequests = true) : s.inFlight ofMain ofDatabase =
      s.mainThreadTasks.flatMap ofMain ++
        ((s.posting.flatMap fun p => ofMain p.1) ++ s.databaseTasks.flatMap ofDatabase) := by
  unfold inFlight
  rw [if_pos h]

theorem inFlight_of_not_accepting (h : s.acceptingNewRequests = false) :
    s.inFlight ofMain ofDatabase = s.mainThreadTasks.flatMap ofMain := by
  unfold inFlight
  rw [if_neg (by rw [h]; exact Bool.false_ne_true), append_nil]

/-- While the database accepts requests, a task of the database thread is one more. -/
theorem inFlight_postDatabaseTask (h : s.acceptingNewRequests = true)
    (hpost : t.posting = s.posting) (hmain : t.mainThreadTasks = s.mainThreadTasks)
    (hacc : t.acceptingNewRequests = s.acceptingNewRequests)
    (hdb : t.databaseTasks = s.databaseTasks ++ [task]) :
    t.inFlight ofMain ofDatabase = s.inFlight ofMain ofDatabase ++ ofDatabase task := by
  rw [inFlight_of_accepting h, inFlight_of_accepting (hacc.trans h), hpost, hmain,
    hdb, flatMap_append, flatMap_singleton, append_assoc, append_assoc]

end

theorem postDatabaseTask_eq (h : s.acceptingNewRequests = true) (task : DatabaseTask) :
    s.postDatabaseTask task = { s with databaseTasks := s.databaseTasks ++ [task] } := by
  unfold postDatabaseTask
  rw [h]
  rfl

theorem requestOperation_of_not_accepting (h : s.acceptingNewRequests = false)
    {requestID : ℕ} {operation : DatabaseOperation} :
    s.requestOperation requestID operation = s.answer requestID .refused := by
  unfold requestOperation
  rw [h]
  rfl

theorem requestOperation_of_accepting (h : s.acceptingNewRequests = true) (requestID : ℕ)
    (operation : DatabaseOperation) :
    s.requestOperation requestID operation =
      { s with
        metadata := s.metadata.map fun metadata => metadata.edit operation
        pendingDatabaseTasks := s.pendingDatabaseTasks ++ [(requestID, s.undoOf operation)]
        databaseTasks := s.databaseTasks ++ [.operation requestID operation] } := by
  unfold requestOperation
  rw [if_neg (by rw [h]; exact Bool.false_ne_true)]
  apply postDatabaseTask_eq
  exact h

theorem Stage.accepting_or (h : s.Stage) (hacc : s.acceptingNewRequests = true) :
    s.didShutdown = false ∧ (∀ task ∈ s.databaseTasks, task.isShutdown = false) ∧
      (∀ p ∈ s.posting, p.2 = .normal ∧ p.1.isShutdown = false) ∧
      (∀ task ∈ s.mainThreadTasks, task.isShutdown = false) ∧ s.pendingShutdownTask = none := by
  cases h with
  | accepting h1 h2 h3 h4 h5 h6 => exact ⟨h2, h3, h4, h5, h6⟩
  | queued type h1 | performed type h1 | posted type tasks h1 | done h1 =>
    rw [h1] at hacc
    cases hacc

theorem Stage.postDatabaseTask (h : s.Stage) (hacc : s.acceptingNewRequests = true)
    (hpost : t.posting = s.posting) (hmain : t.mainThreadTasks = s.mainThreadTasks)
    (hacc' : t.acceptingNewRequests = s.acceptingNewRequests)
    (hdidShutdown : t.didShutdown = s.didShutdown)
    (hpend : t.pendingShutdownTask = s.pendingShutdownTask)
    (hdb : t.databaseTasks = s.databaseTasks ++ [task]) (htask : task.isShutdown = false) :
    t.Stage := by
  obtain ⟨h2, h3, h4, h5, h6⟩ := h.accepting_or hacc
  refine .accepting (hacc'.trans hacc) (hdidShutdown.trans h2) ?_ ?_ ?_ (hpend.trans h6)
  · rw [hdb]
    intro task' htask'
    rcases mem_append.mp htask' with hold | hnew
    · exact h3 task' hold
    · rw [mem_singleton.mp hnew]
      exact htask
  · rw [hpost]
    exact h4
  · rw [hmain]
    exact h5

theorem not_mem_of_not_hasPending (h : s.hasPendingTransactionRequest transaction = false) :
    transaction ∉ s.pendingTransactionRequests.map fst := by
  intro hmem
  obtain ⟨request, hreq, heq⟩ := mem_map.mp hmem
  have := any_eq_false.mp h request hreq
  simp [heq] at this

namespace Accounted

theorem postUnaccounted (h : Accounted moved s) (hacc : s.acceptingNewRequests = true) (hreqs : task.requestIDs = [])
    (htrans : task.transactions = []) (htask : task.isShutdown = false) :
    Accounted moved (s.postDatabaseTask task) := by
  rw [postDatabaseTask_eq hacc]
  have hflight : ∀ {α : Type} (ofMain : MainThreadTask → List α)
      (ofDatabase : DatabaseTask → List α),
      inFlight ofMain ofDatabase { s with databaseTasks := s.databaseTasks ++ [task] } =
        s.inFlight ofMain ofDatabase ++ ofDatabase task :=
    fun _ _ => by apply inFlight_postDatabaseTask hacc <;> rfl
  refine ⟨h.account, ?_, ?_, ?_, ?_, h.distinctTransactions, h.found, ?_⟩
  · unfold requestIDsInFlight
    rw [hflight, hreqs, append_nil]
    exact h.requests
  · unfold requestIDsInFlight
    rw [hflight, hreqs, append_nil]
    exact h.requestsPending
  · unfold transactionsInFlight
    rw [hflight, htrans, append_nil]
    exact h.transactions
  · unfold transactionsInFlight
    rw [hflight, htrans, append_nil]
    exact h.transactionsPending
  · exact h.stage.postDatabaseTask hacc rfl rfl rfl rfl rfl rfl htask

/-- The database has been shut down, with the task that waits for the shutdown. -/
theorem queued (h : Accounted moved s) (hacc : s.acceptingNewRequests = true)
    (type : ShutdownType) (pendingShutdownTask : Option ℕ)
    (ht : t = { s with
      acceptingNewRequests := false
      databaseTasks := [.shutdownBackingStore type]
      pendingShutdownTask := pendingShutdownTask })
    (account : ∀ id, (t.answers.map fst).count id + t.held.count id + moved'.count id =
      if id < t.nextRequestID then 1 else 0) : Accounted moved' t := by
  subst ht
  obtain ⟨h2, h3, h4, h5, h6⟩ := h.stage.accepting_or hacc
  have hsub : ∀ {α : Type} (ofMain : MainThreadTask → List α) (ofDatabase : DatabaseTask → List α),
      List.Sublist (inFlight ofMain ofDatabase
          { s with
            acceptingNewRequests := false
            databaseTasks := [.shutdownBackingStore type]
            pendingShutdownTask := pendingShutdownTask })
        (s.inFlight ofMain ofDatabase) := by
    intro α ofMain ofDatabase
    rw [inFlight_of_not_accepting rfl, inFlight_of_accepting hacc]
    exact sublist_append_left _ _
  exact
    { account := account
      requests := h.requests.sublist (hsub _ _)
      requestsPending := fun id hid => h.requestsPending id ((hsub _ _).subset hid)
      transactions := h.transactions.sublist (hsub _ _)
      transactionsPending := fun id hid => h.transactionsPending id ((hsub _ _).subset hid)
      distinctTransactions := h.distinctTransactions
      found := h.found
      stage := .queued type rfl h2 rfl h4 h5 }

theorem shutdown (h : Accounted moved s) (type : ShutdownType) :
    Accounted moved (s.shutdown type) := by
  unfold UniqueIDBDatabase.shutdown
  split
  · exact h
  · rename_i hacc
    have hacc : s.acceptingNewRequests = true := by simpa using hacc
    exact h.queued hacc type s.pendingShutdownTask rfl h.account

theorem postTransactionOperation {operation : TransactionOperation}
    (callback : TransactionCallback) {refused : UniqueIDBDatabase → UniqueIDBDatabase}
    (h : Accounted (callback.requestIDs ++ moved) s)
    (href : Accounted moved (refused s)) :
    Accounted moved (s.postTransactionOperation transaction operation callback refused) := by
  unfold UniqueIDBDatabase.postTransactionOperation
  split
  · exact href
  split
  · exact href
  rename_i hacc hpend
  have hacc : s.acceptingNewRequests = true := by simpa using hacc
  have hnot := not_mem_of_not_hasPending (Bool.not_eq_true _ ▸ hpend)
  rw [postDatabaseTask_eq hacc]
  have hflight : ∀ {α : Type} (ofMain : MainThreadTask → List α)
      (ofDatabase : DatabaseTask → List α),
      inFlight ofMain ofDatabase
        { s with
          databaseTasks := s.databaseTasks ++ [.transactionOperation transaction operation]
          pendingTransactionRequests :=
            s.pendingTransactionRequests ++ [(transaction, callback)] } =
        s.inFlight ofMain ofDatabase ++ ofDatabase (.transactionOperation transaction operation) :=
    fun _ _ => by apply inFlight_postDatabaseTask hacc <;> rfl
  have hnone : requestIDs (.transactionOperation transaction operation) = [] := rfl
  have hkeys : (s.pendingTransactionRequests ++ [(transaction, callback)]).map fst =
      s.pendingTransactionRequests.map fst ++ [transaction] := map_append
  refine ⟨?_, ?_, ?_, ?_, ?_, ?_, h.found, ?_⟩
  · intro id
    have hacct := h.account id
    simp only [held, count_append, flatMap_append, flatMap_singleton]
      at hacct ⊢
    omega
  · unfold requestIDsInFlight
    rw [hflight, hnone, append_nil]
    exact h.requests
  · unfold requestIDsInFlight
    rw [hflight, hnone, append_nil]
    exact h.requestsPending
  · unfold transactionsInFlight
    rw [hflight]
    refine nodup_append.mpr ⟨h.transactions, nodup_singleton _, ?_⟩
    intro a ha b hb hab
    rw [mem_singleton.mp hb] at hab
    exact hnot (hab ▸ h.transactionsPending a ha)
  · unfold transactionsInFlight
    rw [hflight, hkeys]
    intro a ha
    rcases mem_append.mp ha with hold | hnew
    · exact mem_append_left _ (h.transactionsPending a hold)
    · exact mem_append_right _ hnew
  · rw [hkeys]
    refine nodup_append.mpr ⟨h.distinctTransactions, nodup_singleton _, ?_⟩
    intro a ha b hb hab
    rw [mem_singleton.mp hb] at hab
    exact hnot (hab ▸ ha)
  · exact h.stage.postDatabaseTask hacc rfl rfl rfl rfl rfl rfl rfl

theorem didResetCallback (h : Accounted moved s) : Accounted moved s.didResetCallback := by
  unfold UniqueIDBDatabase.didResetCallback
  split
  · exact h.shutdown _
  · exact h

theorem didRollbackCallback (h : Accounted moved s) (transaction : IDBIdentifier) :
    Accounted moved (s.didRollbackCallback transaction) := by
  unfold UniqueIDBDatabase.didRollbackCallback
  split
  · exact h
  · have hrolls := h.with_rollbacks (s.pendingTransactionRollbacks.filter (· ≠ transaction))
    exact hrolls.postTransactionOperation .didReset hrolls.didResetCallback

theorem finalizeRollback (h : Accounted moved s) (transaction : IDBIdentifier) :
    Accounted moved (s.finalizeRollback transaction) :=
  h.postTransactionOperation .didRollback (h.didRollbackCallback transaction)

theorem callTransactionCallback {callback : TransactionCallback}
    (h : Accounted (callback.requestIDs ++ moved) s) (transaction : IDBIdentifier)
    (result : Answer) :
    Accounted moved (s.callTransactionCallback transaction callback result) := by
  cases callback with
  | client requestID => exact h.answer result
  | didRollback => exact h.didRollbackCallback transaction
  | didReset => exact h.didResetCallback

theorem resetTransactions (h : Accounted moved s) (transactions : List IDBIdentifier) :
    Accounted moved (s.resetTransactions transactions) := by
  induction transactions generalizing s with
  | nil => exact h
  | cons transaction transactions ih =>
    apply ih
    have hrolls : Accounted moved (s.addPendingTransactionRollback transaction) :=
      h.with_rollbacks _
    simp only
    split
    · exact hrolls
    · exact hrolls.finalizeRollback transaction

theorem unregisterConnection (h : Accounted moved s) (connection : ℕ) :
    Accounted moved (s.unregisterConnection connection) := by
  have hreset : Accounted moved (s.resetAllTransactions connection) := by
    unfold resetAllTransactions
    split
    · exact h
    · exact h.resetTransactions _
  have hconns := hreset.with_connections
    ((s.resetAllTransactions connection).connections.filter (· ≠ connection))
  unfold UniqueIDBDatabase.unregisterConnection
  simp only
  split
  · exact hconns.shutdown _
  · exact hconns

section

variable (h : Accounted [requestID] s)
include h

theorem getOrEstablishIDBDatabaseMetadata :
    Accounted [] (s.getOrEstablishIDBDatabaseMetadata requestID) := by
  unfold UniqueIDBDatabase.getOrEstablishIDBDatabaseMetadata
  split
  · exact h.answer _
  split
  · exact h.answer _
  rename_i hacc _
  have hacc : s.acceptingNewRequests = true := by simpa using hacc
  obtain ⟨h2, h3, h4, h5, h6⟩ := h.stage.accepting_or hacc
  have hpend : Accounted []
      { s with pendingMetadataRequests := s.pendingMetadataRequests ++ [requestID] } :=
    { account := by
        intro id
        have hacct := h.account id
        simp only [held, count_append, count_nil] at hacct ⊢
        omega
      requests := h.requests
      requestsPending := h.requestsPending
      transactions := h.transactions
      transactionsPending := h.transactionsPending
      distinctTransactions := h.distinctTransactions
      found := h.found
      stage := .accepting hacc h2 h3 h4 h5 h6 }
  simp only
  split
  · exact hpend.postUnaccounted hacc rfl rfl rfl
  · exact hpend

theorem transactionOperation (transaction : IDBIdentifier)
    (operation : TransactionOperation) :
    Accounted [] (s.transactionOperation requestID transaction operation) :=
  h.postTransactionOperation (.client requestID) (h.answer _)

theorem requestOperation (operation : DatabaseOperation) :
    Accounted [] (s.requestOperation requestID operation) := by
  cases hacc : s.acceptingNewRequests with
  | false =>
    rw [requestOperation_of_not_accepting hacc]
    exact h.answer _
  | true =>
    rw [requestOperation_of_accepting hacc]
    generalize s.undoOf operation = undo
    have hnot : requestID ∉ s.pendingDatabaseTasks.map fst := by
      intro hmem
      have hacct := h.account requestID
      have hpos := count_pos_iff.mpr hmem
      simp only [held, count_append, count_singleton_self] at hacct
      split at hacct <;> omega
    have hflight : ∀ {α : Type} (ofMain : MainThreadTask → List α)
        (ofDatabase : DatabaseTask → List α),
        inFlight ofMain ofDatabase
          { s with
            metadata := s.metadata.map fun metadata => metadata.edit operation
            pendingDatabaseTasks := s.pendingDatabaseTasks ++ [(requestID, undo)]
            databaseTasks := s.databaseTasks ++ [.operation requestID operation] } =
          s.inFlight ofMain ofDatabase ++ ofDatabase (.operation requestID operation) :=
      fun _ _ => by apply inFlight_postDatabaseTask hacc <;> rfl
    have hnone : DatabaseTask.transactions (.operation requestID operation) = [] := rfl
    have hkeys : (s.pendingDatabaseTasks ++ [(requestID, undo)]).map Prod.fst =
        s.pendingDatabaseTasks.map fst ++ [requestID] := map_append
    refine ⟨?_, ?_, ?_, ?_, ?_, h.distinctTransactions, h.found, ?_⟩
    · intro id
      have hacct := h.account id
      simp only [held, count_append, hkeys, count_nil] at hacct ⊢
      omega
    · unfold requestIDsInFlight
      rw [hflight]
      refine nodup_append.mpr ⟨h.requests, nodup_singleton _, ?_⟩
      intro a ha b hb hab
      rw [mem_singleton.mp hb] at hab
      exact hnot (hab ▸ h.requestsPending a ha)
    · unfold requestIDsInFlight
      rw [hflight, hkeys]
      intro a ha
      rcases mem_append.mp ha with hold | hnew
      · exact mem_append_left _ (h.requestsPending a hold)
      · exact mem_append_right _ hnew
    · unfold transactionsInFlight
      rw [hflight, hnone, append_nil]
      exact h.transactions
    · unfold transactionsInFlight
      rw [hflight, hnone, append_nil]
      exact h.transactionsPending
    · exact h.stage.postDatabaseTask hacc rfl rfl rfl rfl rfl rfl rfl

theorem deleteDatabase :
    Accounted [] (s.deleteDatabase requestID) := by
  unfold UniqueIDBDatabase.deleteDatabase
  split
  · refine h.of_same ⟨rfl, rfl, rfl, rfl, rfl, rfl, rfl, rfl, rfl, rfl⟩ fun id => ?_
    have hacct := h.account id
    simp only [held, count_append, count_nil] at hacct ⊢
    omega
  · rename_i hacc
    have hacc : s.acceptingNewRequests = true := by simpa using hacc
    obtain ⟨h2, h3, h4, h5, h6⟩ := h.stage.accepting_or hacc
    have heq : UniqueIDBDatabase.shutdown { s with pendingShutdownTask := some requestID }
        .deleteShutdown =
        { s with
          acceptingNewRequests := false
          databaseTasks := [.shutdownBackingStore .deleteShutdown]
          pendingShutdownTask := some requestID } := by
      unfold UniqueIDBDatabase.shutdown
      rw [if_neg (by simp [hacc])]
      rfl
    apply h.queued hacc .deleteShutdown (some requestID) heq
    intro id
    have hacct := h.account id
    rw [heq]
    simp only [held, h6, Option.toList_none, Option.toList_some, count_append,
      count_nil] at hacct ⊢
    omega

end

end Accounted

end UniqueIDBDatabase

end WebKit.IndexedDB
