import WebKit.IndexedDB.RequestAnswers

/-!
# Completions and the end of the shutdown

The steps of the two threads keep the account of `RequestAnswers`. A task leaves the database
thread as its completions, and a completion takes its request out of a collection. When the
shutdown has come back to the main thread nothing is on its way any more, and whatever still
waits is aborted. The one way out is a task that posts two completions: a count or a deletion
of a range that fails while requests are accepted.
-/

variable {tasks : List MainThreadTask}

open List

namespace WebKit.IndexedDB

open Transition UniqueIDBDatabase Prod MainThreadTask DatabaseTask

/-- The element that is found under a key, and the elements under other keys. -/
theorem perm_of_find? {α κ : Type} [DecidableEq κ] {key : α → κ} {k : κ} {l : List α} {a : α}
    (hnodup : (l.map key).Nodup) (hfind : l.find? (fun x => key x = k) = some a) :
    l.Perm (a :: l.filter fun x => key x ≠ k) := by
  induction l with
  | nil => cases hfind
  | cons b l ih =>
    obtain ⟨hnot, hnodup⟩ := nodup_cons.mp hnodup
    by_cases hb : key b = k
    · rw [find?_cons_of_pos (by simpa using hb)] at hfind
      cases hfind
      have hrest : l.filter (fun x => key x ≠ k) = l := by
        rw [filter_eq_self]
        intro x hx
        have hx : key x ≠ k := fun h => hnot (mem_map.mpr ⟨x, hx, h.trans hb.symm⟩)
        simpa using hx
      rw [filter_cons_of_neg (by simpa using hb), hrest]
    · rw [find?_cons_of_neg (by simpa using hb)] at hfind
      rw [filter_cons_of_pos (by simpa using hb)]
      exact ((ih hnodup hfind).cons b).trans (List.Perm.swap _ _ _)

theorem exists_find?_of_mem {α κ : Type} [DecidableEq κ] {key : α → κ} {k : κ} {l : List α}
    (h : k ∈ l.map key) : ∃ a, l.find? (fun x => key x = k) = some a ∧ key a = k := by
  obtain ⟨b, hb, hkey⟩ := mem_map.mp h
  have hsome : (l.find? fun x => key x = k).isSome := by
    rw [find?_isSome]
    exact ⟨b, hb, by simpa using hkey⟩
  obtain ⟨a, ha⟩ := Option.isSome_iff_exists.mp hsome
  exact ⟨a, ha, by simpa using find?_some ha⟩

variable {task : MainThreadTask}

theorem MainThreadTask.eq_didShutdown (h : task.isShutdown = true) :
    ∃ type, task = .didShutdownBackingStore type := by
  cases task with
  | didShutdownBackingStore type => exact ⟨type, rfl⟩
  | _ => cases h

namespace UniqueIDBDatabase

variable {s t : UniqueIDBDatabase} {moved : List ℕ} {requestID : ℕ}
  {transaction : IDBIdentifier}

theorem inFlight_perform {α : Type} {ofMain : MainThreadTask → List α}
    {ofDatabase : DatabaseTask → List α} {task : DatabaseTask} {tasks : List DatabaseTask}
    {completions : List (MainThreadTask × DatabaseTaskType)} (hpost : s.posting = [])
    (hdb : s.databaseTasks = task :: tasks)
    (hcomps : s.acceptingNewRequests = true →
      (completions.flatMap fun p => ofMain p.1) = ofDatabase task) :
    inFlight ofMain ofDatabase { s with databaseTasks := tasks, posting := completions } =
      s.inFlight ofMain ofDatabase := by
  cases hacc : s.acceptingNewRequests with
  | false => rw [inFlight_of_not_accepting hacc, inFlight_of_not_accepting rfl]
  | true =>
    rw [inFlight_of_accepting hacc, inFlight_of_accepting rfl, hpost, hdb,
      hcomps hacc, flatMap_cons]
    rfl

theorem Stage.perform {task : DatabaseTask} {tasks : List DatabaseTask} {success : Bool}
    {metadata : Option DatabaseMetadata} (h : s.Stage) (hdb : s.databaseTasks = task :: tasks) :
    Stage { s with
      databaseTasks := tasks
      posting := task.completions s.inMemory success metadata } := by
  cases h with
  | accepting h1 h2 h3 h4 h5 h6 =>
    rw [hdb] at h3
    have htask := h3 task (mem_cons_self ..)
    exact .accepting h1 h2 (fun task' htask' => h3 task' (mem_cons_of_mem _ htask'))
      (normal_completions htask) h5 h6
  | queued type h1 h2 h3 h4 h5 =>
    rw [hdb] at h3
    cases h3
    exact .performed type h1 h2 rfl rfl h5
  | performed type h1 h2 h3 | posted type tasks h1 h2 h3 | done h1 h2 h3 =>
    rw [hdb] at h3
    cases h3

variable {posting : List (MainThreadTask × DatabaseTaskType)} {type : DatabaseTaskType}

theorem inFlight_post {α : Type} {ofMain : MainThreadTask → List α}
    {ofDatabase : DatabaseTask → List α} (hpost : s.posting = (task, type) :: posting)
    (hnone : s.acceptingNewRequests = false → ofMain task = []) :
    inFlight ofMain ofDatabase
        { s with posting := posting, mainThreadTasks := s.mainThreadTasks ++ [task] } =
      s.inFlight ofMain ofDatabase := by
  cases hacc : s.acceptingNewRequests with
  | false =>
    rw [inFlight_of_not_accepting hacc, inFlight_of_not_accepting rfl, flatMap_append,
      flatMap_singleton, hnone hacc, append_nil]
  | true =>
    rw [inFlight_of_accepting hacc, inFlight_of_accepting rfl, hpost,
      flatMap_append, flatMap_singleton, flatMap_cons]
    simp only [append_assoc]

/-- In a state of the shutdown only the end of the shutdown is posted. -/
theorem Stage.post (h : s.Stage) (hpost : s.posting = (task, type) :: posting)
    (hkept : s.acceptingNewRequests = true ∨ type = .shutdown) :
    Stage { s with posting := posting, mainThreadTasks := s.mainThreadTasks ++ [task] } ∧
      (s.acceptingNewRequests = false → task.isShutdown = true) := by
  cases h with
  | accepting h1 h2 h3 h4 h5 h6 =>
    rw [hpost] at h4
    have htask := (h4 _ (mem_cons_self ..)).2
    refine ⟨.accepting h1 h2 h3 (fun p hp => h4 p (mem_cons_of_mem _ hp)) ?_ h6, ?_⟩
    · intro task' htask'
      rcases mem_append.mp htask' with hold | hnew
      · exact h5 task' hold
      · rw [mem_singleton.mp hnew]
        exact htask
    · intro hfalse
      rw [h1] at hfalse
      cases hfalse
  | queued type' h1 h2 h3 h4 h5 =>
    rw [hpost] at h4
    have htype := (h4 _ (mem_cons_self ..)).1
    rcases hkept with hacc | hshutdown
    · rw [h1] at hacc
      cases hacc
    · rw [hshutdown] at htype
      cases htype
  | performed type' h1 h2 h3 h4 h5 =>
    rw [hpost] at h4
    cases h4
    exact ⟨.posted type' s.mainThreadTasks h1 h2 h3 rfl rfl h5, fun _ => rfl⟩
  | posted type' tasks h1 h2 h3 h4 | done h1 h2 h3 h4 =>
    rw [hpost] at h4
    cases h4

theorem Stage.drop {p : MainThreadTask × DatabaseTaskType} (h : s.Stage)
    (hpost : s.posting = p :: posting) (hacc : s.acceptingNewRequests = false)
    (hnormal : p.2 = .normal) : Stage { s with posting := posting } := by
  cases h with
  | accepting h1 =>
    rw [h1] at hacc
    cases hacc
  | queued type h1 h2 h3 h4 h5 =>
    rw [hpost] at h4
    exact .queued type h1 h2 h3 (fun p hp => h4 p (mem_cons_of_mem _ hp)) h5
  | performed type h1 h2 h3 h4 h5 =>
    rw [hpost] at h4
    cases h4
    cases hnormal
  | posted type tasks h1 h2 h3 h4 | done h1 h2 h3 h4 =>
    rw [hpost] at h4
    cases h4

theorem inFlight_pop {α : Type} {ofMain : MainThreadTask → List α}
    {ofDatabase : DatabaseTask → List α}
    (hmain : s.mainThreadTasks = task :: tasks) :
    s.inFlight ofMain ofDatabase =
      ofMain task ++ inFlight ofMain ofDatabase { s with mainThreadTasks := tasks } := by
  unfold inFlight
  rw [hmain, flatMap_cons, append_assoc]

theorem Stage.pop (h : s.Stage)
    (hmain : s.mainThreadTasks = task :: tasks) (htask : task.isShutdown = false) :
    Stage { s with mainThreadTasks := tasks } := by
  cases h with
  | accepting h1 h2 h3 h4 h5 h6 =>
    rw [hmain] at h5
    exact .accepting h1 h2 h3 h4 (fun task' ht => h5 task' (mem_cons_of_mem _ ht)) h6
  | queued type h1 h2 h3 h4 h5 =>
    rw [hmain] at h5
    exact .queued type h1 h2 h3 h4 fun task' ht => h5 task' (mem_cons_of_mem _ ht)
  | performed type h1 h2 h3 h4 h5 =>
    rw [hmain] at h5
    exact .performed type h1 h2 h3 h4 fun task' ht => h5 task' (mem_cons_of_mem _ ht)
  | posted type tasks' h1 h2 h3 h4 h5 h6 =>
    rw [hmain] at h5
    cases tasks' with
    | nil =>
      cases h5
      cases htask
    | cons task' tasks' =>
      cases h5
      exact .posted type tasks' h1 h2 h3 h4 rfl fun task' ht => h6 task' (mem_cons_of_mem _ ht)
  | done h1 h2 h3 h4 h5 =>
    rw [hmain] at h5
    cases h5

namespace Accounted

theorem of_inFlight (h : Accounted moved s) (hreqs : t.requestIDsInFlight = s.requestIDsInFlight)
    (htransactions : t.transactionsInFlight = s.transactionsInFlight) (hstage : t.Stage)
    (hans : t.answers = s.answers) (hheld : t.held = s.held)
    (hnext : t.nextRequestID = s.nextRequestID)
    (hdb : t.pendingDatabaseTasks = s.pendingDatabaseTasks)
    (htrans : t.pendingTransactionRequests = s.pendingTransactionRequests)
    (hfound : t.foundNull = s.foundNull) : Accounted moved t where
  account := by
    rw [hans, hheld, hnext]
    exact h.account
  requests := by
    rw [hreqs]
    exact h.requests
  requestsPending := by
    rw [hreqs, hdb]
    exact h.requestsPending
  transactions := by
    rw [htransactions]
    exact h.transactions
  transactionsPending := by
    rw [htransactions, htrans]
    exact h.transactionsPending
  distinctTransactions := by
    rw [htrans]
    exact h.distinctTransactions
  found := hfound.trans h.found
  stage := hstage

theorem performNextDatabaseTask {task : DatabaseTask} {tasks : List DatabaseTask} {success : Bool}
    {metadata : Option DatabaseMetadata} (h : Accounted moved s) (hpost : s.posting = [])
    (hdb : s.databaseTasks = task :: tasks)
    (honce : s.acceptingNewRequests = true → task.repliesTwice = true → success = true) :
    Accounted moved { s with
      databaseTasks := tasks
      posting := task.completions s.inMemory success metadata } := by
  apply h.of_inFlight _ _ (h.stage.perform hdb) rfl rfl rfl rfl rfl rfl
  · exact inFlight_perform hpost hdb fun hacc =>
      requestIDs_completions (honce hacc)
  · exact inFlight_perform hpost hdb fun _ => transactions_completions

theorem postMainThreadTask (h : Accounted moved s) (hpost : s.posting = (task, type) :: posting)
    (hkept : s.acceptingNewRequests = true ∨ type = .shutdown) :
    Accounted moved { s with
      posting := posting
      mainThreadTasks := s.mainThreadTasks ++ [task] } := by
  obtain ⟨hstage, hshutdown⟩ := h.stage.post hpost hkept
  apply h.of_inFlight _ _ hstage rfl rfl rfl rfl rfl rfl
  all_goals
    apply inFlight_post hpost
    intro hacc
    obtain ⟨type, rfl⟩ := eq_didShutdown (hshutdown hacc)
    rfl

theorem dropMainThreadTask {p : MainThreadTask × DatabaseTaskType} (h : Accounted moved s)
    (hpost : s.posting = p :: posting) (hacc : s.acceptingNewRequests = false)
    (hnormal : p.2 = .normal) : Accounted moved { s with posting := posting } := by
  have hflight : ∀ {α : Type} (ofMain : MainThreadTask → List α)
      (ofDatabase : DatabaseTask → List α),
      inFlight ofMain ofDatabase { s with posting := posting } = s.inFlight ofMain ofDatabase := by
    intro α ofMain ofDatabase
    rw [inFlight_of_not_accepting hacc]
    exact inFlight_of_not_accepting hacc
  exact h.of_inFlight (hflight _ _) (hflight _ _) (h.stage.drop hpost hacc hnormal)
    rfl rfl rfl rfl rfl rfl

/-- The completion that is taken from the queue finds its request and is the only one. -/
theorem pop (h : Accounted moved s)
    (hmain : s.mainThreadTasks = task :: tasks) (htask : task.isShutdown = false) :
    Accounted moved { s with mainThreadTasks := tasks } ∧
      (∀ id ∈ task.requestIDs, id ∈ s.pendingDatabaseTasks.map fst ∧
        id ∉ requestIDsInFlight { s with mainThreadTasks := tasks }) ∧
      ∀ transaction ∈ task.transactions, transaction ∈ s.pendingTransactionRequests.map fst ∧
          transaction ∉ transactionsInFlight { s with mainThreadTasks := tasks } := by
  have hreqs : s.requestIDsInFlight =
      task.requestIDs ++ requestIDsInFlight { s with mainThreadTasks := tasks } :=
    inFlight_pop hmain
  have htrans : s.transactionsInFlight =
      task.transactions ++ transactionsInFlight { s with mainThreadTasks := tasks } :=
    inFlight_pop hmain
  have hnodup := h.requests
  have hpend := h.requestsPending
  have htnodup := h.transactions
  have htpending := h.transactionsPending
  rw [hreqs] at hnodup hpend
  rw [htrans] at htnodup htpending
  refine ⟨⟨h.account, hnodup.of_append_right, ?_, htnodup.of_append_right, ?_,
    h.distinctTransactions, h.found, h.stage.pop hmain htask⟩, ?_, ?_⟩
  · exact fun id hid => hpend id (mem_append_right _ hid)
  · exact fun id hid => htpending id (mem_append_right _ hid)
  · intro id hid
    exact ⟨hpend id (mem_append_left _ hid), hnodup.disjoint hid⟩
  · intro id hid
    exact ⟨htpending id (mem_append_left _ hid), htnodup.disjoint hid⟩

theorem answers (ids : List ℕ) (result : UniqueIDBDatabase → Answer)
    (h : Accounted (ids ++ moved) s) :
    Accounted moved (ids.foldl (fun s id => s.answer id (result s)) s) := by
  induction ids generalizing s with
  | nil => exact h
  | cons id ids ih =>
    exact ih (h.answer _)

theorem didOpenBackingStoreAndReadMetadata (h : Accounted moved s)
    (metadata : Option DatabaseMetadata) :
    Accounted moved (s.didOpenBackingStoreAndReadMetadata metadata) := by
  apply answers s.pendingMetadataRequests fun s => .completed s.metadata.isSome
  exact
    { account := by
        intro id
        have hacct := h.account id
        simp only [held, count_append, count_nil] at hacct ⊢
        omega
      requests := h.requests
      requestsPending := h.requestsPending
      transactions := h.transactions
      transactionsPending := h.transactionsPending
      distinctTransactions := h.distinctTransactions
      found := h.found
      stage := h.stage.of_tasks rfl rfl rfl rfl rfl rfl (fun _ => rfl) id id }

theorem didCompleteRequest (h : Accounted [] s) (hpend : requestID ∈ s.pendingDatabaseTasks.map fst)
    (hflight : requestID ∉ s.requestIDsInFlight) (success : Bool) :
    Accounted [] (s.didCompleteRequest requestID success) := by
  obtain ⟨request, hfind, hkey⟩ := exists_find?_of_mem hpend
  have hnodup : (s.pendingDatabaseTasks.map fst).Nodup := by
    rw [nodup_iff_count_le_one]
    intro id
    have hacct := h.account id
    simp only [held, count_append] at hacct
    split at hacct <;> omega
  have hperm := perm_of_find? hnodup hfind
  have hkeys := hperm.map fst
  unfold UniqueIDBDatabase.didCompleteRequest
  rw [hfind]
  apply answer
  exact
    { account := by
        intro id
        have hacct := h.account id
        have hcount := hkeys.count_eq id
        rw [map_cons, hkey, ← singleton_append, count_append] at hcount
        simp only [held, count_append, count_nil] at hacct ⊢
        omega
      requests := h.requests
      requestsPending := by
        intro id hid
        have hmem := hkeys.subset (h.requestsPending id hid)
        rw [map_cons, hkey] at hmem
        rcases mem_cons.mp hmem with rfl | hmem
        · exact absurd hid hflight
        · exact hmem
      transactions := h.transactions
      transactionsPending := h.transactionsPending
      distinctTransactions := h.distinctTransactions
      found := h.found
      stage := h.stage.of_tasks rfl rfl rfl rfl rfl rfl id id fun hnil => by
        rw [hnil]
        rfl }

theorem didCompleteTransactionOperation (h : Accounted [] s)
    (hpend : transaction ∈ s.pendingTransactionRequests.map fst)
    (hflight : transaction ∉ s.transactionsInFlight) (success : Bool) :
    Accounted [] (s.didCompleteTransactionOperation transaction success) := by
  obtain ⟨request, hfind, hkey⟩ := exists_find?_of_mem hpend
  have hperm := perm_of_find? h.distinctTransactions hfind
  have hkeys := hperm.map fst
  have htaken : Accounted (request.2.requestIDs ++ [])
      { s with
        pendingTransactionRequests :=
          s.pendingTransactionRequests.filter fun request => request.1 ≠ transaction } :=
    { account := by
        intro id
        have hacct := h.account id
        have hcount := (hperm.flatMap_right fun request => request.2.requestIDs).count_eq id
        rw [flatMap_cons, count_append] at hcount
        simp only [held, count_append, count_nil] at hacct ⊢
        omega
      requests := h.requests
      requestsPending := h.requestsPending
      transactions := h.transactions
      transactionsPending := by
        intro other hother
        have hmem := hkeys.subset (h.transactionsPending other hother)
        rw [map_cons, hkey] at hmem
        rcases mem_cons.mp hmem with rfl | hmem
        · exact absurd hother hflight
        · exact hmem
      distinctTransactions := (nodup_cons.mp (hkeys.nodup_iff.mp h.distinctTransactions)).2
      found := h.found
      stage := h.stage.of_tasks rfl rfl rfl rfl rfl rfl id (fun hnil => by
          rw [hnil]
          rfl)
        id }
  have hcalled := htaken.callTransactionCallback transaction (.completed success)
  unfold UniqueIDBDatabase.didCompleteTransactionOperation
  simp only [hfind]
  split
  · exact hcalled.finalizeRollback transaction
  · exact hcalled

theorem performCompletion (h : Accounted [] s) (hmain : s.mainThreadTasks = task :: tasks)
    (htask : task.isShutdown = false) :
    Accounted [] (performCompletion { s with mainThreadTasks := tasks } task) := by
  obtain ⟨hpopped, hreqs, htrans⟩ := h.pop hmain htask
  cases task with
  | didOpenBackingStoreAndReadMetadata metadata =>
    exact hpopped.didOpenBackingStoreAndReadMetadata metadata
  | didEstablishTransaction _ success | didResetTransaction _ success =>
    cases success with
    | false => exact hpopped
    | true => exact hpopped.with_establishedTransactions _
  | didCompleteTransactionOperation transaction success =>
    obtain ⟨hpend, hflight⟩ := htrans transaction (mem_singleton_self _)
    exact hpopped.didCompleteTransactionOperation hpend hflight success
  | didCompleteRequest requestID success =>
    obtain ⟨hpend, hflight⟩ := hreqs requestID (mem_singleton_self _)
    exact hpopped.didCompleteRequest hpend hflight success
  | didShutdownBackingStore type => cases htask

end Accounted

end UniqueIDBDatabase

/-!
## Every run answers its requests once

`didShutdownBackingStore` empties the collections: what it aborts is exactly what they hold.
With that every step keeps the account of requests, and the account of a state says that no
request was answered twice and, after the shutdown, that none was left out.
-/

open Transition

namespace UniqueIDBDatabase

variable {s t : UniqueIDBDatabase} {transaction : IDBIdentifier}

theorem foldl_answer (ids : List ℕ) (result : Answer) (s : UniqueIDBDatabase) :
    ids.foldl (fun s id => s.answer id result) s =
      { s with answers := s.answers ++ ids.map fun id => (id, result) } := by
  induction ids generalizing s with
  | nil => simp
  | cons id ids ih =>
    rw [foldl_cons, ih]
    simp [answer]

/-- After the shutdown the callbacks of `finalizeRollback` do nothing. -/
theorem callTransactionCallback_of_not_accepting (hacc : s.acceptingNewRequests = false)
    (hpend : s.hasPendingTransactionRequest transaction = true)
    (callback : TransactionCallback) (result : Answer) :
    s.callTransactionCallback transaction callback result =
      { s with answers := s.answers ++ callback.requestIDs.map fun id => (id, result) } := by
  cases callback with
  | client requestID => rfl
  | didRollback =>
    show s.didRollbackCallback transaction = _
    unfold didRollbackCallback
    simp [hpend, TransactionCallback.requestIDs]
  | didReset =>
    show s.didResetCallback = _
    unfold didResetCallback
    rw [if_neg (by simp [hacc])]
    simp [TransactionCallback.requestIDs]

theorem foldl_callTransactionCallback (requests : List (IDBIdentifier × TransactionCallback))
    (result : Answer) (s : UniqueIDBDatabase) (hacc : s.acceptingNewRequests = false)
    (hpend : ∀ request ∈ requests, s.hasPendingTransactionRequest request.1 = true) :
    requests.foldl (fun s request => s.callTransactionCallback request.1 request.2 result) s =
      { s with
        answers := s.answers ++
          (requests.flatMap fun request => request.2.requestIDs).map fun id => (id, result) } := by
  induction requests generalizing s with
  | nil => simp
  | cons request requests ih =>
    have hfirst := hpend request (mem_cons_self ..)
    rw [foldl_cons, callTransactionCallback_of_not_accepting hacc hfirst, ih]
    · simp
    · exact hacc
    · exact fun request' hmem => hpend request' (mem_cons_of_mem _ hmem)

theorem foldl_undo (requests : List (ℕ × MetadataUndo)) (result : Answer) (s : UniqueIDBDatabase) :
    ∃ metadata, requests.foldl (fun s request =>
        answer { s with metadata := s.metadata.map fun metadata => metadata.undo request.2 }
          request.1 result) s =
      { s with
        metadata := metadata
        answers := s.answers ++ requests.map fun request => (request.1, result) } := by
  induction requests generalizing s with
  | nil => exact ⟨s.metadata, by simp⟩
  | cons request requests ih =>
    obtain ⟨metadata, hfold⟩ := ih
      (answer { s with metadata := s.metadata.map fun metadata => metadata.undo request.2 }
        request.1 result)
    refine ⟨metadata, ?_⟩
    rw [foldl_cons, hfold]
    simp [answer]

theorem hasPendingTransactionRequest_of_mem {request : IDBIdentifier × TransactionCallback}
    (h : request ∈ s.pendingTransactionRequests) :
    s.hasPendingTransactionRequest request.1 = true := by
  unfold hasPendingTransactionRequest
  rw [any_eq_true]
  exact ⟨request, h, by simp⟩

/-- The ids of the requests that `abortRequests` aborts. -/
def outstanding (s : UniqueIDBDatabase) : List ℕ :=
  s.pendingMetadataRequests ++
    (s.pendingTransactionRequests.flatMap fun request => request.2.requestIDs) ++
    s.pendingDatabaseTasks.map fst

theorem abortRequests_of_not_accepting (hacc : s.acceptingNewRequests = false) :
    ∃ metadata, s.abortRequests =
      { s with
        metadata := metadata
        pendingMetadataRequests := []
        pendingTransactionRequests := []
        pendingDatabaseTasks := []
        answers := s.answers ++ s.outstanding.map fun id => (id, .aborted) } := by
  have hmeta := foldl_answer s.pendingMetadataRequests .aborted s
  have htrans := foldl_callTransactionCallback s.pendingTransactionRequests .aborted
    { s with
      answers := s.answers ++ s.pendingMetadataRequests.map fun id => (id, .aborted) }
    hacc fun request hreq => hasPendingTransactionRequest_of_mem hreq
  obtain ⟨metadata, hdb⟩ := foldl_undo s.pendingDatabaseTasks .aborted
    { s with
      answers := s.answers ++ s.pendingMetadataRequests.map (fun id => (id, .aborted)) ++
        (s.pendingTransactionRequests.flatMap fun request => request.2.requestIDs).map
          fun id => (id, .aborted) }
  refine ⟨metadata, ?_⟩
  unfold abortRequests
  simp only [hmeta]
  simp only [htrans]
  simp only [hdb]
  simp [outstanding, Function.comp_def]

theorem didShutdownBackingStore_eq (hacc : s.acceptingNewRequests = false)
    (hmain : s.mainThreadTasks = []) (type : ShutdownType) :
    ∃ metadata result, s.didShutdownBackingStore type =
      { s with
        metadata := metadata
        pendingMetadataRequests := []
        pendingTransactionRequests := []
        pendingDatabaseTasks := []
        pendingShutdownTask := none
        didShutdown := true
        answers := s.answers ++ (s.outstanding.map fun id => (id, .aborted)) ++
          s.pendingShutdownTask.toList.map fun id => (id, result) } := by
  obtain ⟨metadata, habort⟩ := abortRequests_of_not_accepting hacc
  refine ⟨metadata, .completed (decide (type = .deleteShutdown)), ?_⟩
  have hdrained : s.mainThreadTasks.foldl performCompletion
      { s with mainThreadTasks := [] } = s := by
    rw [hmain, foldl_nil, ← hmain]
  unfold didShutdownBackingStore
  simp only [hdrained, habort]
  cases s.pendingShutdownTask with
  | none => simp
  | some requestID => simp [answer]

namespace Accounted

theorem of_done (accepting : t.acceptingNewRequests = false) (didShutdown : t.didShutdown = true)
    (databaseTasks : t.databaseTasks = []) (posting : t.posting = [])
    (mainThreadTasks : t.mainThreadTasks = [])
    (pendingMetadataRequests : t.pendingMetadataRequests = [])
    (pendingTransactionRequests : t.pendingTransactionRequests = [])
    (pendingDatabaseTasks : t.pendingDatabaseTasks = [])
    (pendingShutdownTask : t.pendingShutdownTask = none) (found : t.foundNull = false)
    (account : ∀ id, (t.answers.map fst).count id + t.refusedDeletions.count id + 0 =
      if id < t.nextRequestID then 1 else 0) : Accounted [] t := by
  have hreqs : t.requestIDsInFlight = [] := by
    unfold requestIDsInFlight
    rw [inFlight_of_not_accepting accepting, mainThreadTasks, flatMap_nil]
  have htrans : t.transactionsInFlight = [] := by
    unfold transactionsInFlight
    rw [inFlight_of_not_accepting accepting, mainThreadTasks, flatMap_nil]
  have hheld : t.held = t.refusedDeletions := by
    unfold held
    rw [pendingMetadataRequests, pendingTransactionRequests, pendingDatabaseTasks,
      pendingShutdownTask]
    rfl
  exact
    { account := by
        rw [hheld]
        exact account
      requests := by simp [hreqs]
      requestsPending := by simp [hreqs]
      transactions := by simp [htrans]
      transactionsPending := by simp [htrans]
      distinctTransactions := by simp [pendingTransactionRequests]
      found := found
      stage := .done accepting didShutdown databaseTasks posting mainThreadTasks
        pendingMetadataRequests pendingTransactionRequests pendingDatabaseTasks
        pendingShutdownTask }

theorem didShutdownBackingStore {type : ShutdownType} (h : Accounted [] s)
    (hmain : s.mainThreadTasks = .didShutdownBackingStore type :: tasks) :
    Accounted [] (didShutdownBackingStore { s with mainThreadTasks := tasks } type) := by
  have hstage := h.stage
  cases hstage with
  | accepting h1 h2 h3 h4 h5 | queued type' h1 h2 h3 h4 h5 | performed type' h1 h2 h3 h4 h5 =>
    have hfalse := h5 _ (hmain ▸ mem_cons_self ..)
    cases hfalse
  | done h1 h2 h3 h4 h5 =>
    rw [hmain] at h5
    cases h5
  | posted type' tasks' h1 h2 h3 h4 h5 h6 =>
    have htasks : tasks = [] := by
      rw [hmain] at h5
      cases tasks' with
      | nil =>
        cases h5
        rfl
      | cons task' tasks' =>
        cases h5
        have hfalse := h6 _ (mem_cons_self ..)
        cases hfalse
    subst htasks
    obtain ⟨metadata, result, heq⟩ :=
      @didShutdownBackingStore_eq { s with mainThreadTasks := [] } h1 rfl type
    rw [heq]
    apply of_done
    case accepting => exact h1
    case databaseTasks => exact h3
    case posting => exact h4
    case found => exact h.found
    any_goals rfl
    intro id
    have hacct := h.account id
    have hids : (s.answers ++ (s.outstanding.map fun id => (id, Answer.aborted)) ++
        s.pendingShutdownTask.toList.map fun id => (id, result)).map fst =
        s.answers.map fst ++ s.outstanding ++ s.pendingShutdownTask.toList := by
      simp [Function.comp_def]
    show ((s.answers ++ (s.outstanding.map fun id => (id, Answer.aborted)) ++
        s.pendingShutdownTask.toList.map fun id => (id, result)).map fst).count id +
      s.refusedDeletions.count id + 0 = if id < s.nextRequestID then 1 else 0
    rw [hids]
    simp only [held, outstanding, count_append, count_nil] at hacct ⊢
    omega

end Accounted

/-- No task that replies twice fails while requests are accepted. -/
def RepliesOnce (s : UniqueIDBDatabase) : Event → Prop
  | .performNextDatabaseTask success _ =>
    s.acceptingNewRequests = true →
      ∀ task ∈ s.databaseTasks.head?, task.repliesTwice = true → success = true
  | _ => True

theorem Accounted.step {event : Event} (h : Accounted [] s) (honce : s.RepliesOnce event)
    (hstep : s.apply event = some t) : Accounted [] t := by
  cases event with
  | registerConnection connection =>
    simp only [apply] at hstep
    split at hstep
    · cases hstep
    · cases hstep
      exact h.with_connections _
  | unregisterConnection connection =>
    simp only [apply] at hstep
    split at hstep
    · cases hstep
      exact h.unregisterConnection connection
    · cases hstep
  | getOrEstablishIDBDatabaseMetadata =>
    cases hstep
    exact h.withNextRequestID.getOrEstablishIDBDatabaseMetadata
  | transactionOperation transaction operation =>
    cases hstep
    exact h.withNextRequestID.transactionOperation transaction operation
  | requestOperation operation =>
    cases hstep
    exact h.withNextRequestID.requestOperation operation
  | deleteDatabase =>
    cases hstep
    exact h.withNextRequestID.deleteDatabase
  | performNextDatabaseTask success metadata =>
    simp only [apply] at hstep
    split at hstep
    · rename_i task tasks hpost hdb
      cases hstep
      apply h.performNextDatabaseTask hpost hdb
      intro hacc
      exact honce hacc task (by rw [hdb]; rfl)
    · cases hstep
  | postMainThreadTask =>
    simp only [apply] at hstep
    split at hstep
    · cases hstep
    · rename_i task type posting hpost
      split at hstep
      · rename_i hdropped
        cases hstep
        simp only [Bool.and_eq_true, Bool.not_eq_true', decide_eq_true_eq] at hdropped
        exact h.dropMainThreadTask hpost hdropped.1 hdropped.2
      · rename_i hkept
        cases hstep
        apply h.postMainThreadTask hpost
        cases hacc : s.acceptingNewRequests with
        | true => exact .inl rfl
        | false =>
          cases type with
          | normal => simp [hacc] at hkept
          | shutdown => exact .inr rfl
  | performNextMainThreadTask =>
    simp only [apply] at hstep
    split at hstep
    · cases hstep
    · rename_i task tasks hmain
      cases hstep
      cases htask : task.isShutdown with
      | true =>
        obtain ⟨type, rfl⟩ := eq_didShutdown htask
        exact h.didShutdownBackingStore hmain
      | false =>
        have hcompletion := h.performCompletion hmain htask
        cases task with
        | didShutdownBackingStore type => cases htask
        | _ => exact hcompletion
  | callOnMainThread =>
    simp only [apply] at hstep
    split at hstep
    · cases hstep
    · rename_i requestID requestIDs href
      cases hstep
      apply Accounted.answer
      refine h.of_same ⟨rfl, rfl, rfl, rfl, rfl, rfl, rfl, rfl, rfl, rfl⟩ fun id => ?_
      have hacct := h.account id
      rw [← singleton_append] at href
      simp only [held, href, count_append, count_nil] at hacct ⊢
      omega

theorem accounted_create (inMemory : Bool) (connection : ℕ) :
    Accounted [] (create inMemory connection) where
  account := by
    intro id
    simp [create, held]
  requests := by simp [create, requestIDsInFlight, inFlight]
  requestsPending := by simp [create, requestIDsInFlight, inFlight]
  transactions := by simp [create, transactionsInFlight, inFlight]
  transactionsPending := by simp [create, transactionsInFlight, inFlight]
  distinctTransactions := nodup_nil
  found := rfl
  stage := .accepting rfl rfl (by simp [create]) (by simp [create]) (by simp [create]) rfl

/-- What clients are promised about the answers. -/
structure RequestsAnswered (s : UniqueIDBDatabase) : Prop where
  atMostOnce : (s.answers.map fst).Nodup
  completionsFound : s.foundNull = false
  /-- Only the refusal of a deletion can still be on its way. -/
  onceShutDown : s.didShutdown = true → ∀ id < s.nextRequestID, id ∉ s.refusedDeletions →
    id ∈ s.answers.map fst
  notAfterAbort : ∀ id, (id, .aborted) ∈ s.answers → (id, .completed true) ∉ s.answers

theorem Accounted.requestsAnswered (h : Accounted [] s) : s.RequestsAnswered := by
  have hnodup : (s.answers.map fst).Nodup := by
    rw [nodup_iff_count_le_one]
    intro id
    have hacct := h.account id
    split at hacct <;> omega
  refine ⟨hnodup, h.found, ?_, ?_⟩
  · intro hshutdown id hid href
    have hacct := h.account id
    rw [if_pos hid] at hacct
    have hnone := count_eq_zero_of_not_mem href
    cases h.stage with
    | accepting h1 h2 | queued type h1 h2 | performed type h1 h2 | posted type tasks h1 h2 =>
      rw [hshutdown] at h2
      cases h2
    | done h1 h2 h3 h4 h5 h6 h7 h8 h9 =>
      simp only [held, h6, h7, h8, h9, flatMap_nil, map_nil, Option.toList_none,
        nil_append, hnone, count_nil, Nat.add_zero] at hacct
      rw [← count_pos_iff, hacct]
      exact Nat.one_pos
  · intro id haborted hcomp
    have heq := inj_on_of_nodup_map hnodup haborted hcomp rfl
    cases heq

end UniqueIDBDatabase

end WebKit.IndexedDB
