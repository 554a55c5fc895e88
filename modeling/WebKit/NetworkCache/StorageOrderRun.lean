import WebKit.NetworkCache.StorageOrder

/-!
# Operations on a key are in order when they do not overlap

A run in which the operations on every key are `OneAtATime` keeps the files at the last request for
their keys (`Ordered`), so that no `retrieve` delivers an older record (`ReadsInOrder`) and the
files are right when everything has finished. Without this condition two writes of one key can
finish in either order.
-/

namespace WebKit.NetworkCache.StorageOrder

open Transition Storage Function List Option

variable {s t : StorageOrder} {storage : Storage} {event : Storage.Event} {key : Key}
  {op : WriteOperation} {initial : Path → Option File} {path : Path} {d : Bool}

/-! ## Requests -/

/-- The files are those of the last requests, as far as the work in the background has come. -/
structure Ordered (initial : Path → Option File) (s : StorageOrder) : Prop where
  nodup : s.storage.operations.Nodup
  requests_op : ∀ op ∈ s.storage.operations, s.requests op.key = some (.stored op)
  unique : ∀ key other, s.requests key ≠ none → s.requests other ≠ none →
    recordPathForKey key = recordPathForKey other → key = other
  key_eq : ∀ key op, s.requests key = some (.stored op) → op.key = key
  id_lt : ∀ key op, s.requests key = some (.stored op) → op.id < s.storage.nextWriteOperation
  id_inj : ∀ key op other op', s.requests key = some (.stored op) →
    s.requests other = some (.stored op') → op.id = op'.id → op = op'
  progress : ∀ key op, s.requests key = some (.stored op) → s.storage.Progress s.disturbed op
  queued : ∀ key ∈ s.serialBackgroundIOQueue, s.requests key = some .removed
  removed : ∀ key, s.requests key = some .removed →
    key ∈ s.serialBackgroundIOQueue ∨ s.storage.files (recordPathForKey key) = none
  untouched : ∀ path, (∀ key, s.requests key ≠ none → recordPathForKey key ≠ path) →
    s.storage.files path = initial path ∨ s.storage.files path = none

namespace Ordered

variable {op' : WriteOperation} {other : Key}

section

variable (h : s.Ordered initial)
include h

/-- Two last requests have the same path only if they are the same. -/
theorem path_ne
    (hop : s.requests key = some (.stored op)) (hop' : s.requests other = some (.stored op'))
    (hne : op' ≠ op) : recordPathForKey op'.key ≠ recordPathForKey op.key := by
  intro hpath
  have hkey := h.key_eq key op hop
  have hkey' := h.key_eq other op' hop'
  rw [hkey, hkey'] at hpath
  have heq := h.unique other key (by rw [hop']; exact some_ne_none _)
    (by rw [hop]; exact some_ne_none _) hpath
  rw [heq, hop] at hop'
  cases hop'
  exact hne rfl

theorem path_ne_of_removed (hmem : op ∈ s.storage.operations)
    (hrem : s.requests key = some .removed) :
    recordPathForKey key ≠ recordPathForKey op.key := by
  intro hpath
  have hop := h.requests_op op hmem
  have heq := h.unique key op.key (by rw [hrem]; exact some_ne_none _)
    (by rw [hop]; exact some_ne_none _) hpath
  rw [heq, hop] at hrem
  cases hrem

theorem id_ne
    (hop : s.requests key = some (.stored op)) (hop' : s.requests other = some (.stored op'))
    (hne : op' ≠ op) : op'.id ≠ op.id :=
  fun hid => hne (h.id_inj other op' key op hop' hop hid)

theorem of_progress (hnodup : storage.operations.Nodup)
    (hsub : ∀ op ∈ storage.operations, op ∈ s.storage.operations)
    (hnext : storage.nextWriteOperation = s.storage.nextWriteOperation)
    (hprog : ∀ key op, s.requests key = some (.stored op) → storage.Progress d op)
    (hrem : ∀ key, s.requests key = some .removed → s.storage.files (recordPathForKey key) = none →
      storage.files (recordPathForKey key) = none)
    (huntouched : ∀ path, (∀ key, s.requests key ≠ none → recordPathForKey key ≠ path) →
      storage.files path = s.storage.files path ∨ storage.files path = none) :
    Ordered initial { s with storage := storage, disturbed := d } where
  nodup := hnodup
  requests_op op hmem := h.requests_op op (hsub op hmem)
  unique := h.unique
  key_eq := h.key_eq
  id_lt key op hop := by
    rw [hnext]
    exact h.id_lt key op hop
  id_inj := h.id_inj
  progress := hprog
  queued := h.queued
  removed key hkey := by
    rcases h.removed key hkey with hqueued | hnone
    · exact .inl hqueued
    · exact .inr (hrem key hkey hnone)
  untouched path hpath := by
    rcases huntouched path hpath with heq | hnone
    · rw [heq]
      exact h.untouched path hpath
    · exact .inr hnone

theorem of_sameWrites (hsame : s.storage.SameWrites storage) (hd : s.disturbed = true → d = true) :
    Ordered initial { s with storage := storage, disturbed := d } := by
  apply h.of_progress
  · exact hsame.operations.nodup_iff.mpr h.nodup
  · intro op hmem
    exact hsame.operations.mem_iff.mp hmem
  · exact hsame.nextWriteOperation
  · intro key op hop
    exact (h.progress key op hop).congr hsame.operations.mem_iff
      (congrFun hsame.writeStage _) (congrFun hsame.files _) hd
  · intro key _ hnone
    rw [hsame.files]
    exact hnone
  · intro path _
    exact .inl (congrFun hsame.files path)

theorem deleteFile (deleted : Path) :
    Ordered initial { s with storage := s.storage.deleteFile deleted, disturbed := true } := by
  have hfiles := s.storage.files_deleteFile_cases deleted
  refine h.of_progress h.nodup (fun _ hmem => hmem) rfl ?_ ?_ ?_
  · intro key op hop
    exact (h.progress key op hop).deleteFile deleted
  · intro key _ hnone
    rcases hfiles (recordPathForKey key) with heq | hnone'
    · rw [heq]
      exact hnone
    · exact hnone'
  · intro path _
    exact hfiles path

theorem visitEmpty {deleted : Path}
    (hguard : ∀ key op, s.requests key = some (.stored op) → recordPathForKey key ≠ deleted) :
    Ordered initial { s with storage := s.storage.deleteFile deleted } := by
  have hfiles := s.storage.files_deleteFile_cases deleted
  refine h.of_progress (d := s.disturbed) h.nodup (fun _ hmem => hmem) rfl ?_ ?_ ?_
  · intro key op hop
    refine (h.progress key op hop).congr Iff.rfl rfl ?_ id
    rw [h.key_eq key op hop]
    exact update_of_ne (hguard key op hop) _ _
  · intro key _ hnone
    rcases hfiles (recordPathForKey key) with heq | hnone'
    · rw [heq]
      exact hnone
    · exact hnone'
  · intro path _
    exact hfiles path

theorem createFile (hmem : op ∈ s.storage.operations) :
    Ordered initial { s with storage := s.storage.createFile op } := by
  have hop := h.requests_op op hmem
  refine h.of_progress (d := s.disturbed) h.nodup (fun _ hmem' => hmem') rfl ?_ ?_ ?_
  · intro key op' hop'
    by_cases heq : op' = op
    · rw [heq]
      exact Progress.createFile hmem
    · refine (h.progress key op' hop').congr Iff.rfl ?_ ?_ ?_
      · exact update_of_ne (h.id_ne hop hop' heq) _ _
      · exact update_of_ne (h.path_ne hop hop' heq) _ _
      · exact id
  · intro key hrem hnone
    rw [← hnone]
    exact update_of_ne (h.path_ne_of_removed hmem hrem) _ _
  · intro path hpath
    apply Or.inl
    apply update_of_ne
    exact (hpath op.key (by rw [hop]; exact some_ne_none _)).symm

theorem writeFile (hmem : op ∈ s.storage.operations)
    (hstage : s.storage.writeStage op.id = .created) (error : Bool) :
    Ordered initial { s with
      storage := s.storage.writeFile op error
      disturbed := s.disturbed || error } := by
  have hop := h.requests_op op hmem
  have hfiles : ∀ path, path ≠ recordPathForKey op.key →
      (s.storage.writeFile op error).files path = s.storage.files path := by
    intro path hpath
    unfold Storage.writeFile
    dsimp only
    split
    · exact update_of_ne hpath _ _
    · rfl
  refine h.of_progress h.nodup (fun _ hmem' => hmem') rfl ?_ ?_ ?_
  · intro key op' hop'
    by_cases heq : op' = op
    · rw [heq]
      exact (h.progress op.key op hop).writeFile hmem hstage error
    · refine (h.progress key op' hop').congr Iff.rfl ?_ ?_ ?_
      · exact update_of_ne (h.id_ne hop hop' heq) _ _
      · exact hfiles _ (h.path_ne hop hop' heq)
      · intro hd
        rw [hd]
        rfl
  · intro key hrem hnone
    rw [← hnone]
    exact hfiles _ (h.path_ne_of_removed hmem hrem)
  · intro path hpath
    apply Or.inl
    apply hfiles
    exact (hpath op.key (by rw [hop]; exact some_ne_none _)).symm

theorem didWrite (hstage : s.storage.writeStage op.id = .written)
    (hops : storage.operations.Perm (s.storage.operations.erase op))
    (hwriteStage : storage.writeStage = s.storage.writeStage)
    (hfiles : storage.files = s.storage.files)
    (hnext : storage.nextWriteOperation = s.storage.nextWriteOperation) :
    Ordered initial { s with storage := storage } := by
  apply h.of_progress (d := s.disturbed)
  · exact hops.nodup_iff.mpr (h.nodup.erase op)
  · intro op' hmem
    exact mem_of_mem_erase (hops.mem_iff.mp hmem)
  · exact hnext
  · intro key op' hop'
    have hprog := h.progress key op' hop'
    by_cases heq : op' = op
    · rw [heq] at hprog ⊢
      have hhas := hprog.of_written hstage
      refine .inr (.inr ⟨fun _ => ?_, hhas.congr (congrFun hfiles _) id⟩)
      rw [hwriteStage]
      exact hstage
    · refine hprog.congr ?_ (congrFun hwriteStage _) (congrFun hfiles _) id
      rw [hops.mem_iff, mem_erase_of_ne heq]
  · intro key _ hnone
    rw [hfiles]
    exact hnone
  · intro path _
    exact .inl (congrFun hfiles path)

end

/-! ## New requests -/

theorem requests_request_self (s : StorageOrder) (key : Key) (request : Request) :
    (s.request key request).requests key = some request := update_self _ _ _

theorem requests_request_of_ne (request : Request) (hne : other ≠ key) :
    (s.request key request).requests other = s.requests other := update_of_ne hne _ _

theorem request_ne_none (request : Request) (h : s.requests other ≠ none) :
    (s.request key request).requests other ≠ none := by
  by_cases heq : other = key
  · rw [heq, requests_request_self]
    exact some_ne_none _
  · rwa [requests_request_of_ne request heq]

theorem unique_request (h : s.Ordered initial) (hfree : s.Free key) (request : Request)
    (other other' : Key) (hother : (s.request key request).requests other ≠ none)
    (hother' : (s.request key request).requests other' ≠ none)
    (hpath : recordPathForKey other = recordPathForKey other') : other = other' := by
  have hold : ∀ other, other ≠ key → (s.request key request).requests other ≠ none →
      s.requests other ≠ none := by
    intro other hne hsome
    rwa [requests_request_of_ne request hne] at hsome
  by_cases heq : other = key
  · by_cases heq' : other' = key
    · rw [heq, heq']
    · rw [heq] at hpath ⊢
      exact (hfree.2 other' (hold other' heq' hother') hpath.symm).symm
  · by_cases heq' : other' = key
    · rw [heq'] at hpath ⊢
      exact hfree.2 other (hold other heq hother) hpath
    · exact h.unique other other' (hold other heq hother) (hold other' heq' hother') hpath

theorem requests_of_stored {request : Request}
    (hstored : (s.request key request).requests other = some (.stored op')) :
    other = key ∧ request = .stored op' ∨ s.requests other = some (.stored op') := by
  by_cases heq : other = key
  · rw [heq, requests_request_self] at hstored
    cases hstored
    exact .inl ⟨heq, rfl⟩
  · rw [requests_request_of_ne request heq] at hstored
    exact .inr hstored

theorem key_ne (hfree : s.Free key) (hmem : op ∈ s.storage.operations) : op.key ≠ key :=
  fun heq => hfree.1 op hmem (by rw [heq])

theorem store (h : s.Ordered initial) {recordSize : ℕ} (hfree : s.Free key)
    (hqueue : ∀ removed ∈ s.serialBackgroundIOQueue,
      recordPathForKey removed ≠ recordPathForKey key)
    (hops : storage.operations.Perm
      (⟨s.storage.nextWriteOperation, key, recordSize⟩ :: s.storage.operations))
    (hstage : storage.writeStage =
      update s.storage.writeStage s.storage.nextWriteOperation .dispatched)
    (hfiles : storage.files = s.storage.files)
    (hnext : storage.nextWriteOperation = s.storage.nextWriteOperation + 1) :
    Ordered initial
      { s.request key (.stored ⟨s.storage.nextWriteOperation, key, recordSize⟩) with
        storage := storage } := by
  have hlt : ∀ op ∈ s.storage.operations, op.id < s.storage.nextWriteOperation :=
    fun op hmem => h.id_lt op.key op (h.requests_op op hmem)
  have hnew : (⟨s.storage.nextWriteOperation, key, recordSize⟩ : WriteOperation) ∉
      s.storage.operations := fun hmem => lt_irrefl _ (hlt _ hmem)
  exact {
    nodup := hops.nodup_iff.mpr (nodup_cons.mpr ⟨hnew, h.nodup⟩)
    requests_op := by
      intro op hmem
      rcases mem_cons.mp (hops.mem_iff.mp hmem) with rfl | hold
      · exact requests_request_self s key _
      · exact (requests_request_of_ne _ (key_ne hfree hold)).trans (h.requests_op op hold)
    unique := h.unique_request hfree _
    key_eq := by
      intro other op' hstored
      rcases requests_of_stored hstored with ⟨heq, hreq⟩ | hold
      · cases hreq
        exact heq.symm
      · exact h.key_eq other op' hold
    id_lt := by
      intro other op' hstored
      rw [hnext]
      rcases requests_of_stored hstored with ⟨-, hreq⟩ | hold
      · cases hreq
        exact Nat.lt_succ_self _
      · exact Nat.lt_succ_of_lt (h.id_lt other op' hold)
    id_inj := by
      intro other op' other' op'' hstored hstored' hid
      rcases requests_of_stored hstored with ⟨-, hreq⟩ | hold
      · cases hreq
        rcases requests_of_stored hstored' with ⟨-, hreq'⟩ | hold'
        · cases hreq'
          rfl
        · have hlt' := h.id_lt other' op'' hold'
          rw [← hid] at hlt'
          exact absurd hlt' (lt_irrefl _)
      · rcases requests_of_stored hstored' with ⟨-, hreq'⟩ | hold'
        · cases hreq'
          have hlt' := h.id_lt other op' hold
          rw [hid] at hlt'
          exact absurd hlt' (lt_irrefl _)
        · exact h.id_inj other op' other' op'' hold hold' hid
    progress := by
      intro other op' hstored
      rcases requests_of_stored hstored with ⟨-, hreq⟩ | hold
      · cases hreq
        refine .inl ⟨hops.mem_iff.mpr mem_cons_self, ?_⟩
        rw [hstage]
        exact update_self _ _ _
      · have hid : op'.id ≠ s.storage.nextWriteOperation := ne_of_lt (h.id_lt other op' hold)
        refine (h.progress other op' hold).congr ?_ ?_ (congrFun hfiles _) id
        · rw [hops.mem_iff, mem_cons]
          apply or_iff_right
          rintro rfl
          exact hid rfl
        · rw [hstage]
          exact update_of_ne hid _ _
    queued := by
      intro removed hmem
      have hne : removed ≠ key := fun heq => hqueue removed hmem (by rw [heq])
      exact (requests_request_of_ne _ hne).trans (h.queued removed hmem)
    removed := by
      intro other hrem
      have hne : other ≠ key := by
        rintro rfl
        cases (requests_request_self s other _).symm.trans hrem
      have hrem' := (requests_request_of_ne _ hne).symm.trans hrem
      rw [hfiles]
      exact h.removed other hrem'
    untouched := by
      intro path hpath
      rw [hfiles]
      apply h.untouched path
      intro other hsome
      exact hpath other (request_ne_none _ hsome) }

theorem remove (h : s.Ordered initial) (hfree : s.Free key) : (s.remove key).Ordered initial where
  nodup := h.nodup
  requests_op := by
    intro op hmem
    exact (requests_request_of_ne _ (key_ne hfree hmem)).trans (h.requests_op op hmem)
  unique := h.unique_request hfree _
  key_eq := by
    intro other op hstored
    rcases requests_of_stored hstored with ⟨-, hreq⟩ | hold
    · cases hreq
    · exact h.key_eq other op hold
  id_lt := by
    intro other op hstored
    rcases requests_of_stored hstored with ⟨-, hreq⟩ | hold
    · cases hreq
    · exact h.id_lt other op hold
  id_inj := by
    intro other op other' op' hstored hstored' hid
    rcases requests_of_stored hstored with ⟨-, hreq⟩ | hold
    · cases hreq
    · rcases requests_of_stored hstored' with ⟨-, hreq'⟩ | hold'
      · cases hreq'
      · exact h.id_inj other op other' op' hold hold' hid
  progress := by
    intro other op hstored
    rcases requests_of_stored hstored with ⟨-, hreq⟩ | hold
    · cases hreq
    · exact h.progress other op hold
  queued := by
    intro removed hmem
    by_cases heq : removed = key
    · rw [heq]
      exact requests_request_self s key _
    · rcases mem_append.mp hmem with hold | hnew
      · exact (requests_request_of_ne _ heq).trans (h.queued removed hold)
      · exact absurd (mem_singleton.mp hnew) heq
  removed := by
    intro other hrem
    by_cases heq : other = key
    · exact .inl (mem_append_right _ (mem_singleton.mpr heq))
    · have hrem' := (requests_request_of_ne _ heq).symm.trans hrem
      rcases h.removed other hrem' with hqueued | hnone
      · exact .inl (mem_append_left _ hqueued)
      · exact .inr hnone
  untouched := by
    intro path hpath
    apply h.untouched path
    intro other hsome
    exact hpath other (request_ne_none _ hsome)

theorem runRemoval (h : s.Ordered initial) {rest : List Key}
    (hqueue : s.serialBackgroundIOQueue = key :: rest) :
    (s.runRemoval key rest).Ordered initial := by
  have hkey : s.requests key = some .removed := h.queued key (by rw [hqueue]; exact mem_cons_self)
  have hguard : ∀ other op, s.requests other = some (.stored op) →
      recordPathForKey other ≠ recordPathForKey key := by
    intro other op hop hpath
    have heq := h.unique other key (by rw [hop]; exact some_ne_none _)
      (by rw [hkey]; exact some_ne_none _) hpath
    rw [heq, hkey] at hop
    cases hop
  have hdel := h.visitEmpty hguard
  exact { hdel with
    queued := fun removed hmem => h.queued removed (by
      rw [hqueue]
      exact mem_cons_of_mem _ hmem)
    removed := by
      intro other hrem
      rcases hdel.removed other hrem with hqueued | hnone
      · have hmem : other ∈ key :: rest := hqueue ▸ hqueued
        rcases mem_cons.mp hmem with rfl | hrest
        · exact .inr (update_self _ _ _)
        · exact .inl hrest
      · exact .inr hnone }

end Ordered

/-- A step that stores nothing changes the storage, and may disturb it. -/
theorem afterStorage_eq (s : StorageOrder) (storage : Storage)
    (hevent : ∀ key recordSize, event ≠ .store key recordSize) :
    ∃ d, s.afterStorage event storage = { s with storage := storage, disturbed := d } ∧
      (s.disturbed = true → d = true) := by
  cases event with
  | store key recordSize => exact absurd rfl (hevent key recordSize)
  | writeFile op error => exact ⟨_, rfl, fun hd => by rw [hd]; rfl⟩
  | shrinkFile | deleteFile => exact ⟨_, rfl, fun _ => rfl⟩
  | retrieve | setCapacity | createFile | didWrite | beginTraversal | visitFile | endTraversal
  | didSynchronize | endShrink | didShrink => exact ⟨_, rfl, id⟩

theorem afterStorage_fields (s : StorageOrder) (event : Storage.Event) (storage : Storage) :
    (s.afterStorage event storage).storage = storage ∧
      (s.afterStorage event storage).pendingReadOperations = s.pendingReadOperations ∧
      (s.afterStorage event storage).activeReadOperations = s.activeReadOperations ∧
      (s.afterStorage event storage).deliveries = s.deliveries := by
  cases event
  all_goals exact ⟨rfl, rfl, rfl, rfl⟩

theorem Ordered.afterStorage (h : s.Ordered initial) (hguard : s.OneAtATime (.storage event))
    (heffect : s.storage.Effect event storage) :
    (s.afterStorage event storage).Ordered initial := by
  cases heffect with
  | same hevent hsame =>
    obtain ⟨d, heq, hd⟩ := s.afterStorage_eq storage hevent
    rw [heq]
    exact h.of_sameWrites hsame hd
  | store _ hops hstage hfiles hnext =>
    exact h.store hguard.2.1 hguard.2.2 hops hstage hfiles hnext
  | noStore hcap => exact absurd hcap hguard.1
  | createFile op hmem _ => exact h.createFile hmem
  | writeFile op error hmem hstage => exact h.writeFile hmem hstage error
  | didWrite _ hstage hops hwriteStage hfiles hnext =>
    exact h.didWrite hstage (hops h.nodup) hwriteStage hfiles hnext
  | deleteFile path | shrinkFile path => exact h.deleteFile path
  | visitEmpty path file hfile hsize => exact h.visitEmpty (hguard file hfile hsize)

theorem Ordered.of_eq (h : s.Ordered initial) (hstorage : t.storage = s.storage)
    (hqueue : t.serialBackgroundIOQueue = s.serialBackgroundIOQueue)
    (hreqs : t.requests = s.requests) (hdisturbed : t.disturbed = s.disturbed) :
    t.Ordered initial := by
  obtain ⟨_, _, _, _, _, _, _⟩ := t
  cases hstorage
  cases hqueue
  cases hreqs
  cases hdisturbed
  exact { h with }

theorem Ordered.step {event : Event} (h : s.Ordered initial) (hguard : s.OneAtATime event)
    (hstep : Step s event t) : t.Ordered initial := by
  cases hstep with
  | storage event storage hstep => exact h.afterStorage hguard hstep.effect
  | remove key => exact h.remove hguard
  | runRemoval key rest hqueue => exact h.runRemoval hqueue
  | retrieveNothing key _ => exact h
  | retrieveFromMemory | retrieveFromDisk | dispatchReadOperation => exact h.of_eq rfl rfl rfl rfl
  | finishReadOperation read opened result success _ _ =>
    cases success with
    | true => exact h.of_eq rfl rfl rfl rfl
    | false =>
      have hdeliv : Ordered initial (StorageOrder.deliver { s with
          activeReadOperations := s.activeReadOperations.erase (read, opened) } read result) :=
        h.of_eq rfl rfl rfl rfl
      exact hdeliv.remove (hguard rfl)

/-- What is delivered, and what will be, is not older than the last store before the
`retrieve`. -/
structure ReadsInOrder (s : StorageOrder) : Prop where
  pending : ∀ read ∈ s.pendingReadOperations, ∀ stored, read.storedBefore = some stored →
    s.storage.NotBefore (recordPathForKey read.key) stored
  active : ∀ read opened, (read, opened) ∈ s.activeReadOperations →
    ∀ stored writer, read.storedBefore = some stored → opened = some writer → stored ≤ writer
  deliveries : ∀ delivery ∈ s.deliveries, ∀ stored, delivery.storedBefore = some stored →
    stored ≤ delivery.writer

theorem requests_of_lastStored {stored : ℕ} (h : s.lastStored key = some stored) :
    ∃ op, s.requests key = some (.stored op) ∧ op.id = stored := by
  unfold lastStored at h
  split at h
  · rename_i op heq
    cases h
    exact ⟨op, heq, rfl⟩
  · cases h

theorem FindsInMemory.mem (h : s.FindsInMemory key op) :
    op ∈ s.storage.operations ∧ op.key = key := by
  unfold FindsInMemory at h
  split at h
  · rename_i pending heq
    have hkey := find?_eq_some_iff_append.mp heq
    rw [h]
    exact ⟨mem_append_left _ (mem_of_find?_eq_some heq), of_decide_eq_true hkey.1⟩
  · exact ⟨mem_append_right _ h.1, h.2⟩

/-- `retrieve` goes to the disk only when no write operation has the key. -/
theorem key_ne_of_not_findsInMemory (h : ∀ op, ¬s.FindsInMemory key op)
    (hmem : op ∈ s.storage.operations) : op.key ≠ key := by
  intro hkey
  unfold FindsInMemory at h
  split at h
  · rename_i pending heq
    exact h pending rfl
  · rename_i hnone
    rcases mem_append.mp hmem with hpend | hactive
    · have hnot := find?_eq_none.mp hnone op hpend
      exact hnot (decide_eq_true hkey)
    · exact h op ⟨hactive, hkey⟩

/-- The file that a read will find, when there is no write operation of the key. -/
theorem Ordered.notBefore (h : s.Ordered initial) {stored : ℕ}
    (hnone : ∀ op, ¬s.FindsInMemory key op) (hstored : s.lastStored key = some stored) :
    s.storage.NotBefore (recordPathForKey key) stored := by
  obtain ⟨op, hop, rfl⟩ := requests_of_lastStored hstored
  have hkey := h.key_eq key op hop
  have hout : op ∉ s.storage.operations := fun hmem =>
    key_ne_of_not_findsInMemory hnone hmem hkey
  constructor
  · exact le_of_lt (h.id_lt key op hop)
  · intro file hfile
    rw [← hkey] at hfile
    rcases h.progress key op hop with ⟨hmem, -⟩ | ⟨hmem, -, -⟩ | ⟨-, hhas⟩
    · exact absurd hmem hout
    · exact absurd hmem hout
    · exact le_of_eq (hhas.writer file hfile).symm
  · intro op' hmem hpath
    have hop' := h.requests_op op' hmem
    have heq := h.unique op'.key key (by rw [hop']; exact some_ne_none _)
      (by rw [hop]; exact some_ne_none _) hpath
    exact absurd heq (key_ne_of_not_findsInMemory hnone hmem)

theorem ReadsInOrder.of_notBefore (h : s.ReadsInOrder)
    (hnotBefore : ∀ path n, s.storage.NotBefore path n → t.storage.NotBefore path n)
    (hpend : t.pendingReadOperations = s.pendingReadOperations)
    (hactive : t.activeReadOperations = s.activeReadOperations)
    (hdeliveries : t.deliveries = s.deliveries) : t.ReadsInOrder where
  pending read hmem stored hstored := by
    rw [hpend] at hmem
    exact hnotBefore _ _ (h.pending read hmem stored hstored)
  active read opened hmem := by
    rw [hactive] at hmem
    exact h.active read opened hmem
  deliveries delivery hmem := by
    rw [hdeliveries] at hmem
    exact h.deliveries delivery hmem

theorem ReadsInOrder.deliver (h : s.ReadsInOrder) {read : ReadOperation} {result : Option ℕ}
    (hle : ∀ stored writer, read.storedBefore = some stored → result = some writer →
      stored ≤ writer) :
    (s.deliver read result).ReadsInOrder where
  pending := h.pending
  active := h.active
  deliveries delivery hmem stored hstored := by
    rcases mem_append.mp hmem with hold | hnew
    · exact h.deliveries delivery hold stored hstored
    · rw [mem_toList, map_eq_some_iff] at hnew
      obtain ⟨writer, hres, rfl⟩ := hnew
      exact hle stored writer hstored hres

theorem ReadsInOrder.step {event : Event} (h : s.ReadsInOrder) (hord : s.Ordered initial)
    (hstep : Step s event t) : t.ReadsInOrder := by
  cases hstep with
  | storage event storage hstep =>
    obtain ⟨hstorage, hpend, hactive, hdeliveries⟩ := s.afterStorage_fields event storage
    refine h.of_notBefore (fun path n hbef => ?_) hpend hactive hdeliveries
    rw [hstorage]
    exact hbef.effect hord.nodup hstep.effect
  | remove key => exact h.of_notBefore (fun _ _ => id) rfl rfl rfl
  | runRemoval key rest _ =>
    exact h.of_notBefore (fun _ _ hbef => hbef.deleteFile _) rfl rfl rfl
  | retrieveNothing key _ => exact h
  | retrieveFromMemory key op _ hfinds =>
    apply h.deliver
    intro stored writer hstored hwriter
    cases hwriter
    obtain ⟨hmem, hkey⟩ := hfinds.mem
    obtain ⟨op', hop', hid⟩ := requests_of_lastStored hstored
    have hop := hord.requests_op op hmem
    rw [hkey, hop'] at hop
    cases hop
    exact le_of_eq hid.symm
  | retrieveFromDisk key _ hnone =>
    refine ⟨?_, h.active, h.deliveries⟩
    intro read hmem stored hstored
    rcases mem_append.mp hmem with hold | hnew
    · exact h.pending read hold stored hstored
    · cases mem_singleton.mp hnew
      exact hord.notBefore hnone hstored
  | dispatchReadOperation read hpend =>
    refine ⟨?_, ?_, h.deliveries⟩
    · intro other hmem
      exact h.pending other (mem_of_mem_erase hmem)
    · intro other opened hmem stored writer hstored hopened
      rcases mem_append.mp hmem with hold | hnew
      · exact h.active other opened hold stored writer hstored hopened
      · cases mem_singleton.mp hnew
        obtain ⟨file, hfile, rfl⟩ := map_eq_some_iff.mp hopened
        exact (h.pending read hpend stored hstored).files file hfile
  | finishReadOperation read opened result success hactive hres =>
    have herased : ReadsInOrder { s with
        activeReadOperations := s.activeReadOperations.erase (read, opened) } :=
      ⟨h.pending, fun other opened hmem => h.active other opened (mem_of_mem_erase hmem),
        h.deliveries⟩
    have hdeliv : ReadsInOrder (StorageOrder.deliver { s with
        activeReadOperations := s.activeReadOperations.erase (read, opened) } read result) := by
      apply herased.deliver
      intro stored writer hstored hwriter
      rcases hres with hnone | hopened
      · rw [hnone] at hwriter
        cases hwriter
      · exact h.active read opened hactive stored writer hstored (hopened.symm.trans hwriter)
    cases success with
    | true => exact hdeliv
    | false => exact hdeliv.of_notBefore (fun _ _ => id) rfl rfl rfl

/-! ## Runs -/

variable {capacity firstWriteOperation : ℕ} {files : Path → Option File}

theorem ordered_start : (start capacity firstWriteOperation files).Ordered files where
  nodup := nodup_nil
  requests_op _ hmem := nomatch hmem
  unique _ _ hsome := absurd rfl hsome
  key_eq _ _ hsome := nomatch hsome
  id_lt _ _ hsome := nomatch hsome
  id_inj _ _ _ _ hsome := nomatch hsome
  progress _ _ hsome := nomatch hsome
  queued _ hmem := nomatch hmem
  removed _ hsome := nomatch hsome
  untouched _ _ := .inl rfl

theorem readsInOrder_start : (start capacity firstWriteOperation files).ReadsInOrder where
  pending _ hmem := nomatch hmem
  active _ _ hmem := nomatch hmem
  deliveries _ hmem := nomatch hmem

theorem Ordered.settled (h : s.Ordered initial) (hidle : s.Idle) (hd : s.disturbed = false) :
    s.Settled initial where
  stored key op hop := by
    have hout : op ∉ s.storage.operations := by
      unfold operations
      rw [hidle.pendingWriteOperations, hidle.activeWriteOperations]
      exact not_mem_nil
    rw [← h.key_eq key op hop]
    rcases h.progress key op hop with ⟨hmem, -⟩ | ⟨hmem, -, -⟩ | ⟨-, hsome | ⟨hdisturbed, -⟩⟩
    · exact absurd hmem hout
    · exact absurd hmem hout
    · exact hsome
    · rw [hd] at hdisturbed
      cases hdisturbed
  removed key hrem := by
    apply (h.removed key hrem).resolve_left
    rw [hidle.serialBackgroundIOQueue]
    exact not_mem_nil
  untouched := h.untouched

def firstKey : Key := ⟨0, 0, 0⟩

def firstStore : WriteOperation := ⟨0, firstKey, 10⟩

def secondStore : WriteOperation := ⟨1, firstKey, 20⟩

end WebKit.NetworkCache.StorageOrder
