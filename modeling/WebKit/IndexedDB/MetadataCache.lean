import WebKit.IndexedDB.StoredDatabase

/-!
# Edits of the cached metadata

A schema request edits the cache first (`edit`) and keeps how to take the edit back (`undoOf`).
Both concern one part of the metadata: the version, or one object store with its indexes. The
cache is explained by the stored metadata and the requests that the database thread has still to
perform (`Explains`).
-/

namespace WebKit.IndexedDB

open Function

def MetadataUndo.part : MetadataUndo → Option SchemaPart
  | .nothing => none
  | .setVersion _ => some .version
  | .removeObjectStore objectStoreID => some (.objectStore objectStoreID)
  | .setObjectStore metadata => some (.objectStore metadata.id)
  | .removeIndex objectStoreID _ => some (.objectStore objectStoreID)
  | .setIndex objectStoreID _ => some (.objectStore objectStoreID)

namespace DatabaseMetadata

variable {m m' c c' : DatabaseMetadata} {part : SchemaPart} {operation : DatabaseOperation}

/-- The parts are equal. -/
def AgreeAt (part : SchemaPart) (m m' : DatabaseMetadata) : Prop :=
  match part with
  | .version => m.version = m'.version
  | .objectStore id => m.objectStores id = m'.objectStores id

variable {id : ℤ}

namespace AgreeAt

theorem refl (part : SchemaPart) (m : DatabaseMetadata) : AgreeAt part m m := by
  cases part <;> rfl

theorem symm (h : AgreeAt part m m') : AgreeAt part m' m := by
  cases part <;> exact Eq.symm h

theorem trans (h : AgreeAt part m m') (h' : AgreeAt part m' c) : AgreeAt part m c := by
  cases part <;> exact Eq.trans h h'

theorem objectStores (h : AgreeAt (.objectStore id) m m') :
    m.objectStores id = m'.objectStores id := h

end AgreeAt

theorem agreeAt_updated (id : ℤ) (value : Option ObjectStoreMetadata) : AgreeAt (.objectStore id)
      { m with objectStores := update m.objectStores id value }
      { m' with objectStores := update m'.objectStores id value } := by
  show update m.objectStores id value id = update m'.objectStores id value id
  rw [update_self, update_self]

theorem agreeAt_update (id : ℤ) (value : Option ObjectStoreMetadata)
    (hne : part ≠ .objectStore id) :
    AgreeAt part { m with objectStores := update m.objectStores id value } m := by
  cases part with
  | version => rfl
  | objectStore id' =>
    apply update_of_ne
    rintro rfl
    exact hne rfl

theorem edit_other (h : operation.part ≠ some part) : AgreeAt part (m.edit operation) m := by
  cases operation with
  | changeDatabaseVersion transaction newVersion =>
    cases part with
    | version => exact absurd rfl h
    | objectStore id => rfl
  | createObjectStore | deleteObjectStore =>
    exact agreeAt_update _ _ fun heq => h (by rw [heq]; rfl)
  | _ => exact AgreeAt.refl part m

section

variable (hpart : operation.part = some part) (h : AgreeAt part m m')
include hpart h

theorem edit_congr :
    AgreeAt part (m.edit operation) (m'.edit operation) := by
  cases operation with
  | changeDatabaseVersion transaction newVersion =>
    cases hpart
    rfl
  | createObjectStore | deleteObjectStore =>
    cases hpart
    exact agreeAt_updated _ _
  | _ => exact h

theorem undoOf_congr :
    m.undoOf operation = m'.undoOf operation := by
  cases operation with
  | changeDatabaseVersion transaction newVersion =>
    cases hpart
    exact congrArg MetadataUndo.setVersion h
  | deleteObjectStore transaction objectStoreID =>
    cases hpart
    show MetadataUndo.setObjectStore (m.getObjectStore objectStoreID) = _
    rw [getObjectStore, h.objectStores]
    rfl
  | deleteIndex transaction objectStoreID indexID =>
    cases hpart
    show MetadataUndo.setIndex objectStoreID _ = _
    rw [getObjectStore, h.objectStores]
    rfl
  | _ => rfl

theorem allows_congr (hallows : m.Allows operation) : m'.Allows operation := by
  cases operation with
  | changeDatabaseVersion transaction newVersion => trivial
  | createObjectStore transaction metadata =>
    cases hpart
    exact h.objectStores.symm.trans hallows
  | deleteObjectStore transaction objectStoreID =>
    cases hpart
    show (m'.objectStores objectStoreID).isSome
    rw [← h.objectStores]
    exact hallows
  | createIndex | deleteIndex =>
    cases hpart
    obtain ⟨objectStore, hget, hindex⟩ := hallows
    exact ⟨objectStore, h.objectStores.symm.trans hget, hindex⟩
  | _ => cases hpart

end

variable {f : (ℤ → Option IndexMetadata) → ℤ → Option IndexMetadata}

theorem editIndexes_other (hne : part ≠ .objectStore id) : AgreeAt part (m.editIndexes id f) m := by
  unfold editIndexes
  split
  · exact AgreeAt.refl part m
  · exact agreeAt_update _ _ hne

theorem editIndexes_congr (h : AgreeAt (.objectStore id) m m') :
    AgreeAt (.objectStore id) (m.editIndexes id f) (m'.editIndexes id f) := by
  unfold editIndexes
  rw [h.objectStores]
  split
  · exact h
  · exact agreeAt_updated _ _

theorem undo_other {undo : MetadataUndo} (h : undo.part ≠ some part) :
    AgreeAt part (m.undo undo) m := by
  cases undo with
  | nothing => exact AgreeAt.refl part m
  | setVersion oldVersion =>
    cases part with
    | version => exact absurd rfl h
    | objectStore id => rfl
  | removeObjectStore objectStoreID =>
    exact agreeAt_update _ _ fun heq => h (by rw [heq]; rfl)
  | setObjectStore metadata => exact agreeAt_update _ _ fun heq => h (by rw [heq]; rfl)
  | removeIndex | setIndex => exact editIndexes_other fun heq => h (by rw [heq]; rfl)

theorem undo_congr {undo : MetadataUndo} (h : AgreeAt part m m') :
    AgreeAt part (m.undo undo) (m'.undo undo) := by
  by_cases hpart : undo.part = some part
  · cases undo with
    | nothing => cases hpart
    | setVersion oldVersion =>
      cases hpart
      rfl
    | removeObjectStore | setObjectStore =>
      cases hpart
      exact agreeAt_updated _ _
    | removeIndex | setIndex =>
      cases hpart
      exact editIndexes_congr h
  · exact (undo_other hpart).trans (h.trans (undo_other hpart).symm)

theorem getObjectStore_of_some {objectStore : ObjectStoreMetadata}
    (h : m.objectStores id = some objectStore) : m.getObjectStore id = objectStore := by
  rw [getObjectStore, h, Option.getD_some]

theorem editIndexes_agree
    {objectStore : ObjectStoreMetadata} (hget : m.objectStores id = some objectStore)
    (hf : f objectStore.indexes = objectStore.indexes) :
    AgreeAt (.objectStore id) (m.editIndexes id f) m := by
  unfold editIndexes
  rw [hget]
  show update m.objectStores id _ id = m.objectStores id
  rw [update_self, hf, hget]

/-- A request that the assertions allow can be taken back, and says which part that is. -/
theorem undo_edit (hkeyed : KeyedStores m.objectStores) (hallows : m.Allows operation)
    (hpart : operation.part = some part) :
    AgreeAt part ((m.edit operation).undo (m.undoOf operation)) m ∧
      (m.undoOf operation).part = some part := by
  cases operation with
  | changeDatabaseVersion transaction newVersion =>
    cases hpart
    exact ⟨rfl, rfl⟩
  | createObjectStore transaction metadata =>
    cases hpart
    exact ⟨(update_self ..).trans hallows.symm, rfl⟩
  | deleteObjectStore transaction objectStoreID =>
    cases hpart
    obtain ⟨objectStore, hget⟩ := Option.isSome_iff_exists.mp hallows
    have hid := (hkeyed _ _ hget).1
    show AgreeAt _ (undo _ (.setObjectStore _)) m ∧ (MetadataUndo.setObjectStore _).part = _
    rw [getObjectStore_of_some hget]
    refine ⟨?_, congrArg (fun id => some (SchemaPart.objectStore id)) hid⟩
    show update _ objectStore.id _ objectStoreID = _
    rw [hid, update_self, hget]
  | createIndex transaction objectStoreID metadata =>
    cases hpart
    obtain ⟨objectStore, hget, hindex⟩ := hallows
    refine ⟨editIndexes_agree hget ?_, rfl⟩
    rw [← hindex, update_eq_self]
  | deleteIndex transaction objectStoreID indexID =>
    cases hpart
    obtain ⟨objectStore, hget, hindex⟩ := hallows
    obtain ⟨index, hindex⟩ := Option.isSome_iff_exists.mp hindex
    have hid := (hkeyed _ _ hget).2 indexID index hindex
    show AgreeAt _ (undo _ (.setIndex _ _)) m ∧ _
    rw [getObjectStore_of_some hget, hindex, Option.getD_some]
    refine ⟨editIndexes_agree hget ?_, rfl⟩
    rw [hid, ← hindex, update_eq_self]
  | _ => cases hpart

theorem keyedStores_edit (hkeyed : KeyedStores m.objectStores) (hplain : operation.Plain) :
    KeyedStores (m.edit operation).objectStores := by
  cases operation with
  | createObjectStore transaction metadata =>
    apply hkeyed.update
    intro objectStore heq
    cases heq
    refine ⟨rfl, fun indexID index hindex => ?_⟩
    rw [show metadata.indexes = fun _ => none from hplain] at hindex
    cases hindex
  | deleteObjectStore transaction objectStoreID => exact hkeyed.update nofun
  | _ => exact hkeyed

/-- The requests lead from the stored metadata to the cached one, as far as the part goes. -/
def Explains (part : SchemaPart) (pending : List (ℕ × MetadataUndo)) :
    DatabaseMetadata → List (ℕ × DatabaseOperation) → DatabaseMetadata → Prop
  | c, [], m => AgreeAt part c m
  | c, (requestID, operation) :: requests, m =>
    (operation.part = some part ∧ c.Allows operation ∧ operation.Plain ∧
      (requestID, c.undoOf operation) ∈ pending) ∧
      Explains part pending (c.edit operation) requests m

namespace Explains

variable {pending pending' : List (ℕ × MetadataUndo)} {requests : List (ℕ × DatabaseOperation)}

theorem congr_stored (h : AgreeAt part c c') (hexplains : Explains part pending c requests m) :
    Explains part pending c' requests m := by
  induction requests generalizing c c' with
  | nil => exact h.symm.trans hexplains
  | cons request requests ih =>
    obtain ⟨⟨hpart, hallows, hplain, hpend⟩, hrest⟩ := hexplains
    refine ⟨⟨hpart, allows_congr hpart h hallows, hplain, ?_⟩, ih (edit_congr hpart h) hrest⟩
    rw [← undoOf_congr hpart h]
    exact hpend

theorem congr_cached (h : AgreeAt part m m') (hexplains : Explains part pending c requests m) :
    Explains part pending c requests m' := by
  induction requests generalizing c with
  | nil => exact hexplains.trans h
  | cons request requests ih => exact ⟨hexplains.1, ih hexplains.2⟩

theorem of_pending (hpend : ∀ undo, ∀ request ∈ requests, (request.1, undo) ∈ pending →
      (request.1, undo) ∈ pending')
    (hexplains : Explains part pending c requests m) :
    Explains part pending' c requests m := by
  induction requests generalizing c with
  | nil => exact hexplains
  | cons request requests ih =>
    obtain ⟨⟨hpart, hallows, hplain, hmem⟩, hrest⟩ := hexplains
    exact ⟨⟨hpart, hallows, hplain, hpend _ request (List.mem_cons_self ..) hmem⟩,
      ih (fun undo request hreq =>
        hpend undo request (List.mem_cons_of_mem _ hreq)) hrest⟩

theorem snoc {requestID : ℕ} (hexplains : Explains part pending c requests m)
    (hpart : operation.part = some part) (hallows : m.Allows operation)
    (hplain : operation.Plain) (hpend : (requestID, m.undoOf operation) ∈ pending) :
    Explains part pending c (requests ++ [(requestID, operation)]) (m.edit operation) := by
  induction requests generalizing c with
  | nil =>
    refine ⟨⟨hpart, allows_congr hpart (AgreeAt.symm hexplains) hallows, hplain, ?_⟩,
      edit_congr hpart hexplains⟩
    rw [undoOf_congr hpart hexplains]
    exact hpend
  | cons request requests ih => exact ⟨hexplains.1, ih hexplains.2⟩

/-- The cache agrees with metadata whose object stores are stored under their ids. -/
theorem exists_keyed (hkeyed : KeyedStores c.objectStores)
    (hexplains : Explains part pending c requests m) :
    ∃ c', KeyedStores c'.objectStores ∧ AgreeAt part c' m := by
  induction requests generalizing c with
  | nil => exact ⟨c, hkeyed, hexplains⟩
  | cons request requests ih =>
    exact ih (keyedStores_edit hkeyed hexplains.1.2.2.1) hexplains.2

end Explains

end DatabaseMetadata

open DatabaseMetadata

theorem keyedStores_objectStores {schema : Schema} {objectStores : ObjectStoreMap}
    (h : schema.objectStores = some objectStores) : KeyedStores objectStores := by
  apply keyedStores_readIndexes _ h
  apply keyedStores_readObjectStores
  exact nofun

/-- An operation that succeeds stores the edit of the cache, unless it is about an index. -/
theorem runStatements_eq_edit {schema schema' : Schema} {operation : DatabaseOperation}
    {part : SchemaPart} {c : DatabaseMetadata} {statements : ℕ}
    (hpart : operation.part = some part) (hindex : operation.isIndexOperation = false)
    (hplain : operation.Plain) (hallows : c.Allows operation) (hvers : c.version = schema.version)
    (hstores : schema.objectStores = some c.objectStores)
    (hrun : runStatements operation.statements statements schema = (true, schema')) :
    schema'.version = (c.edit operation).version ∧
      schema'.objectStores = some (c.edit operation).objectStores := by
  cases operation with
  | changeDatabaseVersion transaction newVersion =>
    cases statements with
    | zero => cases hrun
    | succ n =>
      cases hrun
      exact ⟨rfl, hstores⟩
  | createObjectStore transaction metadata =>
    cases statements with
    | zero => cases hrun
    | succ n =>
      simp only [DatabaseOperation.statements, runStatements] at hrun
      split at hrun
      · cases hrun
      rename_i hins
      split at hins
      · cases hins
      cases hins
      cases n with
      | zero => cases hrun
      | succ n =>
        cases hrun
        refine ⟨hvers.symm, ?_⟩
        have hnone : c.objectStores metadata.id = none := hallows
        unfold Schema.objectStores at hstores ⊢
        rw [readObjectStores_append]
        have hmeta : ObjectStoreInfoRow.metadata ⟨metadata.id, metadata.name, metadata.keyPath,
            metadata.autoIncrement, metadata.maxIndexId⟩ = metadata := by
          unfold ObjectStoreInfoRow.metadata
          rw [← show metadata.indexes = fun _ => none from hplain]
        rw [hmeta]
        apply readIndexes_update _ hstores
        intro row hrow hid
        have hsome := isSome_of_readIndexes hstores (.inr ⟨row, hrow, hid⟩)
        rw [hnone] at hsome
        cases hsome
  | deleteObjectStore transaction objectStoreID =>
    have hdel : schema' =
        { schema with
          objectStoreInfo := schema.objectStoreInfo.filter fun row => row.id ≠ objectStoreID
          indexInfo := schema.indexInfo.filter fun row => row.objectStoreID ≠ objectStoreID } := by
      rcases statements with - | - | - | - | - | n
      · cases hrun
      · cases hrun
      · cases hrun
      · cases hrun
      · cases hrun
      · cases hrun
        rfl
    rw [hdel]
    refine ⟨hvers.symm, ?_⟩
    unfold Schema.objectStores at hstores ⊢
    have hempty : (fun _ => none : ObjectStoreMap) = update (fun _ => none) objectStoreID none := by
      rw [update_eq_self]
    rw [hempty, readObjectStores_filter]
    exact readIndexes_filter hstores
  | createIndex | deleteIndex => cases hindex
  | _ => cases hpart

end WebKit.IndexedDB
