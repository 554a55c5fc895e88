import Mathlib.Data.Int.Notation
import WebKit.Transition.Run

/-!
# The metadata of a database

`IDBDatabaseBackend` edits its metadata when the front-end calls a method that changes the
schema, and the abort operation of that method takes the edit back. The maximum ids only grow,
and are not restored (`withoutMaximumIds`).
-/

namespace WebKit.IndexedDB

open Transition Function Option

inductive KeyPath
  | null
  | string (path : String)
  | array (paths : List String)
  deriving DecidableEq, Inhabited

structure IndexMetadata where
  name : String
  id : ℤ
  keyPath : KeyPath
  unique : Bool
  multiEntry : Bool
  deriving DecidableEq, Inhabited

structure ObjectStoreMetadata where
  name : String
  id : ℤ
  keyPath : KeyPath
  autoIncrement : Bool
  maxIndexId : ℤ
  indexes : ℤ → Option IndexMetadata
  deriving Inhabited

structure DatabaseMetadata where
  name : String
  id : ℤ
  version : ℕ
  maxObjectStoreId : ℤ
  objectStores : ℤ → Option ObjectStoreMetadata

/-- `IDBObjectStoreMetadata::InvalidId` and `IDBIndexMetadata::InvalidId`. -/
def invalidId : ℤ := -1

def minimumIndexId : ℤ := 30

namespace ObjectStoreMetadata

def withoutMaximumId (m : ObjectStoreMetadata) : ObjectStoreMetadata := { m with maxIndexId := 0 }

end ObjectStoreMetadata

namespace DatabaseMetadata

variable (m : DatabaseMetadata)

def setCurrentVersion (version : ℕ) : DatabaseMetadata := { m with version := version }

def addObjectStore (objectStore : ObjectStoreMetadata) (newMaxObjectStoreId : ℤ) :
    DatabaseMetadata :=
  { m with
    maxObjectStoreId :=
      if newMaxObjectStoreId ≠ invalidId then newMaxObjectStoreId else m.maxObjectStoreId
    objectStores := update m.objectStores objectStore.id (some objectStore) }

def removeObjectStore (objectStoreId : ℤ) : DatabaseMetadata :=
  { m with objectStores := update m.objectStores objectStoreId none }

/-- `HashMap::get` copies the object store, or makes one when there is none. -/
def getObjectStore (objectStoreId : ℤ) : ObjectStoreMetadata :=
  (m.objectStores objectStoreId).getD default

def setObjectStore (objectStoreId : ℤ) (objectStore : ObjectStoreMetadata) : DatabaseMetadata :=
  { m with objectStores := update m.objectStores objectStoreId (some objectStore) }

def addIndex (objectStoreId : ℤ) (index : IndexMetadata) (newMaxIndexId : ℤ) : DatabaseMetadata :=
  let objectStore := m.getObjectStore objectStoreId
  m.setObjectStore objectStoreId
    { objectStore with
      indexes := update objectStore.indexes index.id (some index)
      maxIndexId := if newMaxIndexId ≠ invalidId then newMaxIndexId else objectStore.maxIndexId }

def removeIndex (objectStoreId indexId : ℤ) : DatabaseMetadata :=
  let objectStore := m.getObjectStore objectStoreId
  m.setObjectStore objectStoreId
    { objectStore with indexes := update objectStore.indexes indexId none }

/-- What an abort restores. -/
def withoutMaximumIds : DatabaseMetadata :=
  { m with
    maxObjectStoreId := 0
    objectStores := fun id => (m.objectStores id).map ObjectStoreMetadata.withoutMaximumId }

/-- An object store is stored under its id, and so are its indexes. -/
structure WellKeyed : Prop where
  objectStore : ∀ id objectStore, m.objectStores id = some objectStore → objectStore.id = id
  index : ∀ id objectStore indexId index, m.objectStores id = some objectStore →
    objectStore.indexes indexId = some index → index.id = indexId

end DatabaseMetadata

/-- The operations of `m_abortTaskQueue`. -/
inductive SchemaAbortOperation
  | createObjectStore (objectStoreId : ℤ)
  | deleteObjectStore (objectStore : ObjectStoreMetadata)
  | createIndex (objectStoreId indexId : ℤ)
  | deleteIndex (objectStoreId : ℤ) (index : IndexMetadata)
  | versionChange (previousVersion : ℕ)

def SchemaAbortOperation.perform : SchemaAbortOperation → DatabaseMetadata → DatabaseMetadata
  | .createObjectStore objectStoreId, m => m.removeObjectStore objectStoreId
  | .deleteObjectStore objectStore, m => m.addObjectStore objectStore invalidId
  | .createIndex objectStoreId indexId, m => m.removeIndex objectStoreId indexId
  | .deleteIndex objectStoreId index, m => m.addIndex objectStoreId index invalidId
  | .versionChange previousVersion, m => m.setCurrentVersion previousVersion

namespace DatabaseMetadata

variable {m m' : DatabaseMetadata} {objectStore : ObjectStoreMetadata} {objectStoreId : ℤ}

theorem map_update {α β : Type*} (f : α → β) (g : ℤ → Option α) (k : ℤ) (a : Option α) :
    (fun id => (update g k a id).map f) = update (fun id => (g id).map f) k (a.map f) := by
  funext id
  by_cases hid : id = k
  · subst hid
    rw [update_self, update_self]
  · rw [update_of_ne hid, update_of_ne hid]

theorem withoutMaximumIds_addObjectStore (m : DatabaseMetadata) (objectStore : ObjectStoreMetadata)
    (newMaxObjectStoreId : ℤ) :
    (m.addObjectStore objectStore newMaxObjectStoreId).withoutMaximumIds =
      { m.withoutMaximumIds with
        objectStores := update m.withoutMaximumIds.objectStores objectStore.id
          (some objectStore.withoutMaximumId) } := by
  simp only [withoutMaximumIds, addObjectStore, map_update, map_some]

theorem withoutMaximumIds_removeObjectStore (m : DatabaseMetadata) (objectStoreId : ℤ) :
    (m.removeObjectStore objectStoreId).withoutMaximumIds =
      m.withoutMaximumIds.removeObjectStore objectStoreId := by
  simp only [withoutMaximumIds, removeObjectStore, map_update, map_none]

theorem withoutMaximumIds_setObjectStore (m : DatabaseMetadata) (objectStoreId : ℤ)
    (objectStore : ObjectStoreMetadata) :
    (m.setObjectStore objectStoreId objectStore).withoutMaximumIds =
      m.withoutMaximumIds.setObjectStore objectStoreId objectStore.withoutMaximumId := by
  simp only [withoutMaximumIds, setObjectStore, map_update, map_some]

theorem withoutMaximumId_getObjectStore (h : m.withoutMaximumIds = m'.withoutMaximumIds)
    (objectStoreId : ℤ) :
    (m.getObjectStore objectStoreId).withoutMaximumId =
      (m'.getObjectStore objectStoreId).withoutMaximumId := by
  have hstores := congrFun (congrArg objectStores h) objectStoreId
  rw [getObjectStore, getObjectStore]
  rcases hm : m.objectStores objectStoreId with _ | objectStore
  · rcases hm' : m'.objectStores objectStoreId with _ | objectStore'
    · rfl
    · simp only [withoutMaximumIds, hm, hm', map_none, map_some] at hstores
      cases hstores
  · rcases hm' : m'.objectStores objectStoreId with _ | objectStore'
    · simp only [withoutMaximumIds, hm, hm', map_none, map_some] at hstores
      cases hstores
    · simp only [withoutMaximumIds, hm, hm', map_some] at hstores
      exact some.inj hstores

theorem withoutMaximumId_indexes {s s' : ObjectStoreMetadata}
    (h : s.withoutMaximumId = s'.withoutMaximumId) (i i' : ℤ)
    (f : (ℤ → Option IndexMetadata) → ℤ → Option IndexMetadata) :
    ({ s with indexes := f s.indexes, maxIndexId := i } : ObjectStoreMetadata).withoutMaximumId =
      ({ s' with indexes := f s'.indexes, maxIndexId := i' } :
        ObjectStoreMetadata).withoutMaximumId := by
  cases s
  cases s'
  simp only [ObjectStoreMetadata.withoutMaximumId, ObjectStoreMetadata.mk.injEq] at h ⊢
  obtain ⟨hname, hid, hkeyPath, hauto, -, hidxs⟩ := h
  exact ⟨hname, hid, hkeyPath, hauto, trivial, by rw [hidxs]⟩

end DatabaseMetadata

open DatabaseMetadata in
theorem SchemaAbortOperation.respects :
    Respects SchemaAbortOperation.perform DatabaseMetadata.withoutMaximumIds := by
  intro a m m' h
  cases a with
  | createObjectStore objectStoreId =>
    simp only [perform]
    rw [withoutMaximumIds_removeObjectStore, withoutMaximumIds_removeObjectStore, h]
  | deleteObjectStore objectStore =>
    simp only [perform]
    rw [withoutMaximumIds_addObjectStore, withoutMaximumIds_addObjectStore, h]
  | createIndex objectStoreId indexId =>
    have hstore := withoutMaximumId_getObjectStore h objectStoreId
    simp only [perform, removeIndex]
    rw [withoutMaximumIds_setObjectStore, withoutMaximumIds_setObjectStore, h]
    congr 1
    exact withoutMaximumId_indexes hstore _ _ (update · indexId none)
  | deleteIndex objectStoreId index =>
    have hstore := withoutMaximumId_getObjectStore h objectStoreId
    simp only [perform, addIndex]
    rw [withoutMaximumIds_setObjectStore, withoutMaximumIds_setObjectStore, h]
    congr 1
    exact withoutMaximumId_indexes hstore _ _ (update · index.id (some index))
  | versionChange previousVersion =>
    have hstores := congrArg (fun m => m.setCurrentVersion previousVersion) h
    exact hstores

namespace DatabaseMetadata

variable {m : DatabaseMetadata} {objectStore : ObjectStoreMetadata} {objectStoreId : ℤ}

theorem update_update_eq {β : Type*} {f : ℤ → β} {k : ℤ} {a b : β} (h : f k = b) :
    update (update f k a) k b = f := by
  rw [update_idem, ← h, update_eq_self]

theorem removeObjectStore_addObjectStore (h : m.objectStores objectStore.id = none)
    (newMaxObjectStoreId : ℤ) :
    ((m.addObjectStore objectStore newMaxObjectStoreId).removeObjectStore
      objectStore.id).withoutMaximumIds = m.withoutMaximumIds := by
  simp only [addObjectStore, removeObjectStore, withoutMaximumIds]
  rw [update_update_eq h]

theorem addObjectStore_removeObjectStore (h : m.objectStores objectStore.id = some objectStore) :
    (m.removeObjectStore objectStore.id).addObjectStore objectStore invalidId = m := by
  simp only [addObjectStore, removeObjectStore]
  rw [update_update_eq h]
  rfl

theorem getObjectStore_setObjectStore (m : DatabaseMetadata) (objectStoreId : ℤ)
    (objectStore : ObjectStoreMetadata) :
    (m.setObjectStore objectStoreId objectStore).getObjectStore objectStoreId = objectStore := by
  rw [getObjectStore, setObjectStore]
  dsimp only
  rw [update_self]
  rfl

theorem setObjectStore_setObjectStore (m : DatabaseMetadata) (objectStoreId : ℤ)
    (objectStore objectStore' : ObjectStoreMetadata) :
    (m.setObjectStore objectStoreId objectStore).setObjectStore objectStoreId objectStore' =
      m.setObjectStore objectStoreId objectStore' := by
  simp only [setObjectStore, update_idem]

section

variable (h : m.objectStores objectStoreId = some objectStore)
include h

theorem setObjectStore_withoutMaximumIds {objectStore' : ObjectStoreMetadata}
    (heq : objectStore'.withoutMaximumId = objectStore.withoutMaximumId) :
    (m.setObjectStore objectStoreId objectStore').withoutMaximumIds = m.withoutMaximumIds := by
  rw [withoutMaximumIds_setObjectStore, heq]
  have hself : m.withoutMaximumIds.objectStores objectStoreId =
      some objectStore.withoutMaximumId := by
    simp only [withoutMaximumIds, h, map_some]
  rw [setObjectStore, ← hself, update_eq_self]

theorem removeIndex_addIndex
    {index : IndexMetadata} (hindex : objectStore.indexes index.id = none) (newMaxIndexId : ℤ) :
    ((m.addIndex objectStoreId index newMaxIndexId).removeIndex objectStoreId
      index.id).withoutMaximumIds = m.withoutMaximumIds := by
  simp only [addIndex, removeIndex]
  rw [getObjectStore_setObjectStore, setObjectStore_setObjectStore]
  apply setObjectStore_withoutMaximumIds h
  rw [getObjectStore, h]
  simp only [getD_some, ObjectStoreMetadata.withoutMaximumId]
  rw [update_update_eq hindex]

theorem addIndex_removeIndex
    {index : IndexMetadata} (hindex : objectStore.indexes index.id = some index) :
    ((m.removeIndex objectStoreId index.id).addIndex objectStoreId index
      invalidId).withoutMaximumIds = m.withoutMaximumIds := by
  simp only [addIndex, removeIndex]
  rw [getObjectStore_setObjectStore, setObjectStore_setObjectStore]
  apply setObjectStore_withoutMaximumIds h
  rw [getObjectStore, h]
  simp only [getD_some, ObjectStoreMetadata.withoutMaximumId]
  rw [update_update_eq hindex]

theorem getObjectStore_eq : m.getObjectStore objectStoreId = objectStore := by
  rw [getObjectStore, h]
  rfl

end

theorem WellKeyed.update {m' : DatabaseMetadata} (h : m.WellKeyed)
    {value : Option ObjectStoreMetadata}
    (hstores : m'.objectStores = update m.objectStores objectStoreId value)
    (hvalue : ∀ objectStore, value = some objectStore → objectStore.id = objectStoreId ∧
      ∀ indexId index, objectStore.indexes indexId = some index → index.id = indexId) :
    m'.WellKeyed where
  objectStore := by
    intro id objectStore hid
    rw [hstores] at hid
    by_cases heq : id = objectStoreId
    · subst heq
      rw [update_self] at hid
      exact (hvalue objectStore hid).1
    · rw [update_of_ne heq] at hid
      exact h.objectStore id objectStore hid
  index := by
    intro id objectStore indexId index hid hindex
    rw [hstores] at hid
    by_cases heq : id = objectStoreId
    · subst heq
      rw [update_self] at hid
      exact (hvalue objectStore hid).2 indexId index hindex
    · rw [update_of_ne heq] at hid
      exact h.index id objectStore indexId index hid hindex

theorem WellKeyed.update_index {m' : DatabaseMetadata} (h : m.WellKeyed)
    (hstore : m.objectStores objectStoreId = some objectStore) {objectStore' : ObjectStoreMetadata}
    (hstores : m'.objectStores = Function.update m.objectStores objectStoreId (some objectStore'))
    (hid : objectStore'.id = objectStore.id) {indexId : ℤ} {value : Option IndexMetadata}
    (hidxs : objectStore'.indexes = Function.update objectStore.indexes indexId value)
    (hvalue : ∀ index, value = some index → index.id = indexId) : m'.WellKeyed := by
  apply h.update hstores
  rintro _ ⟨⟩
  refine ⟨hid.trans (h.objectStore objectStoreId objectStore hstore), ?_⟩
  intro k index hk
  rw [hidxs] at hk
  by_cases heq : k = indexId
  · subst heq
    rw [Function.update_self] at hk
    exact hvalue index hk
  · rw [Function.update_of_ne heq] at hk
    exact h.index objectStoreId objectStore k index hstore hk

end DatabaseMetadata

end WebKit.IndexedDB
