import WebKit.WTF.FastLog2
import WebKit.WTF.ListHashSet

/-!
# `MemoryCache`

Resources `ρ` with their clients `γ`, and the cache with its map, its lists of resources by size
and popularity, its list of live decoded resources and its two totals. A resource stays what it
is when it leaves the cache, and can get into it again. What calls out of the cache while it
prunes is in `WebKit.Loader.CachePruning`.
-/

namespace WebKit.Loader

open WTF

abbrev Unsigned := BitVec 32

/-- `std::min`. -/
def Unsigned.min (a b : Unsigned) : Unsigned := if b < a then b else a

/-- `std::max`. -/
def Unsigned.max (a b : Unsigned) : Unsigned := if a < b then b else a

/-! ## Resources -/

/-- What else a resource has that the cache looks at. -/
structure ResourceStatus (ρ : Type) where
  loading : Bool
  hasLoader : Bool
  preloadCount : ℕ
  handleCount : ℕ
  resourceToRevalidate : Option ρ
  proxyResource : Option ρ
  /-- A raw or main resource that has a response. -/
  callsBackLater : Bool
  decodedDataIsPurgeable : Bool
  /-- A response over https that must not be stored. -/
  isSecureNoStore : Bool

structure CachedResource (ρ γ : Type) where
  status : ResourceStatus ρ
  encodedSize : Unsigned
  decodedSize : Unsigned
  overheadSize : Unsigned
  accessCount : Unsigned
  clients : List γ
  clientsAwaitingCallback : List γ
  inCache : Bool
  deleted : Bool

namespace CachedResource

variable {ρ γ : Type} (resource : CachedResource ρ γ)

def size : Unsigned := resource.encodedSize + resource.decodedSize + resource.overheadSize

def hasClients : Bool :=
  !resource.clients.isEmpty || !resource.clientsAwaitingCallback.isEmpty

def isPreloaded : Bool := resource.status.preloadCount ≠ 0

def isLoaded : Bool := !resource.status.loading

def isCacheValidator : Bool := resource.status.resourceToRevalidate.isSome

def canDelete : Bool :=
  !resource.hasClients && !resource.status.hasLoader && !resource.isPreloaded &&
    resource.status.handleCount = 0 && resource.status.resourceToRevalidate.isNone &&
    resource.status.proxyResource.isNone

/-- The size is below 2^31, so that it does not overflow. -/
def IsSmall : Prop :=
  resource.encodedSize.toNat + resource.decodedSize.toNat + resource.overheadSize.toNat < 2 ^ 31

/-- The index of the list that `lruListFor` finds. -/
def queueIndex : ℕ := fastLog2 (resource.size / Unsigned.max resource.accessCount 1)

/-- A resource that has just been made. -/
def create (status : ResourceStatus ρ) (overheadSize : Unsigned) : CachedResource ρ γ where
  status := status
  encodedSize := 0
  decodedSize := 0
  overheadSize := overheadSize
  accessCount := 0
  clients := []
  clientsAwaitingCallback := []
  inCache := false
  deleted := false

end CachedResource

structure MemoryCache (ρ γ σ κ : Type) where
  disabled : Bool
  inPruneResources : Bool
  capacity : Unsigned
  minDeadCapacity : Unsigned
  maxDeadCapacity : Unsigned
  liveSize : Unsigned
  deadSize : Unsigned
  allResources : List (ListHashSet ρ)
  liveDecodedResources : ListHashSet ρ
  /-- The maps of all sessions. A session without resources has no map. -/
  sessionResources : List ((σ × κ) × ρ)
  resources : ρ → CachedResource ρ γ

namespace MemoryCache

variable {ρ γ σ κ : Type} [DecidableEq ρ] [DecidableEq γ] [DecidableEq σ] [DecidableEq κ]

/-- A cache that nothing has been added to, with the capacity that it starts with. -/
def create (capacity : Unsigned) (resources : ρ → CachedResource ρ γ) : MemoryCache ρ γ σ κ where
  disabled := false
  inPruneResources := false
  capacity := capacity
  minDeadCapacity := 0
  maxDeadCapacity := capacity
  liveSize := 0
  deadSize := 0
  allResources := []
  liveDecodedResources := .empty
  sessionResources := []
  resources := resources

variable (sessionID : ρ → σ) (key : ρ → κ) (s : MemoryCache ρ γ σ κ) (r : ρ)

def setResource (resource : CachedResource ρ γ) : MemoryCache ρ γ σ κ :=
  { s with resources := Function.update s.resources r resource }

def setStatus (status : ResourceStatus ρ) : MemoryCache ρ γ σ κ :=
  s.setResource r { s.resources r with status := status }

def setInCache (inCache : Bool) : MemoryCache ρ γ σ κ :=
  s.setResource r { s.resources r with inCache := inCache }

def lruList (i : ℕ) : ListHashSet ρ := s.allResources.getD i .empty

/-- The lists, with enough of them for the index. -/
def listsFor (i : ℕ) : List (ListHashSet ρ) :=
  s.allResources ++ List.replicate (i + 1 - s.allResources.length) .empty

def removeFromLRUList : MemoryCache ρ γ σ κ :=
  let resource := s.resources r
  if resource.accessCount = 0 then s
  else
    { s with
      allResources :=
        (s.listsFor resource.queueIndex).modify resource.queueIndex (·.remove r) }

def insertInLRUList : MemoryCache ρ γ σ κ :=
  let resource := s.resources r
  { s with
    allResources := (s.listsFor resource.queueIndex).modify resource.queueIndex (·.add r) }

def removeFromLiveDecodedResourcesList : MemoryCache ρ γ σ κ :=
  { s with liveDecodedResources := s.liveDecodedResources.remove r }

def insertInLiveDecodedResourcesList : MemoryCache ρ γ σ κ :=
  { s with liveDecodedResources := s.liveDecodedResources.add r }

def adjustSize (live : Bool) (delta : Unsigned) : MemoryCache ρ γ σ κ :=
  if live then { s with liveSize := s.liveSize + delta }
  else { s with deadSize := s.deadSize + delta }

def addToLiveResourcesSize : MemoryCache ρ γ σ κ :=
  { s with
    liveSize := s.liveSize + (s.resources r).size
    deadSize := s.deadSize - (s.resources r).size }

def removeFromLiveResourcesSize : MemoryCache ρ γ σ κ :=
  { s with
    liveSize := s.liveSize - (s.resources r).size
    deadSize := s.deadSize + (s.resources r).size }

def deadCapacity : Unsigned :=
  let capacity := s.capacity - Unsigned.min s.liveSize s.capacity
  let capacity := Unsigned.max capacity s.minDeadCapacity
  Unsigned.min capacity s.maxDeadCapacity

def liveCapacity : Unsigned := s.capacity - s.deadCapacity

def deleteIfPossible : MemoryCache ρ γ σ κ :=
  if (s.resources r).canDelete && !(s.resources r).inCache then
    s.setResource r { s.resources r with deleted := true }
  else s

def resourceAccessed : MemoryCache ρ γ σ κ :=
  let s := s.removeFromLRUList r
  let resource := s.resources r
  let s := if resource.accessCount = 0 then s.adjustSize resource.hasClients resource.size else s
  let s := s.setResource r { resource with accessCount := resource.accessCount + 1 }
  s.insertInLRUList r

def setInMap : MemoryCache ρ γ σ κ :=
  let mapKey := (sessionID r, key r)
  { s with
    sessionResources := (mapKey, r) :: s.sessionResources.filter fun entry => entry.1 ≠ mapKey }

def add : MemoryCache ρ γ σ κ :=
  if s.disabled then s
  else
    let s := s.setInMap sessionID key r
    let s := s.setInCache r true
    s.resourceAccessed r

/-- The map of the session that a resource belongs to. -/
def sessionResourceMap (session : σ) : Option (List ((σ × κ) × ρ)) :=
  let entries := s.sessionResources.filter fun entry => entry.1.1 = session
  if entries.isEmpty then none else some entries

def removeFromMap : MemoryCache ρ γ σ κ :=
  let mapKey := (sessionID r, key r)
  { s with sessionResources := s.sessionResources.filter fun entry => entry.1 ≠ mapKey }

/-- The part of `remove` after the resource has been removed from the map. -/
def removeFromCache : MemoryCache ρ γ σ κ :=
  let s := s.setInCache r false
  let s := s.removeFromLRUList r
  let s := s.removeFromLiveDecodedResourcesList r
  s.adjustSize (s.resources r).hasClients (-(s.resources r).size)

def remove : MemoryCache ρ γ σ κ :=
  let s :=
    if (s.sessionResourceMap (sessionID r)).isSome && (s.resources r).inCache then
      (s.removeFromMap sessionID key r).removeFromCache r
    else s
  s.deleteIfPossible r

/-- Inserts into or removes from the live decoded list if necessary. -/
def updateLiveDecodedResourcesList : MemoryCache ρ γ σ κ :=
  let resource := s.resources r
  let inLiveDecodedResourcesList := r ∈ s.liveDecodedResources
  if resource.decodedSize ≠ 0 ∧ ¬inLiveDecodedResourcesList ∧ resource.hasClients = true then
    s.insertInLiveDecodedResourcesList r
  else if resource.decodedSize = 0 ∧ inLiveDecodedResourcesList then
    s.removeFromLiveDecodedResourcesList r
  else s

def setDecodedSize (size : Unsigned) : MemoryCache ρ γ σ κ :=
  let resource := s.resources r
  if size = resource.decodedSize then s
  else
    let delta := size - resource.decodedSize
    let s := if resource.inCache then s.removeFromLRUList r else s
    let s := s.setResource r { resource with decodedSize := size }
    if resource.inCache then
      let s := s.insertInLRUList r
      let s := s.updateLiveDecodedResourcesList r
      s.adjustSize resource.hasClients delta
    else s

def setEncodedSize (size : Unsigned) : MemoryCache ρ γ σ κ :=
  let resource := s.resources r
  if size = resource.encodedSize then s
  else
    let delta := size - resource.encodedSize
    let s := if resource.inCache then s.removeFromLRUList r else s
    let s := s.setResource r { resource with encodedSize := size }
    if resource.inCache then
      let s := s.insertInLRUList r
      s.adjustSize resource.hasClients delta
    else s

variable (client : γ)

/-- Adds a client, and says whether it gets its callbacks at once. -/
def addClientToSet : MemoryCache ρ γ σ κ × Bool :=
  let resource := s.resources r
  let s := if !resource.hasClients && resource.inCache then s.addToLiveResourcesSize r else s
  if resource.status.callsBackLater && resource.status.proxyResource.isNone then
    let clientsAwaitingCallback :=
      if client ∈ resource.clientsAwaitingCallback then resource.clientsAwaitingCallback
      else client :: resource.clientsAwaitingCallback
    (s.setResource r { resource with clientsAwaitingCallback := clientsAwaitingCallback }, false)
  else (s.setResource r { resource with clients := client :: resource.clients }, true)

/-- A client that was waiting for its callback becomes an ordinary one. -/
def didAddClient : MemoryCache ρ γ σ κ :=
  let resource := s.resources r
  if client ∈ resource.clientsAwaitingCallback then
    s.setResource r
      { resource with
        clients := client :: resource.clients
        clientsAwaitingCallback := resource.clientsAwaitingCallback.erase client }
  else s

def addClient : MemoryCache ρ γ σ κ :=
  let (s, addedNow) := s.addClientToSet r client
  if addedNow then s.didAddClient r client else s

/-- The first part of `removeClient`. A client that a resource does not have cannot be removed. -/
def takeClient : Option (MemoryCache ρ γ σ κ) :=
  let resource := s.resources r
  if client ∈ resource.clientsAwaitingCallback then
    some (s.setResource r
      { resource with
        clientsAwaitingCallback := resource.clientsAwaitingCallback.erase client })
  else if client ∈ resource.clients then
    some (s.setResource r { resource with clients := resource.clients.erase client })
  else none

/-- What `removeClient` does to the cache when the last client has gone. -/
def releaseFromLive : MemoryCache ρ γ σ κ :=
  if (s.resources r).inCache then
    (s.removeFromLiveResourcesSize r).removeFromLiveDecodedResourcesList r
  else s

/-- The first part of `revalidationSucceeded`: a resource gets back into the cache. -/
def bringBack : MemoryCache ρ γ σ κ :=
  let s := s.setInMap sessionID key r
  let s := s.setInCache r true
  let s := s.insertInLRUList r
  let resource := s.resources r
  let s :=
    if resource.decodedSize ≠ 0 ∧ resource.hasClients = true then
      s.insertInLiveDecodedResourcesList r
    else s
  if resource.size ≠ 0 then s.adjustSize resource.hasClients resource.size else s

/-- `clearResourceToRevalidate` of a resource that is the proxy of another one, or not any more. -/
def clearResourceToRevalidate : MemoryCache ρ γ σ κ :=
  match (s.resources r).status.resourceToRevalidate with
  | none => s
  | some revalidated =>
    let status := (s.resources revalidated).status
    let s :=
      if status.proxyResource = some r then
        (s.setStatus revalidated { status with proxyResource := none }).deleteIfPossible revalidated
      else s
    let s := s.setStatus r { (s.resources r).status with resourceToRevalidate := none }
    s.deleteIfPossible r

/-- The last part of `revalidationSucceeded`: the clients of the proxy have been removed from it,
and are added to the resource itself. -/
def switchClients (revalidatingResource resource : ρ) (clientsToMove : List γ) :
    MemoryCache ρ γ σ κ :=
  let s := clientsToMove.foldl (fun s client => (s.addClientToSet resource client).1) s
  let s :=
    clientsToMove.foldl (fun s client =>
      if client ∈ (s.resources resource).clients then s.didAddClient resource client else s) s
  s.clearResourceToRevalidate revalidatingResource

def registerHandle : MemoryCache ρ γ σ κ :=
  let status := (s.resources r).status
  s.setStatus r { status with handleCount := status.handleCount + 1 }

def unregisterHandle : MemoryCache ρ γ σ κ :=
  let status := (s.resources r).status
  let s := s.setStatus r { status with handleCount := status.handleCount - 1 }
  if status.handleCount - 1 = 0 then s.deleteIfPossible r else s

/-- `m_allResources.shrink(i)` if nothing but empty lists is lost. -/
def shrinkLists (i : ℕ) : MemoryCache ρ γ σ κ :=
  { s with allResources := s.allResources.take i }

end MemoryCache

/-!
## Programs with a `MemoryCache`

While the cache prunes it calls `destroyDecodedData` of its resources, and a resource that loses
its last client makes the cache prune. So `Exec` defines all operations together with the loops
they are in. What a subclass does in `destroyDecodedData` and `allClientsRemoved` is not fixed
(`Command.releasing`): it makes decoded data smaller, lets clients and resources go, and may go on
in the operations that this entails. Sizes are below 2^31. An iterator must not be used when the element that it is at
has been removed from its list, so no rule applies there.
-/

open WTF

inductive Operation (ρ γ σ : Type)
  | add (r : ρ)
  | remove (r : ρ)
  | resourceAccessed (r : ρ)
  | addClient (r : ρ) (client : γ)
  | didAddClient (r : ρ) (client : γ)
  | removeClient (r : ρ) (client : γ)
  | setDecodedSize (r : ρ) (size : Unsigned)
  | setEncodedSize (r : ρ) (size : Unsigned)
  | destroyDecodedData (r : ρ)
  | setStatus (r : ρ) (status : ResourceStatus ρ)
  | deleteIfPossible (r : ρ)
  | pruneDeadResources
  | pruneLiveResources (shouldDestroyDecodedDataForAllLiveResources : Bool)
  | prune
  | setCapacities (minDeadBytes maxDeadBytes totalBytes : Unsigned)
  | setDisabled (disabled : Bool)
  | evictResources
  | evictSessionResources (session : σ)
  | revalidationSucceeded (revalidatingResource : ρ)

/-- An operation, or a loop of one with the place that it has come to. -/
inductive Command (ρ γ σ : Type)
  | call (operation : Operation ρ γ σ)
  | releasing
  | pruneDeadResourcesToSize (targetSize : Unsigned)
  | deadLists (targetSize : Unsigned) (canShrinkLRULists : Bool) (n : ℕ)
  | flushList (targetSize : Unsigned) (canShrinkLRULists : Bool) (i : ℕ) (it : Option ρ)
  | evictList (targetSize : Unsigned) (canShrinkLRULists : Bool) (i : ℕ) (it : Option ρ)
  | pruneLiveResourcesToSize (targetSize : Unsigned) (all : Bool)
  | liveFrom (targetSize : Unsigned) (all : Bool) (it : Option ρ)
  | removeAll
  | removeFrom (session : σ) (n : ℕ)
  | removeClients (r : ρ) (clients : List γ)

namespace MemoryCache

variable {ρ γ σ κ : Type} [DecidableEq ρ] [DecidableEq γ] [DecidableEq σ] [DecidableEq κ]

/-- The handle of the resource at the iterator. -/
def protect (s : MemoryCache ρ γ σ κ) : Option ρ → MemoryCache ρ γ σ κ
  | none => s
  | some next => s.registerHandle next

def unprotect (s : MemoryCache ρ γ σ κ) : Option ρ → MemoryCache ρ γ σ κ
  | none => s
  | some next => s.unregisterHandle next

/-- The resource at the iterator got kicked out of the cache. -/
def kickedOut (s : MemoryCache ρ γ σ κ) : Option ρ → Bool
  | none => false
  | some next => !(s.resources next).inCache

def flushNext (s : MemoryCache ρ γ σ κ) (targetSize : Unsigned) (canShrinkLRULists : Bool) (i : ℕ)
    (next : Option ρ) : Command ρ γ σ :=
  if s.kickedOut next then .evictList targetSize canShrinkLRULists i (s.lruList i).first
  else .flushList targetSize canShrinkLRULists i next

def evictNext (s : MemoryCache ρ γ σ κ) (targetSize : Unsigned) (canShrinkLRULists : Bool) (i : ℕ)
    (next : Option ρ) : Command ρ γ σ :=
  if s.kickedOut next then .evictList targetSize canShrinkLRULists i none
  else .evictList targetSize canShrinkLRULists i next

def isDead (s : MemoryCache ρ γ σ κ) (r : ρ) : Bool :=
  !(s.resources r).hasClients && !(s.resources r).isPreloaded

/-- Pruning stops at the target, if there is one. -/
def reaches (targetSize size : Unsigned) : Bool := targetSize ≠ 0 && size ≤ targetSize

def hasDecodedData (s : MemoryCache ρ γ σ κ) (r : ρ) : Bool :=
  (s.resources r).isLoaded && (s.resources r).decodedSize ≠ 0

section Exec

variable (sessionID : ρ → σ) (key : ρ → κ) (targetPrunePercentage : Unsigned → Unsigned)

inductive Exec : MemoryCache ρ γ σ κ → Command ρ γ σ → MemoryCache ρ γ σ κ → Prop
  | add (s : MemoryCache ρ γ σ κ) (r : ρ) : Exec s (.call (.add r)) (s.add sessionID key r)
  | remove (s : MemoryCache ρ γ σ κ) (r : ρ) :
    Exec s (.call (.remove r)) (s.remove sessionID key r)
  | resourceAccessed {s : MemoryCache ρ γ σ κ} {r : ρ} :
    (s.resources r).inCache = true → Exec s (.call (.resourceAccessed r)) (s.resourceAccessed r)
  | addClient (s : MemoryCache ρ γ σ κ) (r : ρ) (client : γ) :
    Exec s (.call (.addClient r client)) (s.addClient r client)
  | didAddClient (s : MemoryCache ρ γ σ κ) (r : ρ) (client : γ) :
    Exec s (.call (.didAddClient r client)) (s.didAddClient r client)
  | setDecodedSize {s : MemoryCache ρ γ σ κ} {r : ρ} {size : Unsigned} :
    ({ s.resources r with decodedSize := size }).IsSmall →
    Exec s (.call (.setDecodedSize r size)) (s.setDecodedSize r size)
  | setEncodedSize {s : MemoryCache ρ γ σ κ} {r : ρ} {size : Unsigned} :
    ({ s.resources r with encodedSize := size }).IsSmall →
    Exec s (.call (.setEncodedSize r size)) (s.setEncodedSize r size)
  | setStatus (s : MemoryCache ρ γ σ κ) (r : ρ) (status : ResourceStatus ρ) :
    Exec s (.call (.setStatus r status)) (s.setStatus r status)
  | deleteIfPossible (s : MemoryCache ρ γ σ κ) (r : ρ) :
    Exec s (.call (.deleteIfPossible r)) (s.deleteIfPossible r)
  -- removing a client
  | removeClient {s t : MemoryCache ρ γ σ κ} {r : ρ} {client : γ} :
    s.takeClient r client = some t →
    ((t.resources r).canDelete && !(t.resources r).inCache) = true ∨
      (t.resources r).hasClients = true →
    Exec s (.call (.removeClient r client)) (t.deleteIfPossible r)
  | removeLastClient {s t u v : MemoryCache ρ γ σ κ} {r : ρ} {client : γ} :
    s.takeClient r client = some t →
    ((t.resources r).canDelete && !(t.resources r).inCache) = false →
    (t.resources r).hasClients = false →
    Exec (t.releaseFromLive r) .releasing u →
    Exec (if (u.resources r).status.isSecureNoStore then u.remove sessionID key r else u)
      (.call .prune) v →
    Exec s (.call (.removeClient r client)) v
  -- what subclasses do
  | destroyDecodedData {s t : MemoryCache ρ γ σ κ} {r : ρ} :
    Exec s .releasing t → Exec s (.call (.destroyDecodedData r)) t
  | released (s : MemoryCache ρ γ σ κ) : Exec s .releasing s
  | releaseDecodedData {s t : MemoryCache ρ γ σ κ} {r : ρ} {size : Unsigned} :
    size ≤ (s.resources r).decodedSize → Exec (s.setDecodedSize r size) .releasing t →
    Exec s .releasing t
  | releaseClient {s t u : MemoryCache ρ γ σ κ} {r : ρ} {client : γ} :
    Exec s (.call (.removeClient r client)) t → Exec t .releasing u → Exec s .releasing u
  | releaseResource {s t : MemoryCache ρ γ σ κ} {r : ρ} :
    Exec (s.remove sessionID key r) .releasing t → Exec s .releasing t
  | releaseStatus {s t : MemoryCache ρ γ σ κ} {r : ρ} {status : ResourceStatus ρ} :
    Exec ((s.setStatus r status).deleteIfPossible r) .releasing t → Exec s .releasing t
  -- pruning
  | pruneFast {s : MemoryCache ρ γ σ κ} :
    s.liveSize + s.deadSize ≤ s.capacity → s.deadSize ≤ s.maxDeadCapacity →
    Exec s (.call .prune) s
  | prune {s t u : MemoryCache ρ γ σ κ} :
    ¬(s.liveSize + s.deadSize ≤ s.capacity ∧ s.deadSize ≤ s.maxDeadCapacity) →
    Exec s (.call .pruneDeadResources) t → Exec t (.call (.pruneLiveResources false)) u →
    Exec s (.call .prune) u
  | setCapacities {s t : MemoryCache ρ γ σ κ} {minDeadBytes maxDeadBytes totalBytes : Unsigned} :
    Exec { s with
      minDeadCapacity := minDeadBytes
      maxDeadCapacity := maxDeadBytes
      capacity := totalBytes } (.call .prune) t →
    Exec s (.call (.setCapacities minDeadBytes maxDeadBytes totalBytes)) t
  | pruneDeadResourcesFast {s : MemoryCache ρ γ σ κ} :
    reaches s.deadCapacity s.deadSize = true → Exec s (.call .pruneDeadResources) s
  | pruneDeadResources {s t : MemoryCache ρ γ σ κ} :
    reaches s.deadCapacity s.deadSize = false →
    Exec s (.pruneDeadResourcesToSize (targetPrunePercentage s.deadCapacity)) t →
    Exec s (.call .pruneDeadResources) t
  | pruneDeadResourcesToSizeFast {s : MemoryCache ρ γ σ κ} {targetSize : Unsigned} :
    s.inPruneResources = true ∨ reaches targetSize s.deadSize = true →
    Exec s (.pruneDeadResourcesToSize targetSize) s
  | pruneDeadResourcesToSize {s t : MemoryCache ρ γ σ κ} {targetSize : Unsigned} :
    s.inPruneResources = false → reaches targetSize s.deadSize = false →
    Exec { s with inPruneResources := true } (.deadLists targetSize true s.allResources.length) t →
    Exec s (.pruneDeadResourcesToSize targetSize) { t with inPruneResources := false }
  | deadListsEnd (s : MemoryCache ρ γ σ κ) (targetSize : Unsigned) (canShrinkLRULists : Bool) :
    Exec s (.deadLists targetSize canShrinkLRULists 0) s
  | deadLists {s t : MemoryCache ρ γ σ κ} {targetSize : Unsigned} {canShrinkLRULists : Bool}
      {i : ℕ} :
    Exec s (.flushList targetSize canShrinkLRULists i (s.lruList i).first) t →
    Exec s (.deadLists targetSize canShrinkLRULists (i + 1)) t
  | flushListEnd {s t : MemoryCache ρ γ σ κ} {targetSize : Unsigned} {canShrinkLRULists : Bool}
      {i : ℕ} :
    Exec s (.evictList targetSize canShrinkLRULists i (s.lruList i).first) t →
    Exec s (.flushList targetSize canShrinkLRULists i none) t
  | flushListSkip {s t : MemoryCache ρ γ σ κ} {targetSize : Unsigned} {canShrinkLRULists : Bool}
      {i : ℕ} {current : ρ} :
    current ∈ s.lruList i → (s.isDead current && (s.resources current).isLoaded) = false →
    Exec s (s.flushNext targetSize canShrinkLRULists i ((s.lruList i).next current)) t →
    Exec s (.flushList targetSize canShrinkLRULists i (some current)) t
  | flushListReturn {s t : MemoryCache ρ γ σ κ} {targetSize : Unsigned} {canShrinkLRULists : Bool}
      {i : ℕ} {current : ρ} :
    current ∈ s.lruList i → (s.isDead current && (s.resources current).isLoaded) = true →
    Exec (s.protect ((s.lruList i).next current)) .releasing t →
    reaches targetSize t.deadSize = true →
    Exec s (.flushList targetSize canShrinkLRULists i (some current))
      (t.unprotect ((s.lruList i).next current))
  | flushList {s t u : MemoryCache ρ γ σ κ} {targetSize : Unsigned} {canShrinkLRULists : Bool}
      {i : ℕ} {current : ρ} :
    current ∈ s.lruList i → (s.isDead current && (s.resources current).isLoaded) = true →
    Exec (s.protect ((s.lruList i).next current)) .releasing t →
    reaches targetSize t.deadSize = false →
    Exec (t.unprotect ((s.lruList i).next current))
      (t.flushNext targetSize canShrinkLRULists i ((s.lruList i).next current)) u →
    Exec s (.flushList targetSize canShrinkLRULists i (some current)) u
  | evictListKeep {s t : MemoryCache ρ γ σ κ} {targetSize : Unsigned} {canShrinkLRULists : Bool}
      {i : ℕ} :
    (canShrinkLRULists && (s.lruList i).isEmpty) = false → Exec s (.deadLists targetSize false i) t →
    Exec s (.evictList targetSize canShrinkLRULists i none) t
  | evictListShrink {s t : MemoryCache ρ γ σ κ} {targetSize : Unsigned} {i : ℕ} :
    (s.lruList i).isEmpty = true → Exec (s.shrinkLists i) (.deadLists targetSize true i) t →
    Exec s (.evictList targetSize true i none) t
  | evictListSkip {s t : MemoryCache ρ γ σ κ} {targetSize : Unsigned} {canShrinkLRULists : Bool}
      {i : ℕ} {current : ρ} :
    current ∈ s.lruList i →
    (s.isDead current && !(s.resources current).isCacheValidator) = false →
    Exec s (s.evictNext targetSize canShrinkLRULists i ((s.lruList i).next current)) t →
    Exec s (.evictList targetSize canShrinkLRULists i (some current)) t
  | evictListReturn {s t : MemoryCache ρ γ σ κ} {targetSize : Unsigned} {canShrinkLRULists : Bool}
      {i : ℕ} {current : ρ} :
    current ∈ s.lruList i →
    (s.isDead current && !(s.resources current).isCacheValidator) = true →
    t = (s.protect ((s.lruList i).next current)).remove sessionID key current →
    reaches targetSize t.deadSize = true →
    Exec s (.evictList targetSize canShrinkLRULists i (some current))
      (t.unprotect ((s.lruList i).next current))
  | evictList {s t u : MemoryCache ρ γ σ κ} {targetSize : Unsigned} {canShrinkLRULists : Bool}
      {i : ℕ} {current : ρ} :
    current ∈ s.lruList i →
    (s.isDead current && !(s.resources current).isCacheValidator) = true →
    t = (s.protect ((s.lruList i).next current)).remove sessionID key current →
    reaches targetSize t.deadSize = false →
    Exec (t.unprotect ((s.lruList i).next current))
      (t.evictNext targetSize canShrinkLRULists i ((s.lruList i).next current)) u →
    Exec s (.evictList targetSize canShrinkLRULists i (some current)) u
  | pruneLiveResourcesFast {s : MemoryCache ρ γ σ κ} :
    reaches s.liveCapacity s.liveSize = true → Exec s (.call (.pruneLiveResources false)) s
  | pruneLiveResources {s t : MemoryCache ρ γ σ κ} :
    reaches s.liveCapacity s.liveSize = false →
    Exec s (.pruneLiveResourcesToSize (targetPrunePercentage s.liveCapacity) false) t →
    Exec s (.call (.pruneLiveResources false)) t
  | pruneAllLiveResources {s t : MemoryCache ρ γ σ κ} :
    Exec s (.pruneLiveResourcesToSize (targetPrunePercentage 0) true) t →
    Exec s (.call (.pruneLiveResources true)) t
  | pruneLiveResourcesToSizeBusy {s : MemoryCache ρ γ σ κ} {targetSize : Unsigned} {all : Bool} :
    s.inPruneResources = true → Exec s (.pruneLiveResourcesToSize targetSize all) s
  | pruneLiveResourcesToSize {s t : MemoryCache ρ γ σ κ} {targetSize : Unsigned} {all : Bool} :
    s.inPruneResources = false →
    Exec { s with inPruneResources := true }
      (.liveFrom targetSize all s.liveDecodedResources.first) t →
    Exec s (.pruneLiveResourcesToSize targetSize all) { t with inPruneResources := false }
  | liveEnd (s : MemoryCache ρ γ σ κ) (targetSize : Unsigned) (all : Bool) :
    Exec s (.liveFrom targetSize all none) s
  -- whether a resource has been drawn too recently is not modelled
  | liveRecent {s : MemoryCache ρ γ σ κ} {targetSize : Unsigned} {current : ρ} :
    current ∈ s.liveDecodedResources → s.hasDecodedData current = true →
    Exec s (.liveFrom targetSize false (some current)) s
  | liveSkip {s t : MemoryCache ρ γ σ κ} {targetSize : Unsigned} {all : Bool} {current : ρ} :
    current ∈ s.liveDecodedResources →
    (s.hasDecodedData current && !(s.resources current).status.decodedDataIsPurgeable) = false →
    Exec s (.liveFrom targetSize all (s.liveDecodedResources.next current)) t →
    Exec s (.liveFrom targetSize all (some current)) t
  | liveReturn {s t : MemoryCache ρ γ σ κ} {targetSize : Unsigned} {all : Bool} {current : ρ} :
    current ∈ s.liveDecodedResources →
    (s.hasDecodedData current && !(s.resources current).status.decodedDataIsPurgeable) = true →
    Exec s .releasing t → reaches targetSize t.liveSize = true →
    Exec s (.liveFrom targetSize all (some current)) t
  | live {s t u : MemoryCache ρ γ σ κ} {targetSize : Unsigned} {all : Bool} {current : ρ} :
    current ∈ s.liveDecodedResources →
    (s.hasDecodedData current && !(s.resources current).status.decodedDataIsPurgeable) = true →
    Exec s .releasing t → reaches targetSize t.liveSize = false →
    Exec t (.liveFrom targetSize all (s.liveDecodedResources.next current)) u →
    Exec s (.liveFrom targetSize all (some current)) u
  -- removing many resources
  | enable (s : MemoryCache ρ γ σ κ) :
    Exec s (.call (.setDisabled false)) { s with disabled := false }
  | disable {s t : MemoryCache ρ γ σ κ} :
    Exec { s with disabled := true } .removeAll t → Exec s (.call (.setDisabled true)) t
  | removeAllEnd {s : MemoryCache ρ γ σ κ} : s.sessionResources = [] → Exec s .removeAll s
  | removeAll {s t : MemoryCache ρ γ σ κ} {entry : (σ × κ) × ρ} :
    entry ∈ s.sessionResources → Exec (s.remove sessionID key entry.2) .removeAll t →
    Exec s .removeAll t
  | evictResourcesDisabled {s : MemoryCache ρ γ σ κ} :
    s.disabled = true → Exec s (.call .evictResources) s
  | evictResources {s t : MemoryCache ρ γ σ κ} :
    s.disabled = false → Exec s (.call (.setDisabled true)) t →
    Exec s (.call .evictResources) { t with disabled := false }
  | evictSessionResourcesNone {s : MemoryCache ρ γ σ κ} {session : σ} :
    s.disabled = true ∨ s.sessionResourceMap session = none →
    Exec s (.call (.evictSessionResources session)) s
  | evictSessionResources {s t : MemoryCache ρ γ σ κ} {session : σ}
      {resources : List ((σ × κ) × ρ)} :
    s.disabled = false → s.sessionResourceMap session = some resources →
    Exec s (.removeFrom session resources.length) t →
    Exec s (.call (.evictSessionResources session)) t
  | removeFromEnd (s : MemoryCache ρ γ σ κ) (session : σ) : Exec s (.removeFrom session 0) s
  | removeFrom {s t : MemoryCache ρ γ σ κ} {session : σ} {n : ℕ} {entry : (σ × κ) × ρ} :
    entry ∈ s.sessionResources → entry.1.1 = session →
    Exec (s.remove sessionID key entry.2) (.removeFrom session n) t →
    Exec s (.removeFrom session (n + 1)) t
  -- the clients are moved in some order
  | revalidationSucceeded {s t : MemoryCache ρ γ σ κ} {revalidatingResource resource : ρ}
      {clientsToMove : List γ} :
    (s.resources revalidatingResource).status.resourceToRevalidate = some resource →
    (s.resources resource).inCache = false → (s.resources resource).isLoaded = true →
    (s.resources revalidatingResource).inCache = true →
    clientsToMove.Perm (s.resources revalidatingResource).clients →
    Exec ((s.remove sessionID key revalidatingResource).bringBack sessionID key resource)
      (.removeClients revalidatingResource clientsToMove) t →
    Exec s (.call (.revalidationSucceeded revalidatingResource))
      (t.switchClients revalidatingResource resource clientsToMove)
  | removeClientsEnd (s : MemoryCache ρ γ σ κ) (r : ρ) : Exec s (.removeClients r []) s
  | removeClients {s t u : MemoryCache ρ γ σ κ} {r : ρ} {client : γ} {clients : List γ} :
    Exec s (.call (.removeClient r client)) t → Exec t (.removeClients r clients) u →
    Exec s (.removeClients r (client :: clients)) u

end Exec

end MemoryCache

end WebKit.Loader
