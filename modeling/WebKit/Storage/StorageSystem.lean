import WebKit.Replica.Change
import WebKit.Storage.StorageMap
import WebKit.Transition.Run

/-!
# One storage area and the maps that listen to it

`StorageSystem` is a `StorageArea` together with one `StorageAreaMap` for each connection
and the messages in flight, first in first out in both directions. A read or a change of an
unloaded map waits for the reply to `GetValues`; that reply is synchronous and overtakes the
messages that wait to be delivered, and no message is delivered meanwhile. `Step` lets any
local call, delivery or handling of a message and any deletion of the area's data happen
next.

`Sound` says what the replication is for: a loaded map whose connection is quiet has the
area's items, and a map shows its own changes while they are pending.
-/

namespace WebKit.Storage

open Replica

/-- A call of the DOM. -/
inductive LocalCall
  | read
  | setItem (sourceStorageAreaID : ℕ+) (key value : WTFString)
  | removeItem (sourceStorageAreaID : ℕ+) (key : WTFString)
  | clear (sourceStorageAreaID : ℕ+)
  deriving DecidableEq

/-- A change that was sent to the manager, with the seed that went with it. -/
structure SentChange where
  seed : Nat
  change : Change WTFString (Option WTFString)
  deriving DecidableEq

namespace ManagerMessage

/-- The change that a message asks for. -/
def sent : ManagerMessage → Option SentChange
  | .getValues _ => none
  | .setItem _ seed key value => some ⟨seed, .set key (some value)⟩
  | .removeItem _ seed key => some ⟨seed, .remove key⟩
  | .clear _ seed => some ⟨seed, .clear⟩

end ManagerMessage

namespace StorageEvent

/-- The change that an event reports. -/
def change (event : StorageEvent) : Change WTFString (Option WTFString) :=
  match event.key, event.newValue with
  | none, _ => .clear
  | some key, none => .remove key
  | some key, some value => .set key (some value)

end StorageEvent

namespace AreaMapMessage

/-- The message answers a change. -/
def isAnswer : AreaMapMessage → Bool
  | .didSetItem _ _ _ | .didRemoveItem _ _ | .didClear _ => true
  | .dispatchStorageEvent _ _ _ | .didGetValues _ | .clearCache => false

/-- The message reports a change that the receiving process made itself. -/
def isOwnEvent : AreaMapMessage → Bool
  | .dispatchStorageEvent id _ _ => id ≠ 0
  | _ => false

end AreaMapMessage

/-- One web process's map and its connection to the manager. `waiting` is the call that waits
for the reply to `GetValues`. `unanswered` records the changes that were sent and whose
answer has not been handled; nothing reads it. -/
structure Connection where
  areaMap : StorageAreaMap
  waiting : Option LocalCall
  toManager : List ManagerMessage
  toAreaMap : List AreaMapMessage
  reply : Option Items
  unanswered : List SentChange

namespace Connection

def create (quotaInBytes : UInt32) : Connection := ⟨.create quotaInBytes, none, [], [], none, []⟩

def send (c : Connection) (areaMap : StorageAreaMap) (message : ManagerMessage) : Connection :=
  { c with
    areaMap := areaMap
    toManager := c.toManager ++ [message]
    unanswered := c.unanswered ++ message.sent.toList }

def sendIfSome (c : Connection) (areaMap : StorageAreaMap) : Option ManagerMessage → Connection
  | none => { c with areaMap := areaMap }
  | some message => c.send areaMap message

def clear (c : Connection) (id : ℕ+) : Connection :=
  c.send (c.areaMap.clear id).1 (c.areaMap.clear id).2

/-- A call on a map whose items are loaded. -/
def perform (c : Connection) (storageMap : StorageMap) : LocalCall → Connection
  | .read => c
  | .setItem id key value =>
    c.sendIfSome (c.areaMap.setItem storageMap id key value).1
      (c.areaMap.setItem storageMap id key value).2
  | .removeItem id key =>
    c.sendIfSome (c.areaMap.removeItem storageMap id key).1
      (c.areaMap.removeItem storageMap id key).2
  | .clear id => c.clear id

/-- A call that loads the values first. -/
def loadAndPerform (c : Connection) (call : LocalCall) : Connection :=
  match c.areaMap.storageMap with
  | some storageMap => c.perform storageMap call
  | none => { c with waiting := some call }.send c.areaMap (.getValues c.areaMap.currentSeed)

def call (c : Connection) (call : LocalCall) : Option Connection :=
  if c.waiting.isSome then none
  else match call with
    | .clear id => some (c.clear id)
    | call => some (c.loadAndPerform call)

/-- The reply to `GetValues` ends the wait, and the call goes on. -/
def receiveReply (c : Connection) : Option Connection :=
  match c.waiting, c.reply with
  | some call, some values =>
    let areaMap := c.areaMap.importValues values
    some ({ c with areaMap := areaMap, waiting := none, reply := none }.loadAndPerform call)
  | _, _ => none

/-- The web process handles the next message. -/
def deliver (c : Connection) : Option Connection :=
  if c.waiting.isSome then none
  else match c.toAreaMap with
    | [] => none
    | message :: rest =>
      some { c with
        areaMap := c.areaMap.handle message
        toAreaMap := rest
        unanswered := if message.isAnswer then c.unanswered.tail else c.unanswered }

/-- The manager has handled the next message of this connection. -/
def answered (c : Connection) (handled : StorageManager.Handled) : Connection :=
  { c with
    toManager := c.toManager.tail
    toAreaMap := c.toAreaMap ++ StorageManager.dispatchEvents handled true ++ [handled.answer]
    reply := handled.values.or c.reply }

/-- The manager has handled a message of another connection. -/
def notified (c : Connection) (handled : StorageManager.Handled) : Connection :=
  { c with toAreaMap := c.toAreaMap ++ StorageManager.dispatchEvents handled false }

/-- Nothing is in flight. -/
def Quiet (c : Connection) : Prop := c.toManager = [] ∧ c.toAreaMap = [] ∧ c.reply = none

end Connection

structure StorageSystem (ι : Type*) where
  area : StorageArea
  connections : ι → Connection

inductive StorageStep (ι : Type*)
  | call (i : ι) (call : LocalCall)
  | receiveReply (i : ι)
  | deliver (i : ι)
  | handle (i : ι)
  | clearCache

namespace StorageSystem

variable {ι : Type*} [DecidableEq ι]

/-- No map is loaded yet and nothing has been sent. -/
def initial (area : StorageArea) (quotaInBytes : ι → UInt32) : StorageSystem ι :=
  ⟨area, fun i => .create (quotaInBytes i)⟩

def setConnection (s : StorageSystem ι) (i : ι) (c : Connection) : StorageSystem ι :=
  ⟨s.area, Function.update s.connections i c⟩

def handle (s : StorageSystem ι) (i : ι) : Option (StorageSystem ι) :=
  match (s.connections i).toManager with
  | [] => none
  | message :: _ =>
    let handled := StorageManager.handle s.area message
    some ⟨handled.area, fun j =>
      if j = i then (s.connections j).answered handled else (s.connections j).notified handled⟩

def clearCache (s : StorageSystem ι) : StorageSystem ι :=
  ⟨s.area.clearCache, fun i =>
    { s.connections i with toAreaMap := (s.connections i).toAreaMap ++ [.clearCache] }⟩

def step (s : StorageSystem ι) : StorageStep ι → Option (StorageSystem ι)
  | .call i call => ((s.connections i).call call).map (s.setConnection i)
  | .receiveReply i => (s.connections i).receiveReply.map (s.setConnection i)
  | .deliver i => (s.connections i).deliver.map (s.setConnection i)
  | .handle i => s.handle i
  | .clearCache => some s.clearCache

def Step (s : StorageSystem ι) (l : StorageStep ι) (t : StorageSystem ι) : Prop :=
  s.step l = some t

/-- The items hold what a change makes of each key that no later change touches. -/
def Shows (storageMap : StorageMap) (u : SentChange) (later : List SentChange) : Prop :=
  ∀ key value, u.change.valueAt key = some value →
    (∀ w ∈ later, w.change.valueAt key = none) → storageMap.items.lookup key = value

/-- A loaded map on a quiet connection has the area's items. A change that is pending, or
that has not reached the manager, shows in its own map until a later change of that map
supersedes it. -/
structure Sound (s : StorageSystem ι) : Prop where
  converged : ∀ i storageMap, (s.connections i).areaMap.storageMap = some storageMap →
    (s.connections i).Quiet → ∀ key, storageMap.items.lookup key = s.area.items.lookup key
  keepsPending : ∀ i storageMap, (s.connections i).areaMap.storageMap = some storageMap →
    ∀ earlier u later, (s.connections i).unanswered = earlier ++ u :: later →
      u.seed = (s.connections i).areaMap.currentSeed → Shows storageMap u later
  keepsSent : ∀ i storageMap, (s.connections i).areaMap.storageMap = some storageMap →
    ∀ earlier u later, (s.connections i).toManager.filterMap ManagerMessage.sent =
      earlier ++ u :: later → Shows storageMap u later

end StorageSystem

end WebKit.Storage
