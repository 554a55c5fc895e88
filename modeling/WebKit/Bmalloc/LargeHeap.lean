import WebKit.Bmalloc.FreeListSpec
import WebKit.Transition.Run

/-!
# Allocating and freeing large objects

The large-object parts of `Heap.cpp` and `VMHeap.h`. The two heaps share the tag memory;
each has the free lists of the objects it owns (`lists`). An object that the heap takes
from the `VMHeap` changes its owner, and so does one that the scavenger gives back.

`LargeSystem` adds what the clients own and the objects whose physical pages the scavenger
is giving back: `VMHeap::deallocateLargeObject` marks such an object as allocated while it
does not hold the lock, and any operation may come between its two halves.
-/

open Function

namespace WebKit.Bmalloc

open SegregatedFreeList LargeObject FreeList

structure LargeHeap where
  tags : Tags
  lists : Owner → SegregatedFreeList
  /-- The large chunks, by their number. -/
  chunks : List Nat

namespace LargeHeap

def initial : LargeHeap where
  tags _ := .null
  lists := .initial
  chunks := []

/-- `m_largeObjects.insert` of the heap or the `VMHeap`. -/
def insert (h : LargeHeap) (owner : Owner) (object : LargeObject) : LargeHeap :=
  let inserted := (h.lists owner).insert h.tags object
  { h with tags := inserted.1, lists := update h.lists owner inserted.2 }

/-- `m_largeObjects.take` of the heap or the `VMHeap`: the object, and the heap after the
search. -/
def take (h : LargeHeap) (owner : Owner) (size : Nat) (test : Tags → LargeObject → Bool) :
    Option LargeObject × LargeHeap :=
  let taken := (h.lists owner).take h.tags size test
  (taken.1, { h with lists := update h.lists owner taken.2 })

/-- The start of both functions that allocate a given object: what is left over behind it
is split off if it is large enough, and inserted. -/
def splitLeftover (h : LargeHeap) (owner : Owner) (object : LargeObject) (size : Nat) :
    LargeObject × LargeHeap :=
  if largeMin < object.size h.tags - size then
    let (split, leftover, tags) := object.split h.tags size
    (split, { h with tags }.insert owner leftover)
  else (object, h)

/-- The large chunk of `VMHeap::grow`. -/
def grow (h : LargeHeap) (chunk : Nat) : LargeHeap :=
  let created := init h.tags chunk
  { h with tags := created.2, chunks := chunk :: h.chunks }.insert .vmHeap
    (.get created.2 created.1.begin)

/-- The search of `VMHeap::allocateLargeObject`, which grows once. -/
def vmTake (h : LargeHeap) (size : Nat) (test : Tags → LargeObject → Bool) (chunk : Nat) :
    Option (LargeObject × LargeHeap) :=
  let first := h.take .vmHeap size test
  let second := (first.2.grow chunk).take .vmHeap size test
  (first.1.map fun object => (object, first.2)).or (second.1.map fun object => (object, second.2))

/-- `VMHeap::allocateLargeObject(LargeObject&, size_t)`. -/
def vmAllocateObject (h : LargeHeap) (object : LargeObject) (size : Nat) :
    LargeObject × LargeHeap :=
  let (object, h) := h.splitLeftover .vmHeap object size
  let tags := object.setOwner h.tags .heap
  (.get tags object.begin, { h with tags })

def vmAllocateLargeObject (h : LargeHeap) (size chunk : Nat) : Option (LargeObject × LargeHeap) :=
  (h.vmTake size (fits size) chunk).map fun (object, h) => h.vmAllocateObject object size

def vmAllocateLargeObjectAligned (h : LargeHeap) (alignment size unalignedSize chunk : Nat) :
    Option (LargeObject × LargeHeap) :=
  (h.vmTake size (fitsAligned alignment size unalignedSize) chunk).map fun (object, h) =>
      if object.begin % alignment ≠ 0 then h.vmAllocateObject object unalignedSize
      else h.vmAllocateObject object size

/-- `Heap::allocateLarge(LargeObject&, size_t)`: the address of the object. -/
def allocateObject (h : LargeHeap) (object : LargeObject) (size : Nat) : Nat × LargeHeap :=
  let (object, h) := h.splitLeftover .heap object size
  (object.begin, { h with tags := object.setFree h.tags false })

/-- `chunk` is the memory the system provides if the `VMHeap` grows. -/
def allocateLarge (h : LargeHeap) (size chunk : Nat) : Option (Nat × LargeHeap) :=
  let taken := h.take .heap size (fits size)
  ((taken.1.map fun object => (object, taken.2)).or (taken.2.vmAllocateLargeObject size chunk)).map
      fun (object, h) => h.allocateObject object size

/-- The prefix that is split off so that the rest is aligned; `alignment` is a power of two. -/
def prefixSize (alignment begin : Nat) : Nat :=
  (begin + largeMin + (alignment - 1)) / alignment * alignment - begin

/-- `Heap::allocateLarge(alignment, size, unalignedSize)` from the object on. -/
def allocateAligned (h : LargeHeap) (object : LargeObject) (alignment size : Nat) :
    Nat × LargeHeap :=
  if object.begin % alignment ≠ 0 then
    let (first, rest, tags) := object.split h.tags (prefixSize alignment object.begin)
    ({ h with tags }.insert .heap first).allocateObject rest size
  else h.allocateObject object size

def allocateLargeAligned (h : LargeHeap) (alignment size unalignedSize chunk : Nat) :
    Option (Nat × LargeHeap) :=
  let taken := h.take .heap size (fitsAligned alignment size unalignedSize)
  ((taken.1.map fun object => (object, taken.2)).or
    (taken.2.vmAllocateLargeObjectAligned alignment size unalignedSize chunk)).map
      fun (object, h) => h.allocateAligned object alignment size

def deallocateLarge (h : LargeHeap) (object : Nat) : LargeHeap :=
  let largeObject := get h.tags object
  let (merged, tags) := largeObject.merge (largeObject.setFree h.tags true)
  { h with tags }.insert .heap merged

/-- One round of `scavengeLargeObjects` up to where `deallocateLargeObject` gives up the
lock: the object that it marked as allocated. -/
def scavengeBegin (h : LargeHeap) : Option (LargeObject × LargeHeap) :=
  let taken := (h.lists .heap).takeGreedy h.tags
  taken.1.map fun largeObject =>
    let (merged, tags) := largeObject.merge (largeObject.setOwner h.tags .vmHeap)
    (merged, { h with
      tags := merged.setFree tags false, lists := update h.lists .heap taken.2 })

/-- The rest of `deallocateLargeObject`. -/
def scavengeEnd (h : LargeHeap) (merged : LargeObject) : LargeHeap :=
  { h with tags := merged.setFree h.tags true }.insert .vmHeap merged

end LargeHeap

/-- An object that a client owns, with what it asked for. -/
structure Allocation where
  object : Nat
  size : Nat
  alignment : Nat
  deriving DecidableEq, Repr

structure LargeSystem where
  heap : LargeHeap
  live : List Allocation
  /-- The objects between the two halves of `deallocateLargeObject`. -/
  transit : List LargeObject

inductive LargeEvent
  | allocate (size chunk : Nat)
  | allocateAligned (alignment size unalignedSize chunk : Nat)
  | deallocate (allocation : Allocation)
  | scavengeBegin
  | scavengeEnd (object : LargeObject)
  | grow (chunk : Nat)
  deriving DecidableEq

/-- What the assertions of `allocateLarge` ask of a size. -/
def IsLargeSize (size : Nat) : Prop :=
  size ≤ largeMax ∧ largeMin ≤ size ∧ largeAlignment ∣ size

/-- What they ask of an aligned allocation, and how its callers choose the unaligned size. -/
structure IsAlignedRequest (alignment size unalignedSize : Nat) : Prop where
  isLarge : IsLargeSize size
  unaligned_isLarge : IsLargeSize unalignedSize
  powerOfTwo : ∃ k, alignment = 2 ^ k
  largeAlignment_le : largeAlignment ≤ alignment
  le_half : alignment ≤ largeChunkSize / 2
  sum_le : largeMin + alignment + size ≤ unalignedSize

namespace LargeSystem

def initial : LargeSystem := ⟨.initial, [], []⟩

inductive Step : LargeSystem → LargeEvent → LargeSystem → Prop
  | allocate {s : LargeSystem} {size chunk object : Nat} {heap : LargeHeap}
      (hsize : IsLargeSize size) (hchunk : chunk ∉ s.heap.chunks)
      (hallocate : s.heap.allocateLarge size chunk = some (object, heap)) :
      Step s (.allocate size chunk)
        { s with heap, live := ⟨object, size, largeAlignment⟩ :: s.live }
  | allocateAligned {s : LargeSystem} {alignment size unalignedSize chunk object : Nat}
      {heap : LargeHeap} (hrequest : IsAlignedRequest alignment size unalignedSize)
      (hchunk : chunk ∉ s.heap.chunks)
      (hallocate : s.heap.allocateLargeAligned alignment size unalignedSize chunk =
        some (object, heap)) :
      Step s (.allocateAligned alignment size unalignedSize chunk)
        { s with heap, live := ⟨object, size, alignment⟩ :: s.live }
  | deallocate {s : LargeSystem} {allocation : Allocation} (hlive : allocation ∈ s.live) :
      Step s (.deallocate allocation)
        { s with
          heap := s.heap.deallocateLarge allocation.object
          live := s.live.erase allocation }
  | scavengeBegin {s : LargeSystem} {object : LargeObject} {heap : LargeHeap}
      (hscavenge : s.heap.scavengeBegin = some (object, heap)) :
      Step s .scavengeBegin { s with heap, transit := object :: s.transit }
  | scavengeEnd {s : LargeSystem} {object : LargeObject} (htransit : object ∈ s.transit) :
      Step s (.scavengeEnd object)
        { s with heap := s.heap.scavengeEnd object, transit := s.transit.erase object }
  | grow {s : LargeSystem} {chunk : Nat} (hchunk : chunk ∉ s.heap.chunks) :
      Step s (.grow chunk) { s with heap := s.heap.grow chunk }

end LargeSystem

/-!
## No free object is lost

`LargeHeap.Inv` says that the tags describe a layout and that every free block of the
layout has an entry with its exact range in the free lists of its owner, except the blocks
that the running operation holds (`held`). Each step of an operation keeps it: taking an
object holds it, inserting one lets it go, and what changes the tags replaces blocks that
are held (`Inv.replaced`). The blocks that are not free change in the last step of an
allocation and the first of a deallocation only (`SameAllocated`).
-/

open Tiling

/-- The chunks and the blocks that are not free are the same. -/
def SameAllocated (layout layout' : Layout) (chunks chunks' : List Nat) : Prop :=
  ∀ a x, x.isFree = false → (layout'.Has chunks' a x ↔ layout.Has chunks a x)

structure LargeHeap.Inv (h : LargeHeap) (layout : Layout) (held : List Nat) : Prop where
  valid : layout.Valid h.tags h.chunks
  owner : ∀ owner, (h.lists owner).owner = owner
  count : ∀ owner, (h.lists owner).freeLists.length = freeListCount
  sane : ∀ owner, ∀ r ∈ (h.lists owner).entries, Sane h.chunks r
  listed : ∀ a x, layout.Has h.chunks a x → x.isFree = true → a ∉ held →
    (⟨a, x.size⟩ : Range) ∈ (h.lists x.owner).entries

variable {h : LargeHeap} {layout layout' layout'' : Layout} {held held' : List Nat} {a : Nat}
  {x y : Block} {owner : Owner} {size : Nat} {tags' : Tags} {mid mid' : List Block}
  {chunks chunks' chunks'' : List Nat}

theorem SameAllocated.refl : SameAllocated layout layout chunks chunks := fun _ _ _ => Iff.rfl

theorem SameAllocated.trans (h1 : SameAllocated layout layout' chunks chunks')
    (h2 : SameAllocated layout' layout'' chunks' chunks'') :
    SameAllocated layout layout'' chunks chunks'' :=
  fun a x hx => (h2 a x hx).trans (h1 a x hx)

theorem Layout.Replaced.sameAllocated (hrep : Layout.Replaced chunks layout a mid mid' layout')
    (hmid : ∀ z ∈ mid, z.isFree = true) (hmid' : ∀ z ∈ mid', z.isFree = true) :
    SameAllocated layout layout' chunks chunks := by
  have hnot : ∀ {blocks : List Block} {b : Nat} {z : Block}, (∀ z ∈ blocks, z.isFree = true) →
      z.isFree = false → (b, z) ∉ located Block.size a blocks := by
    intro blocks b z hfree hz hmem
    obtain ⟨before, after, rfl, _⟩ := mem_located.mp hmem
    rw [hfree z (by simp)] at hz
    simp at hz
  intro b z hz
  rw [hrep.new]
  simp [hnot hmid hz, hnot hmid' hz]

theorem Layout.Replaced.has_new (hrep : Layout.Replaced chunks layout a mid (y :: mid') layout') :
    layout'.Has chunks a y := by
  rw [hrep.new]
  exact .inl List.mem_cons_self

namespace LargeHeap

namespace Inv

theorem replaced (hinv : h.Inv layout held) (hvalid : layout'.Valid tags' h.chunks)
    (hrep : Layout.Replaced h.chunks layout a mid mid' layout')
    (hnew : ∀ b z, (b, z) ∈ located Block.size a mid' → z.isFree = true → b ∈ held')
    (hold : ∀ b ∈ held, b ∈ held' ∨ ∃ z, (b, z) ∈ located Block.size a mid) :
    Inv { h with tags := tags' } layout' held' := by
  refine ⟨hvalid, hinv.owner, hinv.count, hinv.sane, fun b z hz hfree hheld => ?_⟩
  rcases (hrep.new b z).mp hz with hmem | ⟨hz, hout⟩
  · exact absurd (hnew b z hmem hfree) hheld
  · refine hinv.listed b z hz hfree fun hb => ?_
    rcases hold b hb with hb | ⟨z', hz'⟩
    · exact hheld hb
    · obtain rfl := hinv.valid.unique_begin hz (hrep.old (b, z') hz')
      exact hout hz'

theorem setLists (hinv : h.Inv layout held) {lists' : SegregatedFreeList}
    (hvalid : layout.Valid tags' h.chunks) (howner : lists'.owner = owner)
    (hcount : lists'.freeLists.length = freeListCount)
    (hsane : ∀ r ∈ lists'.entries, Sane h.chunks r)
    (hlisted : ∀ b z, layout.Has h.chunks b z → z.isFree = true → z.owner = owner → b ∉ held' →
      (⟨b, z.size⟩ : Range) ∈ lists'.entries)
    (hold : ∀ b ∈ held, b ∈ held' ∨ ∃ z, layout.Has h.chunks b z ∧ z.owner = owner) :
    Inv { h with tags := tags', lists := update h.lists owner lists' } layout held' := by
  refine ⟨hvalid, fun o => ?_, fun o => ?_, fun o => ?_, fun b z hz hfree hheld => ?_⟩ <;>
    dsimp only
  · by_cases ho : o = owner
    · rw [ho, update_self, howner]
    · rw [update_of_ne ho, hinv.owner]
  · by_cases ho : o = owner
    · rw [ho, update_self, hcount]
    · rw [update_of_ne ho, hinv.count]
  · by_cases ho : o = owner
    · rw [ho, update_self]
      exact hsane
    · rw [update_of_ne ho]
      exact hinv.sane o
  · by_cases ho : z.owner = owner
    · rw [ho, update_self]
      exact hlisted b z hz hfree ho hheld
    · rw [update_of_ne ho]
      refine hinv.listed b z hz hfree fun hb => ?_
      rcases hold b hb with hb | ⟨z', hz', ho'⟩
      · exact hheld hb
      · obtain rfl := hinv.valid.unique_begin hz hz'
        exact ho ho'

theorem insert (hinv : h.Inv layout (a :: held)) (hx : layout.Has h.chunks a x)
    (howner : x.owner = owner) :
    (h.insert owner (handle a x.size)).Inv layout held ∧
      (h.insert owner (handle a x.size)).chunks = h.chunks ∧
      ∃ list, ((h.insert owner (handle a x.size)).lists owner).freeLists[
          select x.size]? = some list ∧
        list.vector.getLast? = some ⟨a, x.size⟩ := by
  obtain ⟨tags', lists', hins, hvalid, howner', hcount, hsub, hkeep, hnew, hlast⟩ :=
    insert_spec (h.lists owner) hinv.valid (hinv.count owner) (hinv.sane owner) hx
  rw [hinv.owner] at howner' hkeep
  simp only [LargeHeap.insert, hins, update_self]
  refine ⟨hinv.setLists hvalid howner' hcount (fun r hr => ?_) (fun b z hz hfree ho hheld => ?_)
    (fun b hb => ?_), trivial, hlast⟩
  · rcases hsub r hr with hr | rfl
    · exact hinv.sane owner r hr
    · exact hinv.valid.sane hx
  · by_cases hb : b = a
    · subst hb
      obtain rfl := hinv.valid.unique_begin hz hx
      exact hnew
    · have hlisted := hinv.listed b z hz hfree (by simp [hb, hheld])
      rw [ho] at hlisted
      refine hkeep _ hlisted ?_
      obtain ⟨zsize, zfree, zowner⟩ := z
      obtain rfl : zfree = true := hfree
      obtain rfl : zowner = owner := ho
      exact hz
  · rcases List.mem_cons.mp hb with rfl | hb
    · exact .inr ⟨x, hx, howner⟩
    · exact .inl hb

theorem taken (hinv : h.Inv layout []) {lists' : SegregatedFreeList} {taken : Option Range}
    (hspec : Taken (fun r => isValid h.tags owner r = true) (h.lists owner).entries
      lists'.entries taken)
    (howner : lists'.owner = owner)
    (hcount : lists'.freeLists.length = (h.lists owner).freeLists.length) :
    (∀ r ∈ taken, IsFreeRange layout h.chunks owner r) ∧
      Inv { h with lists := update h.lists owner lists' } layout
        (taken.map Range.begin).toList := by
  have hfree : ∀ r ∈ (h.lists owner).entries, isValid h.tags owner r = true ↔
      IsFreeRange layout h.chunks owner r :=
    fun r hr => isValid_iff _ hinv.valid (hinv.sane owner r hr)
  refine ⟨fun r hr => (hfree r (hspec.valid r hr).1).mp (hspec.valid r hr).2, ?_⟩
  refine hinv.setLists hinv.valid howner (by rw [hcount, hinv.count])
    (fun r hr => hinv.sane owner r (hspec.sub r hr)) (fun b z hz hzfree ho hheld => ?_) (by simp)
  have hlisted := hinv.listed b z hz hzfree (by simp)
  rw [ho] at hlisted
  have hvalid : isValid h.tags owner ⟨b, z.size⟩ = true := by
    rw [hfree _ hlisted]
    obtain ⟨zsize, zfree, zowner⟩ := z
    obtain rfl : zfree = true := hzfree
    obtain rfl : zowner = owner := ho
    exact hz
  rcases hspec.keep _ hlisted hvalid with hmem | rfl
  · exact hmem
  · simp at hheld

theorem take (hinv : h.Inv layout []) (owner : Owner) (size : Nat)
    (test : Tags → LargeObject → Bool) :
    ∃ taken : Option Range, (h.take owner size test).1 =
        taken.map (fun r => handle r.begin r.size) ∧
      (h.take owner size test).2.chunks = h.chunks ∧
      (h.take owner size test).2.tags = h.tags ∧
      (h.take owner size test).2.Inv layout (taken.map Range.begin).toList ∧
      (∀ r ∈ taken, IsFreeRange layout h.chunks owner r ∧
        test h.tags (handle r.begin r.size) = true) ∧
      (taken = none → ∀ i list r, select size ≤ i →
        (h.lists owner).freeLists[i]? = some list → list.vector.getLast? = some r →
        IsFreeRange layout h.chunks owner r → test h.tags (handle r.begin r.size) = false) := by
  obtain ⟨taken, lists', htake, hspec, howner, hcount, htest, hnone⟩ :=
    take_spec (h.lists owner) h.tags size test
  rw [hinv.owner] at hspec howner hnone
  obtain ⟨htaken, hinv'⟩ := hinv.taken hspec howner hcount
  simp only [LargeHeap.take, htake]
  refine ⟨taken, ?_, trivial, trivial, hinv', fun r hr => ⟨htaken r hr, ?_⟩, ?_⟩
  · cases taken with
    | none => simp only [Option.map_none]
    | some r => simp only [Option.map_some, (htaken r rfl).get_eq hinv.valid]
  · rw [← (htaken r hr).get_eq hinv.valid]
    exact htest r hr
  · intro hnot i list r hi hlist hlast hr
    rw [← hr.get_eq hinv.valid]
    have hmem := mem_entries_of_getElem? hlist (List.mem_of_getLast? hlast)
    refine hnone hnot i list hi hlist r hlast ?_
    rwa [isValid_iff _ hinv.valid (hinv.sane owner r hmem)]

end Inv

end LargeHeap

end WebKit.Bmalloc
