import Mathlib.Data.List.Nodup
import WebKit.Tiling.Region

/-!
# The executable memory allocator

`MetaAllocator` keeps its free space in nodes that three indexes point to: a tree ordered by
size and two hash maps, from the start address of a node and from the address after its
end. The nodes are objects in memory (`freeSpaceNode`) that are changed in place while they
are taken out of the indexes and put back. A further map counts for every page the handles
that use it.

Addresses and sizes are natural numbers; the two sums of the source that can exceed a word
without the memory behind them existing wrap around here too (`word`). A page that is
released without being counted makes the result `none`: the source would go through an
iterator at the end of the map there.

Which of several free nodes of one size the tree finds depends on its shape. It is a
parameter of `findAndRemoveFreeSpace` (`Finds` says what the search may return), and so is
the answer of `allocateNewSpace`, which the embedder implements.
-/

open List Function

namespace WebKit.WTF

open Tiling Region

/-- One more than the largest `size_t`. -/
def word : Nat := 2 ^ 64

/-- `x` with the lowest bits cleared. -/
def clearLowBits (bits x : Nat) : Nat := (x >>> bits) <<< bits

/-- `HashMap::add`: an entry that is there already stays. -/
def addEntry {β : Type} (f : Nat → Option β) (key : Nat) (value : β) : Nat → Option β :=
  if (f key).isSome then f else update f key (some value)

/-- `HashMap::remove`. -/
def removeEntry {β : Type} (f : Nat → Option β) (key : Nat) : Nat → Option β :=
  update f key none

structure FreeSpaceNode where
  start : Nat
  sizeInBytes : Nat
  deriving DecidableEq, Repr

/-- A live handle, as far as the allocator reads it. -/
structure MetaAllocatorHandle where
  start : Nat
  sizeInBytes : Nat
  deriving DecidableEq, Repr

def FreeSpaceNode.region (n : FreeSpaceNode) : Region := ⟨n.start, n.sizeInBytes⟩

def MetaAllocatorHandle.region (h : MetaAllocatorHandle) : Region := ⟨h.start, h.sizeInBytes⟩

/-- The fields of `MetaAllocator`. The size tree holds nodes with the keys they had when
they were inserted; `nodeCount` nodes have been allocated so far. -/
@[ext] structure MetaAllocator where
  logAllocationGranule : Nat
  logPageSize : Nat
  freeSpaceNode : Nat → FreeSpaceNode
  nodeCount : Nat
  freeSpaceSizeMap : List (Nat × Nat)
  freeSpaceStartAddressMap : Nat → Option Nat
  freeSpaceEndAddressMap : Nat → Option Nat
  pageOccupancyMap : Nat → Option Nat
  bytesAllocated : Nat
  bytesReserved : Nat
  bytesCommitted : Nat

namespace MetaAllocator

/-- The fields as the constructor leaves them. -/
def initial (logAllocationGranule logPageSize : Nat) : MetaAllocator where
  logAllocationGranule := logAllocationGranule
  logPageSize := logPageSize
  freeSpaceNode := fun _ => ⟨0, 0⟩
  nodeCount := 0
  freeSpaceSizeMap := []
  freeSpaceStartAddressMap := fun _ => none
  freeSpaceEndAddressMap := fun _ => none
  pageOccupancyMap := fun _ => none
  bytesAllocated := 0
  bytesReserved := 0
  bytesCommitted := 0

def allocationGranule (m : MetaAllocator) : Nat := 1 <<< m.logAllocationGranule

def pageSize (m : MetaAllocator) : Nat := 1 <<< m.logPageSize

/-- `none` is the crash of the source on a size that cannot be rounded. -/
def roundUp (m : MetaAllocator) (sizeInBytes : Nat) : Option Nat :=
  if word - 1 - m.allocationGranule ≤ sizeInBytes then none
  else some (clearLowBits m.logAllocationGranule (sizeInBytes + m.allocationGranule - 1))

/-- `m_freeSpaceSizeMap.insert(node)`. -/
def insertBySize (m : MetaAllocator) (node : Nat) : MetaAllocator :=
  { m with freeSpaceSizeMap := ((m.freeSpaceNode node).sizeInBytes, node) :: m.freeSpaceSizeMap }

/-- `m_freeSpaceSizeMap.remove(node)`. -/
def removeBySize (m : MetaAllocator) (node : Nat) : MetaAllocator :=
  { m with freeSpaceSizeMap := m.freeSpaceSizeMap.eraseP fun e => e.2 = node }

/-- What `findLeastGreaterThanOrEqual` may return: a node with the least key that is large
enough, and null when there is none. -/
def Finds (tree : List (Nat × Nat)) (key : Nat) : Option Nat → Prop
  | none => ∀ e ∈ tree, e.1 < key
  | some node => ∃ k, (k, node) ∈ tree ∧ key ≤ k ∧ ∀ e ∈ tree, key ≤ e.1 → k ≤ e.1

/-! ## Free space -/

def setNode (m : MetaAllocator) (node : Nat) (value : FreeSpaceNode) : MetaAllocator :=
  { m with freeSpaceNode := update m.freeSpaceNode node value }

def addStart (m : MetaAllocator) (key node : Nat) : MetaAllocator :=
  { m with freeSpaceStartAddressMap := addEntry m.freeSpaceStartAddressMap key node }

def removeStart (m : MetaAllocator) (key : Nat) : MetaAllocator :=
  { m with freeSpaceStartAddressMap := removeEntry m.freeSpaceStartAddressMap key }

def addEnd (m : MetaAllocator) (key node : Nat) : MetaAllocator :=
  { m with freeSpaceEndAddressMap := addEntry m.freeSpaceEndAddressMap key node }

def removeEnd (m : MetaAllocator) (key : Nat) : MetaAllocator :=
  { m with freeSpaceEndAddressMap := removeEntry m.freeSpaceEndAddressMap key }

/-- The node found gives the space; the address is 0 when there was no node. -/
def findAndRemoveFreeSpace (m : MetaAllocator) (sizeInBytes : Nat) :
    Option Nat → MetaAllocator × Nat
  | none => (m, 0)
  | some node =>
    let n := m.freeSpaceNode node
    let m := m.removeBySize node
    if n.sizeInBytes = sizeInBytes then
      ((m.removeStart n.start).removeEnd (n.start + n.sizeInBytes), n.start)
    else
      let firstPage := n.start >>> m.logPageSize
      let lastPage := (n.start + n.sizeInBytes - 1) >>> m.logPageSize
      let lastPageForLeftAllocation := (n.start + sizeInBytes - 1) >>> m.logPageSize
      let firstPageForRightAllocation :=
        (n.start + n.sizeInBytes - sizeInBytes) >>> m.logPageSize
      if lastPageForLeftAllocation - firstPage + 1 ≤ lastPage - firstPageForRightAllocation + 1 then
        -- Allocate in the left side, and slide the node to the right.
        let m := m.removeStart n.start
        let m := m.setNode node ⟨n.start + sizeInBytes, n.sizeInBytes - sizeInBytes⟩
        ((m.insertBySize node).addStart (n.start + sizeInBytes) node, n.start)
      else
        -- Allocate in the right side, and slide the node to the left.
        let result := n.start + n.sizeInBytes - sizeInBytes
        let m := m.removeEnd (n.start + n.sizeInBytes)
        let m := m.setNode node ⟨n.start, n.sizeInBytes - sizeInBytes⟩
        ((m.insertBySize node).addEnd result node, result)

def addFreeSpace (m : MetaAllocator) (start sizeInBytes : Nat) : MetaAllocator :=
  let stop := start + sizeInBytes
  match m.freeSpaceEndAddressMap start, m.freeSpaceStartAddressMap stop with
  | some left, some right =>
    let leftNode := m.freeSpaceNode left
    let leftEnd := leftNode.start + leftNode.sizeInBytes
    let m := (m.removeBySize left).removeEnd leftEnd
    let rightNode := m.freeSpaceNode right
    let rightEnd := stop + rightNode.sizeInBytes
    let m := ((m.removeBySize right).removeStart stop).removeEnd rightEnd
    let m := m.setNode left
      { leftNode with sizeInBytes := leftNode.sizeInBytes + (sizeInBytes + rightNode.sizeInBytes) }
    (m.insertBySize left).addEnd rightEnd left
  | some left, none =>
    let leftNode := m.freeSpaceNode left
    let leftEnd := leftNode.start + leftNode.sizeInBytes
    let m := (m.removeBySize left).removeEnd leftEnd
    let m := m.setNode left { leftNode with sizeInBytes := leftNode.sizeInBytes + sizeInBytes }
    (m.insertBySize left).addEnd stop left
  | none, some right =>
    let rightNode := m.freeSpaceNode right
    let m := (m.removeBySize right).removeStart stop
    let m := m.setNode right ⟨start, rightNode.sizeInBytes + sizeInBytes⟩
    (m.insertBySize right).addStart start right
  | none, none =>
    let node := m.nodeCount
    let m := { m with nodeCount := m.nodeCount + 1 }
    let m := m.setNode node ⟨start, sizeInBytes⟩
    ((m.insertBySize node).addStart start node).addEnd stop node

def addFreeSpaceFromReleasedHandle (m : MetaAllocator) (start sizeInBytes : Nat) : MetaAllocator :=
  { m with bytesAllocated := m.bytesAllocated - sizeInBytes }.addFreeSpace start sizeInBytes

def addFreshFreeSpace (m : MetaAllocator) (start sizeInBytes : Nat) : MetaAllocator :=
  { m with bytesReserved := m.bytesReserved + sizeInBytes }.addFreeSpace start sizeInBytes

/-- The pages from that of the first byte to that of the last. -/
def pages (m : MetaAllocator) (address sizeInBytes : Nat) : List Nat :=
  let firstPage := address >>> m.logPageSize
  let lastPage := (address + sizeInBytes - 1) >>> m.logPageSize
  List.range' firstPage (lastPage + 1 - firstPage)

def incrementPage (m : MetaAllocator) (page : Nat) : MetaAllocator :=
  match m.pageOccupancyMap page with
  | none =>
    { m with
      pageOccupancyMap := update m.pageOccupancyMap page (some 1)
      bytesCommitted := m.bytesCommitted + m.pageSize }
  | some count =>
    { m with pageOccupancyMap := update m.pageOccupancyMap page (some (count + 1)) }

def incrementPageOccupancy (m : MetaAllocator) (address sizeInBytes : Nat) : MetaAllocator :=
  (m.pages address sizeInBytes).foldl incrementPage m

def decrementPage (m : MetaAllocator) (page : Nat) : Option MetaAllocator :=
  (m.pageOccupancyMap page).map fun count =>
    if count - 1 = 0 then
      { m with
        pageOccupancyMap := removeEntry m.pageOccupancyMap page
        bytesCommitted := m.bytesCommitted - m.pageSize }
    else
      { m with pageOccupancyMap := update m.pageOccupancyMap page (some (count - 1)) }

def decrementPageOccupancy (m : MetaAllocator) (address sizeInBytes : Nat) : Option MetaAllocator :=
  (m.pages address sizeInBytes).foldlM decrementPage m

/-! ## Handles -/

/-- The pages asked of `allocateNewSpace`. -/
def requestedNumberOfPages (m : MetaAllocator) (sizeInBytes : Nat) : Nat :=
  ((sizeInBytes + m.pageSize - 1) % word) >>> m.logPageSize

/-- The end of `allocate`: the pages are counted and the handle is made. -/
def makeHandle (m : MetaAllocator) (start sizeInBytes : Nat) :
    MetaAllocator × Option MetaAllocatorHandle :=
  let m := m.incrementPageOccupancy start sizeInBytes
  ({ m with bytesAllocated := m.bytesAllocated + sizeInBytes }, some ⟨start, sizeInBytes⟩)

/-- The embedder gave `numberOfPages` pages from `start` on; what the request leaves of them
is free space. -/
def takeNewSpace (m : MetaAllocator) (start numberOfPages sizeInBytes : Nat) :
    MetaAllocator × Option MetaAllocatorHandle :=
  let roundedUpSize := numberOfPages <<< m.logPageSize
  let m := { m with bytesReserved := m.bytesReserved + roundedUpSize }
  let m :=
    if sizeInBytes < roundedUpSize then
      m.addFreeSpace (start + sizeInBytes) (roundedUpSize - sizeInBytes)
    else m
  m.makeHandle start sizeInBytes

/-- `found` is what the size tree finds, `newSpace` the answer of `allocateNewSpace`. -/
def allocate (m : MetaAllocator) (sizeInBytes : Nat) (found : Option Nat)
    (newSpace : Option (Nat × Nat)) : Option (MetaAllocator × Option MetaAllocatorHandle) :=
  if sizeInBytes = 0 then some (m, none)
  else
    (m.roundUp sizeInBytes).map fun sizeInBytes =>
      let (m, start) := m.findAndRemoveFreeSpace sizeInBytes found
      if start = 0 then
        match newSpace with
        | none => (m, none)
        | some (start, numberOfPages) => m.takeNewSpace start numberOfPages sizeInBytes
      else m.makeHandle start sizeInBytes

/-- `MetaAllocatorHandle::shrink`. -/
def shrink (m : MetaAllocator) (h : MetaAllocatorHandle) (newSizeInBytes : Nat) :
    Option (MetaAllocator × MetaAllocatorHandle) :=
  (m.roundUp newSizeInBytes).bind fun newSizeInBytes =>
    if newSizeInBytes = h.sizeInBytes then some (m, h)
    else
      let freeStart := h.start + newSizeInBytes
      let freeSize := h.sizeInBytes - newSizeInBytes
      let freeEnd := freeStart + freeSize
      let firstCompletelyFreePage :=
        clearLowBits m.logPageSize ((freeStart + m.pageSize - 1) % word)
      let decremented :=
        if firstCompletelyFreePage < freeEnd then
          m.decrementPageOccupancy firstCompletelyFreePage
            (freeSize - (firstCompletelyFreePage - freeStart))
        else some m
      decremented.map fun m =>
        (m.addFreeSpaceFromReleasedHandle freeStart freeSize,
          { h with sizeInBytes := newSizeInBytes })

/-- The handle is destroyed. -/
def release (m : MetaAllocator) (h : MetaAllocatorHandle) : Option MetaAllocator :=
  if h.sizeInBytes ≠ 0 then
    (m.decrementPageOccupancy h.start h.sizeInBytes).map fun m =>
      m.addFreeSpaceFromReleasedHandle h.start h.sizeInBytes
  else some m

end MetaAllocator

/-!
## The three indexes of the free space

`FreeSpace` says that the size tree and the two hash maps hold the same nodes under the
right keys, that free nodes are not empty and cover no address twice, and that no two of
them are adjacent.

Every branch of `findAndRemoveFreeSpace` and `addFreeSpace` takes some nodes out of the
indexes it changes and puts one back with another region. This is the same as taking those
nodes out of all three indexes (`detach`) and entering the changed one in all three
(`attach`), so two lemmas carry the invariant through all branches.
-/

open Tiling

namespace MetaAllocator

variable {m : MetaAllocator} {node node' : Nat} {a : Nat}

/-- The nodes in the size tree. -/
def freeNodes (m : MetaAllocator) : List Nat := m.freeSpaceSizeMap.map Prod.snd

/-- The regions of the free nodes. -/
def freeRegions (m : MetaAllocator) : List Region :=
  m.freeNodes.map fun node => (m.freeSpaceNode node).region

/-- The indexes hold the same nodes, each under its own start, end and size. -/
structure Indexed (m : MetaAllocator) : Prop where
  nodup : m.freeNodes.Nodup
  keys : ∀ e ∈ m.freeSpaceSizeMap, e.1 = (m.freeSpaceNode e.2).sizeInBytes
  starts : ∀ a node, m.freeSpaceStartAddressMap a = some node ↔
    node ∈ m.freeNodes ∧ (m.freeSpaceNode node).region.start = a
  ends : ∀ a node, m.freeSpaceEndAddressMap a = some node ↔
    node ∈ m.freeNodes ∧ (m.freeSpaceNode node).region.stop = a

/-- The free space is indexed, and its nodes are disjoint and as large as they can be. -/
structure FreeSpace (m : MetaAllocator) : Prop extends m.Indexed where
  fresh : ∀ node ∈ m.freeNodes, node < m.nodeCount
  nonempty : ∀ node ∈ m.freeNodes, 0 < (m.freeSpaceNode node).region.size
  disjoint : ∀ a, coverage m.freeRegions a ≤ 1
  apart : ∀ node ∈ m.freeNodes, ∀ node' ∈ m.freeNodes,
    (m.freeSpaceNode node).region.stop ≠ (m.freeSpaceNode node').region.start

/-- The node leaves all three indexes. -/
def detach (m : MetaAllocator) (node : Nat) : MetaAllocator :=
  ((m.removeBySize node).removeStart (m.freeSpaceNode node).region.start).removeEnd
    (m.freeSpaceNode node).region.stop

/-- The node is given a region and enters all three indexes. -/
def attach (m : MetaAllocator) (node : Nat) (r : Region) : MetaAllocator :=
  { m with
    freeSpaceNode := update m.freeSpaceNode node ⟨r.start, r.size⟩
    freeSpaceSizeMap := (r.size, node) :: m.freeSpaceSizeMap
    freeSpaceStartAddressMap := update m.freeSpaceStartAddressMap r.start (some node)
    freeSpaceEndAddressMap := update m.freeSpaceEndAddressMap r.stop (some node) }

section

variable (h : node ∈ m.freeNodes)
include h

theorem freeNodes_removeBySize :
    m.freeNodes.Perm (node :: (m.removeBySize node).freeNodes) := by
  obtain ⟨e, he, rfl⟩ := mem_map.mp h
  obtain ⟨e', l1, l2, hl1, he', hl, herase⟩ :=
    exists_of_eraseP (p := fun e' => decide (e'.2 = e.2)) he (by simp)
  have he2 : e'.2 = e.2 := by simpa using he'
  unfold freeNodes removeBySize
  rw [herase, hl]
  simp only [map_append, map_cons, he2]
  exact perm_middle

theorem freeNodes_detach :
    m.freeNodes.Perm (node :: (m.detach node).freeNodes) :=
  freeNodes_removeBySize h

theorem freeRegions_detach :
    m.freeRegions.Perm ((m.freeSpaceNode node).region :: (m.detach node).freeRegions) :=
  (freeNodes_detach h).map _

theorem coverage_detach (a : Nat) : coverage m.freeRegions a =
      coverage [(m.freeSpaceNode node).region] a + coverage (m.detach node).freeRegions a := by
  rw [coverage_perm (freeRegions_detach h), coverage_cons']

end

section Keyed

-- a map from the keys of some nodes to the nodes, as both address maps are
variable {f : Nat → Option Nat} {nodes nodes' : List Nat} {key key' : Nat → Nat}
  (hf : ∀ a node, f a = some node ↔ node ∈ nodes ∧ key node = a)
include hf

theorem keyed_inj (h : node ∈ nodes) (h' : node' ∈ nodes) (heq : key node' = key node) :
    node' = node := by
  have h1 := (hf _ _).mpr ⟨h, rfl⟩
  have h2 := (hf _ _).mpr ⟨h', heq⟩
  rw [h1] at h2
  exact (Option.some.inj h2).symm

theorem keyed_ne {a : Nat} (h : f a = none) : ∀ node ∈ nodes, key node ≠ a := by
  intro node hnode heq
  rw [(hf a node).mpr ⟨hnode, heq⟩] at h
  cases h

theorem keyed_removeEntry (h : node ∈ nodes)
    (hmem : ∀ node', node' ∈ nodes' ↔ node' ∈ nodes ∧ node' ≠ node) (a node' : Nat) :
    removeEntry f (key node) a = some node' ↔ node' ∈ nodes' ∧ key node' = a := by
  rw [hmem, removeEntry]
  by_cases ha : a = key node
  · subst ha
    rw [update_self]
    refine ⟨nofun, ?_⟩
    rintro ⟨⟨h', hne⟩, heq⟩
    exact absurd (keyed_inj hf h h' heq) hne
  · rw [update_of_ne ha, hf]
    constructor
    · rintro ⟨h', rfl⟩
      exact ⟨⟨h', by rintro rfl; exact ha rfl⟩, rfl⟩
    · rintro ⟨⟨h', -⟩, heq⟩
      exact ⟨h', heq⟩

theorem keyed_update {a : Nat} (hkey : ∀ node' ∈ nodes, key' node' = key node')
    (hnode : key' node = a) (hne : ∀ node' ∈ nodes, key node' ≠ a) (b node' : Nat) :
    update f a (some node) b = some node' ↔ node' ∈ node :: nodes ∧ key' node' = b := by
  rw [mem_cons]
  by_cases hb : b = a
  · subst hb
    rw [update_self]
    constructor
    · rintro heq
      obtain rfl := Option.some.inj heq
      exact ⟨.inl rfl, hnode⟩
    · rintro ⟨rfl | h', heq⟩
      · rfl
      · rw [hkey node' h'] at heq
        exact absurd heq (hne node' h')
  · rw [update_of_ne hb, hf]
    constructor
    · rintro ⟨h', rfl⟩
      exact ⟨.inr h', hkey node' h'⟩
    · rintro ⟨rfl | h', heq⟩
      · exact absurd (heq.symm.trans hnode) hb
      · exact ⟨h', (hkey node' h').symm.trans heq⟩

end Keyed

section

variable (hi : m.Indexed) (h : node ∈ m.freeNodes)
include hi h

theorem mem_freeNodes_detach :
    node' ∈ (m.detach node).freeNodes ↔ node' ∈ m.freeNodes ∧ node' ≠ node := by
  have hperm := freeNodes_detach h
  have hnodup := hperm.nodup_iff.mp hi.nodup
  rw [hperm.mem_iff, mem_cons]
  constructor
  · intro h'
    refine ⟨.inr h', ?_⟩
    rintro rfl
    exact (nodup_cons.mp hnodup).1 h'
  · rintro ⟨rfl | h', hne⟩
    · exact absurd rfl hne
    · exact h'

theorem Indexed.detach : (m.detach node).Indexed where
  nodup := (nodup_cons.mp ((freeNodes_detach h).nodup_iff.mp hi.nodup)).2
  keys e he := hi.keys e (mem_of_mem_eraseP he)
  starts := keyed_removeEntry hi.starts h fun _ => mem_freeNodes_detach hi h
  ends := keyed_removeEntry hi.ends h fun _ => mem_freeNodes_detach hi h

end

theorem FreeSpace.detach (hf : m.FreeSpace) (h : node ∈ m.freeNodes) :
    (m.detach node).FreeSpace where
  toIndexed := hf.toIndexed.detach h
  fresh node' h' := hf.fresh node' ((mem_freeNodes_detach hf.toIndexed h).mp h').1
  nonempty node' h' := hf.nonempty node' ((mem_freeNodes_detach hf.toIndexed h).mp h').1
  disjoint a := by
    have hle := hf.disjoint a
    rw [coverage_detach h] at hle
    omega
  apart node1 h1 node2 h2 := hf.apart node1 ((mem_freeNodes_detach hf.toIndexed h).mp h1).1 node2
      ((mem_freeNodes_detach hf.toIndexed h).mp h2).1

theorem freeNodes_attach (r : Region) : (m.attach node r).freeNodes = node :: m.freeNodes := rfl

theorem freeSpaceNode_attach_of_ne (r : Region) (h : node' ≠ node) :
    (m.attach node r).freeSpaceNode node' = m.freeSpaceNode node' :=
  update_of_ne h _ _

theorem freeSpaceNode_attach_self (r : Region) :
    ((m.attach node r).freeSpaceNode node).region = r := by
  change (update m.freeSpaceNode node _ node).region = r
  rw [update_self]
  rfl

theorem freeRegions_attach (r : Region) (h : node ∉ m.freeNodes) :
    (m.attach node r).freeRegions = r :: m.freeRegions := by
  unfold freeRegions
  rw [freeNodes_attach, map_cons, freeSpaceNode_attach_self]
  congr 1
  refine map_congr_left fun node' h' => ?_
  rw [freeSpaceNode_attach_of_ne]
  rintro rfl
  exact h h'

theorem FreeSpace.not_same_ends (hf : m.FreeSpace) {r : Region} (hr : 0 < r.size)
    (hdisj : ∀ a, coverage [r] a + coverage m.freeRegions a ≤ 1) (h : node ∈ m.freeNodes) :
    (m.freeSpaceNode node).region.start ≠ r.start ∧
      (m.freeSpaceNode node).region.stop ≠ r.stop := by
  have hmem : (m.freeSpaceNode node).region ∈ m.freeRegions := mem_map_of_mem h
  have hpos := hf.nonempty node h
  constructor <;> intro heq
  · have h1 := contains_start hr
    have h2 := contains_start hpos
    rw [heq] at h2
    have hle := hdisj r.start
    have := coverage_pos_of_mem hmem h2
    rw [coverage_singleton, if_pos h1] at hle
    omega
  · have h1 := contains_last hr
    have h2 := contains_last hpos
    rw [heq] at h2
    have hle := hdisj (r.stop - 1)
    have := coverage_pos_of_mem hmem h2
    rw [coverage_singleton, if_pos h1] at hle
    omega

theorem Indexed.attach (hi : m.Indexed) {r : Region} (h : node ∉ m.freeNodes)
    (hends : ∀ node' ∈ m.freeNodes, (m.freeSpaceNode node').region.start ≠ r.start ∧
      (m.freeSpaceNode node').region.stop ≠ r.stop) : (m.attach node r).Indexed := by
  have hne : ∀ node' ∈ m.freeNodes, node' ≠ node := by
    rintro node' h' rfl
    exact h h'
  have hself : ((m.attach node r).freeSpaceNode node).region = r := freeSpaceNode_attach_self r
  have hother := fun node' h' => freeSpaceNode_attach_of_ne (m := m) r (hne node' h')
  refine ⟨nodup_cons.mpr ⟨h, hi.nodup⟩, fun e he => ?_, ?_, ?_⟩
  · rcases mem_cons.mp he with rfl | he
    · exact (congrArg Region.size hself).symm
    · rw [hother e.2 (mem_map_of_mem he)]
      exact hi.keys e he
  · exact keyed_update hi.starts (fun _ h' => by rw [hother _ h']) (by rw [hself])
      fun _ h' => (hends _ h').1
  · exact keyed_update hi.ends (fun _ h' => by rw [hother _ h']) (by rw [hself])
      fun _ h' => (hends _ h').2

/-- A node enters with a region that covers nothing that is free and touches no free node. -/
theorem FreeSpace.attach (hf : m.FreeSpace) {r : Region} (h : node ∉ m.freeNodes)
    (hcount : node < m.nodeCount) (hr : 0 < r.size)
    (hdisj : ∀ a, coverage [r] a + coverage m.freeRegions a ≤ 1)
    (hapart : ∀ node' ∈ m.freeNodes, (m.freeSpaceNode node').region.stop ≠ r.start ∧
      r.stop ≠ (m.freeSpaceNode node').region.start) : (m.attach node r).FreeSpace := by
  have hne : ∀ node' ∈ m.freeNodes, node' ≠ node := by
    rintro node' h' rfl
    exact h h'
  have hself : ((m.attach node r).freeSpaceNode node).region = r := freeSpaceNode_attach_self r
  have hother := fun node' h' => freeSpaceNode_attach_of_ne (m := m) r (hne node' h')
  refine ⟨hf.toIndexed.attach h fun node' h' => hf.not_same_ends hr hdisj h', ?_, ?_, ?_, ?_⟩
  · intro node' h'
    rcases mem_cons.mp h' with rfl | h'
    · exact hcount
    · exact hf.fresh node' h'
  · intro node' h'
    rcases mem_cons.mp h' with rfl | h'
    · rw [hself]
      exact hr
    · rw [hother node' h']
      exact hf.nonempty node' h'
  · intro a
    rw [freeRegions_attach r h, coverage_cons']
    exact hdisj a
  · intro node1 h1 node2 h2
    rcases mem_cons.mp h1 with heq1 | h1 <;> rcases mem_cons.mp h2 with heq2 | h2
    · rw [heq1, heq2, hself]
      unfold stop
      omega
    · rw [heq1, hself, hother node2 h2]
      exact (hapart node2 h2).2
    · rw [heq2, hself, hother node1 h1]
      exact (hapart node1 h1).1
    · rw [hother node1 h1, hother node2 h2]
      exact hf.apart node1 h1 node2 h2

end MetaAllocator

end WebKit.WTF
