import Mathlib.Data.Set.Card
import WebKit.Transition.Run
import WebKit.WTF.PageOccupancy

/-!
# An allocator in use

`MetaAllocatorSystem` is an allocator with its live handles and the regions it was given.
A step adds a fresh region, allocates, shrinks a handle or destroys one; the size tree may
find any node that fits best, and the embedder may answer a request for new space as it
likes.

`Sound` is what should hold in every state: handles and free nodes tile the reserved space,
the indexes agree, and the sums and page counts are those of the live handles. `Serves` is
the condition under which a step keeps it.
-/

open List

namespace WebKit.WTF

open Tiling Counting Transition MetaAllocator MetaAllocatorHandle Option

/-- The allocator, its live handles and the regions it was given. -/
structure MetaAllocatorSystem where
  allocator : MetaAllocator
  handles : List MetaAllocatorHandle
  reserved : List Region

/-- A use of the allocator, with what the size tree finds and the embedder answers. -/
inductive AllocatorUse
  | addFreshFreeSpace (start sizeInBytes : Nat)
  | allocate (sizeInBytes : Nat) (found : Option Nat) (newSpace : Option (Nat × Nat))
  | shrink (handle newSizeInBytes : Nat)
  | release (handle : Nat)
  deriving DecidableEq, Repr

namespace MetaAllocatorSystem

def initial (logAllocationGranule logPageSize : Nat) : MetaAllocatorSystem where
  allocator := .initial logAllocationGranule logPageSize
  handles := []
  reserved := []

/-- The region the embedder gives when the free space does not serve the request. -/
def newRegion (s : MetaAllocatorSystem) (sizeInBytes : Nat) (found : Option Nat)
    (newSpace : Option (Nat × Nat)) : List Region :=
  match s.allocator.roundUp sizeInBytes, newSpace with
  | some rounded, some (start, numberOfPages) =>
    if sizeInBytes ≠ 0 ∧ (s.allocator.findAndRemoveFreeSpace rounded found).2 = 0 then
      [⟨start, numberOfPages <<< s.allocator.logPageSize⟩]
    else []
  | _, _ => []

/-- One use; `none` is a crash. -/
def step (s : MetaAllocatorSystem) : AllocatorUse → Option MetaAllocatorSystem
  | .addFreshFreeSpace start sizeInBytes =>
    some { s with
      allocator := s.allocator.addFreshFreeSpace start sizeInBytes
      reserved := ⟨start, sizeInBytes⟩ :: s.reserved }
  | .allocate sizeInBytes found newSpace =>
    (s.allocator.allocate sizeInBytes found newSpace).map fun (m, handle) =>
      { allocator := m
        handles := handle.toList ++ s.handles
        reserved := s.newRegion sizeInBytes found newSpace ++ s.reserved }
  | .shrink i newSizeInBytes =>
    (s.handles[i]?).bind fun h =>
      (s.allocator.shrink h newSizeInBytes).map fun (m, h') =>
        { s with allocator := m, handles := s.handles.set i h' }
  | .release i =>
    (s.handles[i]?).bind fun h =>
      (s.allocator.release h).map fun m =>
        { s with allocator := m, handles := s.handles.eraseIdx i }

/-- The region shares no address with those given before. -/
def Unreserved (s : MetaAllocatorSystem) (r : Region) : Prop := ∀ r' ∈ s.reserved, r.Apart r'

/-- The uses that are allowed: fresh regions are new and not empty, a new space has at least
the pages asked for, and a handle is not made larger. -/
def Enabled (s : MetaAllocatorSystem) : AllocatorUse → Prop
  | .addFreshFreeSpace start sizeInBytes =>
    0 < sizeInBytes ∧ s.Unreserved ⟨start, sizeInBytes⟩
  | .allocate sizeInBytes found newSpace =>
    ∀ rounded, s.allocator.roundUp sizeInBytes = some rounded →
      MetaAllocator.Finds s.allocator.freeSpaceSizeMap rounded found ∧
      ∀ start numberOfPages, newSpace = some (start, numberOfPages) →
        s.allocator.requestedNumberOfPages rounded ≤ numberOfPages ∧
          s.Unreserved ⟨start, numberOfPages <<< s.allocator.logPageSize⟩
  | .shrink i newSizeInBytes => ∃ h, s.handles[i]? = some h ∧ newSizeInBytes ≤ h.sizeInBytes
  | .release i => i < s.handles.length

/-- The steps of the system. -/
def Step (s : MetaAllocatorSystem) (u : AllocatorUse) (t : MetaAllocatorSystem) : Prop :=
  s.Enabled u ∧ s.step u = some t

/-! ## What should hold -/

/-- The regions of the handles and of the free nodes. -/
def pieces (s : MetaAllocatorSystem) : List Region :=
  s.handles.map region ++ s.allocator.freeRegions

/-- A byte of the handle lies in the page. -/
def Overlaps (s : MetaAllocatorSystem) (page : Nat) (h : MetaAllocatorHandle) : Prop :=
  ∃ a, h.region.Contains a ∧ a / s.allocator.pageSize = page

theorem overlaps_iff (s : MetaAllocatorSystem) (page : Nat) (h : MetaAllocatorHandle) :
    s.Overlaps page h ↔ 0 < h.sizeInBytes ∧ page ∈ s.allocator.pages h.start h.sizeInBytes := by
  by_cases hsize : 0 < h.sizeInBytes
  · rw [mem_pages hsize]
    exact ⟨fun ho => ⟨hsize, ho⟩, fun ho => ho.2⟩
  · refine ⟨?_, fun ho => absurd ho.1 hsize⟩
    rintro ⟨a, ⟨hstart, hstop⟩, -⟩
    change a < h.start + h.sizeInBytes at hstop
    change h.start ≤ a at hstart
    omega

instance (s : MetaAllocatorSystem) (page : Nat) : DecidablePred (s.Overlaps page) := fun _ =>
  decidable_of_iff _ (overlaps_iff _ _ _).symm

/-- How many live handles overlap the page. -/
def users (s : MetaAllocatorSystem) (page : Nat) : Nat :=
  s.handles.countP fun h => decide (s.Overlaps page h)

/-- What a reachable state should satisfy. -/
structure Sound (s : MetaAllocatorSystem) : Prop where
  disjoint : s.pieces.Pairwise Region.Apart
  tile : ∀ a, (∃ r ∈ s.pieces, r.Contains a) ↔ ∃ r ∈ s.reserved, r.Contains a
  not_adjacent : ∀ node ∈ s.allocator.freeNodes, ∀ node' ∈ s.allocator.freeNodes,
    (s.allocator.freeSpaceNode node).region.stop ≠ (s.allocator.freeSpaceNode node').region.start
  indexed : s.allocator.Indexed
  bytesAllocated : s.allocator.bytesAllocated =
    (s.handles.map sizeInBytes).sum
  occupancy : ∀ page, s.allocator.pageOccupancyMap page =
    if s.users page = 0 then none else some (s.users page)
  bytesCommitted : s.allocator.bytesCommitted =
    s.allocator.pageSize * Set.ncard {page | 0 < s.users page}

/-- The region lies above the null page's first byte and ends below the last page of the
address space. -/
def InAddressSpace (s : MetaAllocatorSystem) (r : Region) : Prop :=
  0 < r.start ∧ r.stop + s.allocator.pageSize ≤ word

/-- The regions are in the address space, a request for new space does not exceed it, and no
handle that starts inside a page is shrunk to nothing. -/
def Serves (s : MetaAllocatorSystem) : AllocatorUse → Prop
  | .addFreshFreeSpace start sizeInBytes => s.InAddressSpace ⟨start, sizeInBytes⟩
  | .allocate sizeInBytes found newSpace =>
    ∀ r ∈ s.newRegion sizeInBytes found newSpace, s.InAddressSpace r ∧
      ∀ rounded, s.allocator.roundUp sizeInBytes = some rounded →
        rounded + s.allocator.pageSize ≤ word
  | .shrink i newSizeInBytes => ∀ h, s.handles[i]? = some h → newSizeInBytes = 0 →
    h.sizeInBytes ≠ 0 → h.start % s.allocator.pageSize = 0
  | .release _ => True

/-- The property over all runs whose steps meet the guard. -/
def SoundRuns (guard : MetaAllocatorSystem → AllocatorUse → Prop) : Prop :=
  ∀ logAllocationGranule logPageSize us s,
    Run (guarded Step guard) (initial logAllocationGranule logPageSize) us s → s.Sound

end MetaAllocatorSystem

/-!
## The invariant of the allocator

`Coherent` is the invariant of the steps. Between the parts of a step some addresses are
neither free nor in a handle; they are listed as holes. Adding free space closes a hole,
finding free space opens one, and making a handle fills one, so each step is a short
sequence of these.
-/

open Tiling Counting

namespace MetaAllocatorSystem

/-- The pages a handle uses. -/
def handlePages (m : MetaAllocator) (h : MetaAllocatorHandle) : List Nat :=
  if h.sizeInBytes = 0 then [] else m.pages h.start h.sizeInBytes

/-- The allocator with the handles `hs` and the reserved regions `rs`; the regions in `holes`
are neither free nor in a handle. -/
structure Coherent (m : MetaAllocator) (hs : List MetaAllocatorHandle) (holes rs : List Region) :
    Prop where
  freeSpace : m.FreeSpace
  tile : ∀ a, coverage holes a + (coverage (hs.map region) a +
    coverage m.freeRegions a) = coverage rs a
  reserved : ∀ a, coverage rs a ≤ 1
  bounds : ∀ r ∈ rs, 0 < r.start ∧ r.stop + m.pageSize ≤ word
  granule : ∀ h ∈ hs, m.allocationGranule ∣ h.sizeInBytes
  bytesAllocated : m.bytesAllocated = (hs.map sizeInBytes).sum
  occupied : m.Occupied (hs.flatMap (handlePages m))

variable {m m' : MetaAllocator} {h h' : MetaAllocatorHandle} {hs hs' : List MetaAllocatorHandle}
  {r : Region} {holes rs : List Region} {s : MetaAllocatorSystem}

theorem Coherent.perm (hc : Coherent m hs holes rs) (hp : hs.Perm hs') :
    Coherent m hs' holes rs where
  freeSpace := hc.freeSpace
  tile a := by
    rw [← coverage_perm (hp.map _)]
    exact hc.tile a
  reserved := hc.reserved
  bounds := hc.bounds
  granule h hh := hc.granule h (hp.mem_iff.mpr hh)
  bytesAllocated := by
    rw [hc.bytesAllocated]
    exact (hp.map _).sum_eq
  occupied := hc.occupied.perm (hp.flatMap_right _)

theorem Coherent.initial (logAllocationGranule logPageSize : Nat) :
    Coherent (.initial logAllocationGranule logPageSize) [] [] [] where
  freeSpace := by
    constructor
    · constructor <;> simp [MetaAllocator.initial, MetaAllocator.freeNodes]
    all_goals simp [MetaAllocator.initial, MetaAllocator.freeNodes, MetaAllocator.freeRegions]
  tile a := rfl
  reserved a := Nat.zero_le 1
  bounds r hr := by cases hr
  granule h hh := by cases hh
  bytesAllocated := rfl
  occupied := ⟨tallies_nil, rfl⟩

theorem count_handlePages (page : Nat) : ∀ hs : List MetaAllocatorHandle,
    (hs.flatMap (handlePages s.allocator)).count page =
      hs.countP fun h => decide (s.Overlaps page h) := by
  intro hs
  induction hs with
  | nil => rfl
  | cons h hs ih =>
    rw [flatMap_cons, count_append, ih, countP_cons, add_comm]
    congr 1
    have hov := overlaps_iff s page h
    unfold handlePages
    by_cases hsize : h.sizeInBytes = 0
    · have hnot : ¬ s.Overlaps page h := fun ho => by
        have := (hov.mp ho).1
        omega
      simp [hsize, hnot]
    · rw [if_neg hsize]
      have hpages : (s.allocator.pages h.start h.sizeInBytes).Nodup := nodup_range'
      by_cases hmem : page ∈ s.allocator.pages h.start h.sizeInBytes
      · have ho := hov.mpr ⟨Nat.pos_of_ne_zero hsize, hmem⟩
        simp [count_eq_one_of_mem hpages hmem, ho]
      · have ho : ¬ s.Overlaps page h := fun ho => hmem (hov.mp ho).2
        simp [count_eq_zero.mpr hmem, ho]

theorem Coherent.sound (hc : Coherent s.allocator s.handles [] s.reserved) : s.Sound := by
  have hpieces : ∀ a, coverage s.pieces a = coverage s.reserved a := by
    intro a
    rw [pieces, coverage_append, ← hc.tile a, coverage_nil, zero_add]
  have hcount := fun page => count_handlePages (s := s) page s.handles
  refine ⟨pairwise_apart fun a => ?_, fun a => ?_, hc.freeSpace.apart, hc.freeSpace.toIndexed,
    hc.bytesAllocated, fun page => ?_, ?_⟩
  · rw [hpieces]
    exact hc.reserved a
  · rw [← coverage_pos, ← coverage_pos, hpieces]
  · rw [hc.occupied.tallies page, hcount]
    rfl
  · rw [hc.occupied.committed]
    congr 1
    have hset : {page | 0 < s.users page} =
        ((s.handles.flatMap (handlePages s.allocator)).toFinset : Set Nat) := by
      ext page
      rw [Set.mem_ofPred_eq, users, ← hcount, count_pos_iff]
      simp
    rw [hset, Set.ncard_coe_finset]
    rfl

theorem handlePages_congr (hlog : m'.logPageSize = m.logPageSize) :
    handlePages m' = handlePages m := by
  funext h
  unfold handlePages pages
  rw [hlog]

theorem Coherent.mem_bounds (hc : Coherent m hs holes rs) {a : Nat}
    (ha : 0 < coverage holes a + coverage (hs.map region) a) :
    0 < a ∧ a + 1 + m.pageSize ≤ word := by
  have hpos : 0 < coverage rs a := by
    rw [← hc.tile a]
    omega
  obtain ⟨r, hr, hstart, hstop⟩ := coverage_pos.mp hpos
  have := hc.bounds r hr
  omega

theorem Coherent.reserve (hc : Coherent m hs holes rs) (bytesReserved : Nat)
    (hnew : ∀ a, coverage [r] a + coverage rs a ≤ 1)
    (hbnd : 0 < r.start ∧ r.stop + m.pageSize ≤ word) :
    Coherent { m with bytesReserved := bytesReserved } hs (r :: holes) (r :: rs) where
  freeSpace := ⟨⟨hc.freeSpace.nodup, hc.freeSpace.keys, hc.freeSpace.starts, hc.freeSpace.ends⟩,
    hc.freeSpace.fresh, hc.freeSpace.nonempty, hc.freeSpace.disjoint, hc.freeSpace.apart⟩
  tile a := by
    rw [coverage_cons' _ holes, coverage_cons' _ rs, ← hc.tile a, add_assoc]
    rfl
  reserved a := by
    rw [coverage_cons']
    exact hnew a
  bounds r' hr' := by
    rcases mem_cons.mp hr' with rfl | hr'
    · exact hbnd
    · exact hc.bounds r' hr'
  granule := hc.granule
  bytesAllocated := hc.bytesAllocated
  occupied := ⟨hc.occupied.tallies, hc.occupied.committed⟩

theorem Coherent.of_accounts {holes' : List Region} (hc : Coherent m hs holes rs)
    (hf : m'.FreeSpace) (haccts : SameAccounts m m')
    (htile : ∀ a, coverage holes' a + (coverage (hs.map region) a +
      coverage m'.freeRegions a) = coverage rs a) : Coherent m' hs holes' rs := by
  refine ⟨hf, htile, hc.reserved, ?_, ?_, ?_, ?_⟩
  · unfold pageSize
    rw [haccts.logPageSize]
    exact hc.bounds
  · unfold allocationGranule
    rw [haccts.logAllocationGranule]
    exact hc.granule
  · rw [haccts.bytesAllocated]
    exact hc.bytesAllocated
  · rw [handlePages_congr haccts.logPageSize]
    exact haccts.occupied hc.occupied

theorem Coherent.addFreeSpace {start sizeInBytes : Nat}
    (hc : Coherent m hs (⟨start, sizeInBytes⟩ :: holes) rs) (hsize : 0 < sizeInBytes) :
    Coherent (m.addFreeSpace start sizeInBytes) hs holes rs := by
  have hone : ∀ a, coverage [⟨start, sizeInBytes⟩] a + coverage m.freeRegions a ≤ 1 := by
    intro a
    have htile := hc.tile a
    have hle := hc.reserved a
    rw [coverage_cons' _ holes] at htile
    omega
  obtain ⟨hf, haccts, hcov⟩ := gains_addFreeSpace hc.freeSpace hsize hone
  refine hc.of_accounts hf haccts fun a => ?_
  have htile := hc.tile a
  rw [coverage_cons' _ holes] at htile
  rw [hcov, ← htile]
  omega

theorem Coherent.findAndRemoveFreeSpace {node sizeInBytes : Nat} (hc : Coherent m hs [] rs)
    (hsize : 0 < sizeInBytes)
    (hfound : MetaAllocator.Finds m.freeSpaceSizeMap sizeInBytes (some node)) :
    Coherent (m.findAndRemoveFreeSpace sizeInBytes (some node)).1 hs
      [⟨(m.findAndRemoveFreeSpace sizeInBytes (some node)).2, sizeInBytes⟩] rs := by
  obtain ⟨k, hmem, hle, -⟩ := hfound
  have hkey := hc.freeSpace.keys _ hmem
  have hnode : node ∈ m.freeNodes := mem_map.mpr ⟨_, hmem, rfl⟩
  obtain ⟨hf, haccts, hcov⟩ :=
    loses_findAndRemoveFreeSpace hc.freeSpace hnode hsize (by rw [← hkey]; exact hle)
  refine hc.of_accounts hf haccts fun a => ?_
  rw [← hc.tile a, hcov, coverage_nil]
  omega

theorem Coherent.found_ne_zero {node sizeInBytes : Nat} (hc : Coherent m hs [] rs)
    (hpos : 0 < sizeInBytes)
    (hfinds : MetaAllocator.Finds m.freeSpaceSizeMap sizeInBytes (some node)) :
    (m.findAndRemoveFreeSpace sizeInBytes (some node)).2 ≠ 0 := by
  refine Nat.ne_of_gt ((hc.findAndRemoveFreeSpace hpos hfinds).mem_bounds ?_).1
  rw [coverage_cons_of_contains (Region.contains_start hpos)]
  omega

theorem Coherent.makeHandle {start sizeInBytes : Nat}
    (hc : Coherent m hs [⟨start, sizeInBytes⟩] rs) (hsize : 0 < sizeInBytes)
    (hgranule : m.allocationGranule ∣ sizeInBytes) :
    Coherent (m.makeHandle start sizeInBytes).1 (⟨start, sizeInBytes⟩ :: hs) [] rs := by
  obtain ⟨hocc, f, bytes, heq⟩ := occupied_incrementPageOccupancy hc.occupied start sizeInBytes
  have hf := hc.freeSpace
  have hpages : m.pages start sizeInBytes = handlePages m ⟨start, sizeInBytes⟩ :=
    (if_neg (Nat.ne_of_gt hsize)).symm
  unfold MetaAllocator.makeHandle
  rw [heq, hpages, ← flatMap_cons] at hocc
  rw [heq]
  refine ⟨⟨⟨hf.nodup, hf.keys, hf.starts, hf.ends⟩, hf.fresh, hf.nonempty, hf.disjoint, hf.apart⟩,
    fun a => ?_, hc.reserved, hc.bounds, ?_, ?_, ?_⟩
  · rw [← hc.tile a, map_cons, coverage_cons' _ (hs.map _), coverage_nil, zero_add, add_assoc]
    rfl
  · intro h hh
    rcases mem_cons.mp hh with rfl | hh
    · exact hgranule
    · exact hc.granule h hh
  · rw [map_cons, sum_cons, ← hc.bytesAllocated, add_comm]
  · exact ⟨hocc.tallies, hocc.committed⟩

/-- A handle gives back one part of its region, with the pages that only that part used. -/
theorem Coherent.giveBack (start sizeInBytes : Nat) (kept : List MetaAllocatorHandle)
    (ps : List Nat) (hc : Coherent m (h :: hs) [] rs) (hsize : 0 < sizeInBytes)
    (hpages : (handlePages m h).Perm (ps ++ kept.flatMap (handlePages m)))
    (hgranule : ∀ h' ∈ kept, m.allocationGranule ∣ h'.sizeInBytes)
    (hreg : ∀ a, coverage [h.region] a = coverage [⟨start, sizeInBytes⟩] a +
      coverage (kept.map MetaAllocatorHandle.region) a)
    (hbytes : h.sizeInBytes = sizeInBytes + (kept.map MetaAllocatorHandle.sizeInBytes).sum) :
    ∃ m', ps.foldlM MetaAllocator.decrementPage m = some m' ∧
      Coherent (m'.addFreeSpaceFromReleasedHandle start sizeInBytes) (kept ++ hs) [] rs := by
  have hocc : m.Occupied (ps ++ (kept ++ hs).flatMap (handlePages m)) := by
    refine hc.occupied.perm ?_
    rw [flatMap_cons, flatMap_append, ← append_assoc]
    exact hpages.append_right _
  obtain ⟨m', hm', hocc', f, bytes, rfl⟩ := MetaAllocator.occupied_foldlM_decrementPage hocc
  refine ⟨_, hm', ?_⟩
  have hf := hc.freeSpace
  refine Coherent.addFreeSpace (m := { m with
    pageOccupancyMap := f
    bytesCommitted := bytes
    bytesAllocated := m.bytesAllocated - sizeInBytes }) ?_ hsize
  refine ⟨⟨⟨hf.nodup, hf.keys, hf.starts, hf.ends⟩, hf.fresh, hf.nonempty, hf.disjoint, hf.apart⟩,
    fun a => ?_, hc.reserved, hc.bounds, ?_, ?_, ?_⟩
  · have htile := hc.tile a
    rw [map_cons, coverage_cons' _ (hs.map _), hreg, coverage_nil] at htile
    rw [map_append, coverage_append, ← htile]
    change coverage [⟨start, sizeInBytes⟩] a + (_ + coverage m.freeRegions a) = _
    omega
  · intro h' hh'
    rcases mem_append.mp hh' with hh' | hh'
    · exact hgranule h' hh'
    · exact hc.granule h' (mem_cons_of_mem _ hh')
  · have hsum := hc.bytesAllocated
    rw [map_cons, sum_cons, hbytes] at hsum
    rw [map_append, sum_append]
    dsimp only
    omega
  · exact ⟨hocc'.tallies, hocc'.committed⟩

theorem Coherent.release (hc : Coherent m (h :: hs) [] rs) :
    ∃ m', m.release h = some m' ∧ Coherent m' hs [] rs := by
  unfold MetaAllocator.release
  by_cases hsize : h.sizeInBytes = 0
  · rw [if_neg (not_not.mpr hsize)]
    refine ⟨m, rfl, hc.freeSpace, fun a => ?_, hc.reserved, hc.bounds,
      fun h' hh' => hc.granule h' (mem_cons_of_mem _ hh'), ?_, ?_⟩
    · have hempty : coverage [h.region] a = 0 := by
        rw [region, hsize, coverage_empty]
      rw [← hc.tile a, map_cons, coverage_cons' _ (hs.map _), hempty, zero_add]
    · rw [hc.bytesAllocated, map_cons, sum_cons, hsize, zero_add]
    · have hocc := hc.occupied
      rwa [flatMap_cons, handlePages, if_pos hsize, nil_append] at hocc
  · rw [if_pos hsize]
    obtain ⟨m', hm', hc'⟩ := hc.giveBack h.start h.sizeInBytes []
      (m.pages h.start h.sizeInBytes) (Nat.pos_of_ne_zero hsize)
      (by simp [handlePages, hsize]) (by simp) (fun a => by simp [region])
      (by simp)
    refine ⟨_, ?_, hc'⟩
    rw [decrementPageOccupancy, hm']
    rfl

theorem Coherent.shrink {newSizeInBytes : Nat} {m' : MetaAllocator}
    (hc : Coherent m (h :: hs) [] rs) (hle : newSizeInBytes ≤ h.sizeInBytes)
    (haligned : newSizeInBytes = 0 → h.sizeInBytes ≠ 0 → h.start % m.pageSize = 0)
    (hshrink : m.shrink h newSizeInBytes = some (m', h')) : Coherent m' (h' :: hs) [] rs := by
  obtain ⟨rounded, hround, hrest⟩ := Option.bind_eq_some_iff.mp hshrink
  obtain ⟨hdvd, hge, hleast⟩ := MetaAllocator.roundUp_spec hround
  have hgranule := hc.granule h mem_cons_self
  have hle' := hleast _ hgranule hle
  dsimp only at hrest
  split at hrest
  · cases hrest
    exact hc
  · rename_i hne
    have hlt : rounded < h.sizeInBytes := Nat.lt_of_le_of_ne hle' hne
    have hpos : 0 < h.region.size := Nat.lt_of_le_of_lt (Nat.zero_le rounded) hlt
    have hlast : h.region.Contains (h.start + h.sizeInBytes - 1) := Region.contains_last hpos
    have hstart : h.region.Contains h.start := Region.contains_start hpos
    have hbnd := hc.mem_bounds (a := h.start + h.sizeInBytes - 1) (by
      rw [map_cons, coverage_cons_of_contains hlast]
      omega)
    have hfirst := hc.mem_bounds (a := h.start) (by
      rw [map_cons, coverage_cons_of_contains hstart]
      omega)
    have hword : (h.start + rounded + m.pageSize - 1) % word =
        h.start + rounded + m.pageSize - 1 := Nat.mod_eq_of_lt (by omega)
    have hend : h.start + rounded + (h.sizeInBytes - rounded) = h.start + h.sizeInBytes := by
      omega
    have hboundary := m.le_boundary (x := h.start + rounded) (by omega)
    rw [hword, hend] at hrest
    generalize hF : clearLowBits m.logPageSize (h.start + rounded + m.pageSize - 1) = F at *
    have hpages : (handlePages m h).Perm ((if F < h.start + h.sizeInBytes then
            m.pages F (h.sizeInBytes - rounded - (F - (h.start + rounded)))
          else []) ++ [(⟨h.start, rounded⟩ : MetaAllocatorHandle)].flatMap (handlePages m)) := by
      rw [handlePages, if_neg (by omega : h.sizeInBytes ≠ 0), flatMap_singleton]
      rcases Nat.eq_zero_or_pos rounded with rfl | hpos
      · have hFstart : F = h.start := by
          rw [← hF]
          exact MetaAllocator.boundary_of_aligned (haligned (Nat.le_zero.mp hge) (by omega))
        rw [hFstart, if_pos (by omega), handlePages, if_pos rfl, append_nil]
        simp
      · have hcut := m.pages_cut h.start hpos hle'
        rw [hF] at hcut
        rw [hcut, handlePages, if_neg (Nat.ne_of_gt hpos)]
        have hsizes : F < h.start + h.sizeInBytes → h.start + h.sizeInBytes - F =
            h.sizeInBytes - rounded - (F - (h.start + rounded)) := by omega
        refine perm_append_comm.trans ?_
        split
        · rename_i hFlt
          rw [hsizes hFlt]
        · exact List.Perm.refl _
    obtain ⟨m1, hm1, hc1⟩ := hc.giveBack (h.start + rounded)
      (h.sizeInBytes - rounded) [⟨h.start, rounded⟩] _ (by omega) hpages
      (by simpa using hdvd) (fun a => by
        have hcut := coverage_cut h.start rounded (h.sizeInBytes - rounded) a
        rw [Nat.add_sub_cancel' hle'] at hcut
        rw [map_singleton, Nat.add_comm]
        exact hcut) (by simp; omega)
    have hdec : (if F < h.start + h.sizeInBytes then
        m.decrementPageOccupancy F (h.sizeInBytes - rounded - (F - (h.start + rounded)))
        else some m) = some m1 := by
      rw [← hm1]
      split <;> rfl
    rw [hdec] at hrest
    cases hrest
    exact hc1

theorem Coherent.cut {start size rest : Nat} (hc : Coherent m hs [⟨start, size + rest⟩] rs) :
    Coherent m hs [⟨start + size, rest⟩, ⟨start, size⟩] rs :=
  { hc with
    tile := fun a => by
      rw [← hc.tile a, coverage_cut, coverage_cons' ⟨start + size, rest⟩,
        add_comm (coverage [⟨start, size⟩] a)] }

theorem addFreeSpace_logAllocationGranule (m : MetaAllocator) (start sizeInBytes : Nat) :
    (m.addFreeSpace start sizeInBytes).logAllocationGranule = m.logAllocationGranule := by
  unfold addFreeSpace
  dsimp only
  split <;> rfl

theorem findAndRemoveFreeSpace_logAllocationGranule (m : MetaAllocator) (sizeInBytes : Nat)
    (found : Option Nat) :
    (m.findAndRemoveFreeSpace sizeInBytes found).1.logAllocationGranule =
      m.logAllocationGranule := by
  cases found with
  | none => rfl
  | some node =>
    unfold findAndRemoveFreeSpace
    dsimp only
    split
    · rfl
    · split <;> rfl

theorem Unreserved.coverage_le (h : s.Unreserved r) (hone : ∀ a, coverage s.reserved a ≤ 1)
    (a : Nat) : coverage [r] a + coverage s.reserved a ≤ 1 := by
  rw [coverage_singleton]
  split
  · rename_i ha
    rw [coverage_eq_zero.mpr fun r' hr' => h r' hr' a ha]
  · rw [zero_add]
    exact hone a

theorem le_of_requestedNumberOfPages {sizeInBytes numberOfPages : Nat}
    (hfits : sizeInBytes + m.pageSize ≤ word)
    (hpages : m.requestedNumberOfPages sizeInBytes ≤ numberOfPages) :
    sizeInBytes ≤ numberOfPages <<< m.logPageSize := by
  have hpos := m.pageSize_pos
  have hsize : 2 ^ m.logPageSize = m.pageSize := by
    rw [pageSize, Nat.one_shiftLeft]
  unfold requestedNumberOfPages at hpages
  rw [Nat.mod_eq_of_lt (by omega), m.shiftRight_logPageSize] at hpages
  have hlt := (Nat.div_lt_iff_lt_mul hpos).mp (Nat.lt_succ_of_le hpages)
  rw [Nat.succ_mul] at hlt
  rw [Nat.shiftLeft_eq, hsize]
  omega

theorem Coherent.takeNewSpace {start numberOfPages sizeInBytes : Nat}
    (hc : Coherent m hs [] rs) (hsize : 0 < sizeInBytes)
    (hgranule : m.allocationGranule ∣ sizeInBytes)
    (hle : sizeInBytes ≤ numberOfPages <<< m.logPageSize)
    (hnew : ∀ a, coverage [⟨start, numberOfPages <<< m.logPageSize⟩] a + coverage rs a ≤ 1)
    (hbnd : 0 < start ∧ start + numberOfPages <<< m.logPageSize + m.pageSize ≤ word) :
    Coherent (m.takeNewSpace start numberOfPages sizeInBytes).1
      (⟨start, sizeInBytes⟩ :: hs) [] (⟨start, numberOfPages <<< m.logPageSize⟩ :: rs) := by
  have hresv := hc.reserve (m.bytesReserved + numberOfPages <<< m.logPageSize) hnew hbnd
  unfold MetaAllocator.takeNewSpace
  dsimp only
  split
  · rw [← Nat.add_sub_cancel' hle] at hresv
    have hfree := hresv.cut.addFreeSpace (by omega)
    rw [Nat.add_sub_cancel' hle] at hfree
    refine hfree.makeHandle hsize ?_
    unfold allocationGranule
    rw [addFreeSpace_logAllocationGranule]
    exact hgranule
  · have heq : sizeInBytes = numberOfPages <<< m.logPageSize := by omega
    rw [← heq] at hresv ⊢
    exact hresv.makeHandle hsize hgranule

theorem Coherent.allocate {sizeInBytes : Nat} {found : Option Nat} {newSpace : Option (Nat × Nat)}
    {handle : Option MetaAllocatorHandle}
    (hc : Coherent s.allocator s.handles [] s.reserved)
    (hen : s.Enabled (.allocate sizeInBytes found newSpace))
    (hserves : s.Serves (.allocate sizeInBytes found newSpace))
    (halloc : s.allocator.allocate sizeInBytes found newSpace = some (m', handle)) :
    Coherent m' (handle.toList ++ s.handles) []
      (s.newRegion sizeInBytes found newSpace ++ s.reserved) := by
  unfold MetaAllocator.allocate at halloc
  split at halloc
  · rename_i hzero
    cases halloc
    have hnone : s.newRegion sizeInBytes found newSpace = [] := by
      unfold newRegion
      split
      · rw [if_neg (fun hnew => hnew.1 hzero)]
      · rfl
    rw [hnone]
    exact hc
  · rename_i hne
    obtain ⟨rounded, hround, hrest⟩ := Option.map_eq_some_iff.mp halloc
    obtain ⟨hdvd, hge, -⟩ := MetaAllocator.roundUp_spec hround
    obtain ⟨hfinds, hans⟩ := hen rounded hround
    have hpos : 0 < rounded := by omega
    cases found with
    | none =>
      cases newSpace with
      | none =>
        cases hrest
        have hnone : s.newRegion sizeInBytes none none = [] := by
          unfold newRegion
          split
          · rename_i h
            cases h
          · rfl
        rw [hnone]
        exact hc
      | some space =>
        obtain ⟨start, numberOfPages⟩ := space
        have hreg : s.newRegion sizeInBytes none (some (start, numberOfPages)) =
            [⟨start, numberOfPages <<< s.allocator.logPageSize⟩] := by
          simp [newRegion, hround, hne, MetaAllocator.findAndRemoveFreeSpace]
        obtain ⟨hspace, hfits⟩ := hserves _ (by rw [hreg]; exact mem_singleton_self _)
        obtain ⟨hpages, hunreserved⟩ := hans start numberOfPages rfl
        rw [hreg]
        cases hrest
        exact hc.takeNewSpace hpos hdvd (le_of_requestedNumberOfPages (hfits rounded hround) hpages)
          (hunreserved.coverage_le hc.reserved) hspace
    | some node =>
      have hhole := hc.findAndRemoveFreeSpace hpos hfinds
      have hstart := hc.found_ne_zero hpos hfinds
      have hreg : s.newRegion sizeInBytes (some node) newSpace = [] := by
        unfold newRegion
        rw [hround]
        split
        · rename_i heq
          cases heq
          rw [if_neg (fun hnew => hstart hnew.2)]
        · rfl
      dsimp only at hrest
      rw [if_neg hstart] at hrest
      cases hrest
      rw [hreg]
      refine hhole.makeHandle hpos ?_
      unfold MetaAllocator.allocationGranule
      rw [findAndRemoveFreeSpace_logAllocationGranule]
      exact hdvd

end MetaAllocatorSystem

/-!
## Runs of the allocator

Every step that meets `Serves` keeps `Coherent`, so every run of such steps ends in a sound
state (`sound_of_serves`). The condition that matters is that no handle that starts inside
a page is shrunk to nothing: the source then keeps the first page occupied for ever, because
it rounds the freed space up to a page and skips the handle of size 0 when it is destroyed
(`not_soundRuns_of_shrink_to_nothing`).
-/

open Tiling Transition

namespace MetaAllocatorSystem

variable {h : MetaAllocatorHandle} {s t : MetaAllocatorSystem}

theorem perm_at {l : List MetaAllocatorHandle} {i : Nat} (hi : l[i]? = some h) :
    ∃ rest, l.Perm (h :: rest) ∧ (∀ h', (l.set i h').Perm (h' :: rest)) ∧
      (l.eraseIdx i).Perm rest := by
  obtain ⟨hlt, rfl⟩ := List.getElem?_eq_some_iff.mp hi
  refine ⟨l.eraseIdx i, ?_, fun h' => ?_, List.Perm.refl _⟩
  · rw [List.eraseIdx_eq_take_drop_succ]
    refine List.Perm.trans ?_ perm_middle
    rw [cons_getElem_drop_succ, take_append_drop]
  · rw [set_eq_take_append_cons_drop, if_pos hlt, eraseIdx_eq_take_drop_succ]
    exact perm_middle

theorem Coherent.step {u : AllocatorUse} (hc : Coherent s.allocator s.handles [] s.reserved)
    (hserves : s.Serves u) (hstep : s.Step u t) :
    Coherent t.allocator t.handles [] t.reserved := by
  obtain ⟨hen, hstep⟩ := hstep
  cases u with
  | addFreshFreeSpace start sizeInBytes =>
    cases hstep
    exact (hc.reserve _ (hen.2.coverage_le hc.reserved) hserves).addFreeSpace hen.1
  | allocate sizeInBytes found newSpace =>
    obtain ⟨⟨m', handle⟩, halloc, heq⟩ := map_eq_some_iff.mp hstep
    cases heq
    exact hc.allocate hen hserves halloc
  | shrink i newSizeInBytes =>
    obtain ⟨h, hi, hrest⟩ := bind_eq_some_iff.mp hstep
    obtain ⟨⟨m', h'⟩, hshrink, heq⟩ := map_eq_some_iff.mp hrest
    cases heq
    obtain ⟨h1, hi1, hle⟩ := hen
    rw [hi] at hi1
    cases hi1
    obtain ⟨rest, hperm, hset, -⟩ := perm_at hi
    exact ((hc.perm hperm).shrink hle (hserves h hi) hshrink).perm (hset h').symm
  | release i =>
    obtain ⟨h, hi, hrest⟩ := bind_eq_some_iff.mp hstep
    obtain ⟨m', hrelease, heq⟩ := map_eq_some_iff.mp hrest
    cases heq
    obtain ⟨rest, hperm, -, herase⟩ := perm_at hi
    obtain ⟨m1, hm1, hc1⟩ := (hc.perm hperm).release
    rw [hrelease] at hm1
    cases hm1
    exact hc1.perm herase.symm

/-- Granules of 4 and pages of 16 bytes; two pages are added, and a granule is taken and given
back. -/
def alignedUses : List AllocatorUse :=
  [.addFreshFreeSpace 16 32, .allocate 4 (some 0) none, .shrink 0 0]

theorem run_alignedUses :
    ∃ s, Run (guarded Step Serves) (initial 2 4) alignedUses s ∧ s.handles = [⟨16, 0⟩] := by
  refine ⟨_, .cons ⟨⟨by decide, by decide⟩, ⟨by decide, fun r hr => ?_⟩, rfl⟩
    (.cons ⟨fun r hr => ?_, fun rounded hround => ⟨?_, ?_⟩, rfl⟩
      (.single ⟨fun h hh _ _ => ?_, ⟨_, rfl, by decide⟩, rfl⟩)), rfl⟩
  · cases hr
  · cases hr
  · cases hround
    exact ⟨32, mem_singleton_self _, by decide, by decide⟩
  · intro start numberOfPages hspace
    cases hspace
  · cases hh
    rfl

/-- The addresses are reserved and in no handle. -/
def Vacant (s : MetaAllocatorSystem) (r : Region) : Prop :=
  ∀ a, r.Contains a → (∃ r' ∈ s.reserved, r'.Contains a) ∧ ∀ h ∈ s.handles, ¬ h.region.Contains a

theorem Sound.exists_freeNode {r : Region} {a : Nat} (hs : s.Sound) (hr : s.Vacant r)
    (ha : r.Contains a) : ∃ node ∈ s.allocator.freeNodes,
      (s.allocator.freeSpaceNode node).region.Contains a := by
  obtain ⟨hreserved, hfree⟩ := hr a ha
  obtain ⟨r', hr', ha'⟩ := (hs.tile a).mpr hreserved
  rcases mem_append.mp hr' with hr' | hr'
  · obtain ⟨h, hh, rfl⟩ := mem_map.mp hr'
    exact absurd ha' (hfree h hh)
  · obtain ⟨node, hnode, rfl⟩ := mem_map.mp hr'
    exact ⟨node, hnode, ha'⟩

/-- Free nodes are as large as they can be, so one holds the whole of a vacant region. -/
theorem Coherent.fits {r : Region} (hc : Coherent s.allocator s.handles [] s.reserved)
    (hr : s.Vacant r) (hpos : 0 < r.size) :
    ∃ node ∈ s.allocator.freeNodes, r.size ≤ (s.allocator.freeSpaceNode node).sizeInBytes := by
  obtain ⟨node, hnode, hstart, hlt⟩ := hc.sound.exists_freeNode hr (Region.contains_start hpos)
  refine ⟨node, hnode, ?_⟩
  by_contra hshort
  set r1 := (s.allocator.freeSpaceNode node).region with hr1
  change ¬ r.size ≤ r1.size at hshort
  have hstop : r1.stop = r1.start + r1.size := rfl
  have hend : r.stop = r.start + r.size := rfl
  -- the node of the byte behind this one cannot start there, so they overlap
  obtain ⟨node', hnode', hstart', hlt'⟩ := hc.sound.exists_freeNode hr
    (a := r1.stop) ⟨hlt.le, by omega⟩
  have hne := hc.freeSpace.apart node hnode node' hnode'
  have hmem := (mem_freeNodes_detach hc.freeSpace.toIndexed hnode).mpr
    ⟨hnode', by rintro rfl; exact lt_irrefl _ hlt'⟩
  exact region_apart hc.freeSpace hnode hmem _
    (Region.contains_last (hc.freeSpace.nonempty node hnode))
    ⟨Nat.le_sub_one_of_lt (hstart'.lt_of_ne hne.symm), (Nat.sub_le _ _).trans_lt hlt'⟩

/-- Two granules of one page are taken, and the second is shrunk to nothing. -/
def shrinkToNothing : List AllocatorUse :=
  [.addFreshFreeSpace 16 32, .allocate 4 (some 0) none, .allocate 4 (some 0) none, .shrink 0 0]

theorem run_shrinkToNothing :
    ∃ s, Run (guarded Step fun _ _ => True) (initial 2 4) shrinkToNothing s ∧
      s.allocator.pageOccupancyMap 1 = some 2 ∧ s.handles = [⟨20, 0⟩, ⟨16, 4⟩] ∧
      s.allocator.pageSize = 16 := by
  refine ⟨_, .cons ⟨trivial, ⟨by decide, fun r hr => ?_⟩, rfl⟩
    (.cons ⟨trivial, fun rounded hround => ⟨?_, ?_⟩, rfl⟩
      (.cons ⟨trivial, fun rounded hround => ⟨?_, ?_⟩, rfl⟩
        (.single ⟨trivial, ⟨_, rfl, by decide⟩, rfl⟩))), rfl, rfl, rfl⟩
  · cases hr
  · cases hround
    exact ⟨32, mem_singleton_self _, by decide, by decide⟩
  · intro start numberOfPages hspace
    cases hspace
  · cases hround
    exact ⟨28, mem_singleton_self _, by decide, by decide⟩
  · intro start numberOfPages hspace
    cases hspace

end MetaAllocatorSystem

end WebKit.WTF
