import WebKit.WTF.MetaAllocator

/-!
# Adding and taking free space

Each branch of `addFreeSpace` and `findAndRemoveFreeSpace` equals a sequence of `detach` and
`attach` (`addFreeSpace_eq`, `findAndRemoveFreeSpace_eq`), so both keep `FreeSpace`. The
first adds exactly the addresses it is given to the free space, the second takes exactly
the addresses it returns out of it.
-/

namespace WebKit.WTF

open Tiling Function Region

theorem addEntry_of_none {β : Type} {f : Nat → Option β} {key : Nat} (h : f key = none)
    (value : β) : addEntry f key value = update f key (some value) := by
  unfold addEntry
  rw [h]
  rfl

theorem update_update_of_eq_some {f : Nat → Option Nat} {key node : Nat} (h : f key = some node) :
    update (update f key none) key (some node) = f := by
  rw [update_idem, ← h, update_eq_self]

namespace MetaAllocator

variable {m : MetaAllocator} {node : Nat} {start sizeInBytes : Nat}

/-- The page counts and the sums are the same. -/
structure SameAccounts (m m' : MetaAllocator) : Prop where
  logAllocationGranule : m'.logAllocationGranule = m.logAllocationGranule
  logPageSize : m'.logPageSize = m.logPageSize
  pageOccupancyMap : m'.pageOccupancyMap = m.pageOccupancyMap
  bytesAllocated : m'.bytesAllocated = m.bytesAllocated
  bytesReserved : m'.bytesReserved = m.bytesReserved
  bytesCommitted : m'.bytesCommitted = m.bytesCommitted

theorem SameAccounts.trans {m1 m2 m3 : MetaAllocator} (h : SameAccounts m1 m2)
    (h' : SameAccounts m2 m3) : SameAccounts m1 m3 where
  logAllocationGranule := h'.logAllocationGranule.trans h.logAllocationGranule
  logPageSize := h'.logPageSize.trans h.logPageSize
  pageOccupancyMap := h'.pageOccupancyMap.trans h.pageOccupancyMap
  bytesAllocated := h'.bytesAllocated.trans h.bytesAllocated
  bytesReserved := h'.bytesReserved.trans h.bytesReserved
  bytesCommitted := h'.bytesCommitted.trans h.bytesCommitted

theorem detach_sameAccounts (m : MetaAllocator) (node : Nat) : SameAccounts m (m.detach node) :=
  ⟨rfl, rfl, rfl, rfl, rfl, rfl⟩

theorem attach_sameAccounts (m : MetaAllocator) (node : Nat) (r : Region) :
    SameAccounts m (m.attach node r) :=
  ⟨rfl, rfl, rfl, rfl, rfl, rfl⟩

/-- No entry stands where a region enters that covers nothing that is free. -/
theorem FreeSpace.no_entry (hf : m.FreeSpace) {r : Region} (hr : 0 < r.size)
    (hdisjoint : ∀ a, coverage [r] a + coverage m.freeRegions a ≤ 1) :
    m.freeSpaceStartAddressMap r.start = none ∧ m.freeSpaceEndAddressMap r.stop = none := by
  constructor
  · rw [Option.eq_none_iff_forall_ne_some]
    intro node hnode
    obtain ⟨h, heq⟩ := (hf.starts _ _).mp hnode
    exact (hf.not_same_ends hr hdisjoint h).1 heq
  · rw [Option.eq_none_iff_forall_ne_some]
    intro node hnode
    obtain ⟨h, heq⟩ := (hf.ends _ _).mp hnode
    exact (hf.not_same_ends hr hdisjoint h).2 heq

section

variable (hi : m.Indexed) (h : node ∈ m.freeNodes)
include hi h

theorem start_entry :
    m.freeSpaceStartAddressMap (m.freeSpaceNode node).start = some node :=
  (hi.starts _ _).mpr ⟨h, rfl⟩

theorem end_entry :
    m.freeSpaceEndAddressMap (m.freeSpaceNode node).region.stop = some node :=
  (hi.ends _ _).mpr ⟨h, rfl⟩

/-- A node grows to the right or is cut on the right: only its end moves. -/
theorem moveEnd_eq {size : Nat}
    (hnone : (m.detach node).freeSpaceEndAddressMap ((m.freeSpaceNode node).start + size) = none) :
    ((((m.removeBySize node).removeEnd (m.freeSpaceNode node).region.stop).setNode node
      ⟨(m.freeSpaceNode node).start, size⟩).insertBySize node).addEnd
        ((m.freeSpaceNode node).start + size) node =
      (m.detach node).attach node ⟨(m.freeSpaceNode node).start, size⟩ := by
  apply MetaAllocator.ext
  · rfl
  · rfl
  · rfl
  · rfl
  · simp [addEnd, insertBySize, setNode, removeEnd, removeBySize, attach, detach, removeStart]
  · exact (update_update_of_eq_some (start_entry hi h)).symm
  · exact addEntry_of_none hnone node
  · rfl
  · rfl
  · rfl
  · rfl

/-- A node grows to the left or is cut on the left: only its start moves. -/
theorem moveStart_eq {start size : Nat}
    (hstop : start + size = (m.freeSpaceNode node).region.stop)
    (hnone : (m.detach node).freeSpaceStartAddressMap start = none) :
    ((((m.removeBySize node).removeStart (m.freeSpaceNode node).start).setNode node
      ⟨start, size⟩).insertBySize node).addStart start node =
      (m.detach node).attach node ⟨start, size⟩ := by
  apply MetaAllocator.ext
  · rfl
  · rfl
  · rfl
  · rfl
  · simp [addStart, insertBySize, setNode, removeEnd, removeBySize, attach, detach, removeStart]
  · exact addEntry_of_none hnone node
  · have hentry : update (update m.freeSpaceEndAddressMap
        (m.freeSpaceNode node).region.stop none) (start + size) (some node) =
        m.freeSpaceEndAddressMap := by
      rw [hstop]
      exact update_update_of_eq_some (end_entry hi h)
    exact hentry.symm
  · rfl
  · rfl
  · rfl
  · rfl

end

/-- What a change of the free space keeps, and that it adds these addresses. -/
structure Gains (m m' : MetaAllocator) (r : Region) : Prop where
  freeSpace : m'.FreeSpace
  accounts : SameAccounts m m'
  coverage : ∀ a, coverage m'.freeRegions a = coverage [r] a + coverage m.freeRegions a

theorem gains_attach {d : MetaAllocator} {new r : Region} (hd : d.FreeSpace)
    (haccts : SameAccounts m d) (hnode : node ∉ d.freeNodes) (hcount : node < d.nodeCount)
    (hr : 0 < r.size) (hdisjoint : ∀ a, coverage [new] a + coverage m.freeRegions a ≤ 1)
    (hcov : ∀ a, coverage [r] a + coverage d.freeRegions a =
      coverage [new] a + coverage m.freeRegions a)
    (hapart : ∀ node' ∈ d.freeNodes, (d.freeSpaceNode node').region.stop ≠ r.start ∧
      r.stop ≠ (d.freeSpaceNode node').region.start) : Gains m (d.attach node r) new where
  freeSpace := hd.attach hnode hcount hr (fun a => by rw [hcov]; exact hdisjoint a) hapart
  accounts := haccts.trans (attach_sameAccounts d node r)
  coverage a := by
    rw [freeRegions_attach r hnode, coverage_cons', hcov]

theorem not_mem_freeNodes_detach (hi : m.Indexed) (h : node ∈ m.freeNodes) :
    node ∉ (m.detach node).freeNodes :=
  fun hmem => ((mem_freeNodes_detach hi h).mp hmem).2 rfl

section Add

variable (hf : m.FreeSpace) (hsize : 0 < sizeInBytes)
  (hdisjoint : ∀ a, coverage [⟨start, sizeInBytes⟩] a + coverage m.freeRegions a ≤ 1)

include hf hsize hdisjoint

theorem gains_new (hleft : m.freeSpaceEndAddressMap start = none)
    (hright : m.freeSpaceStartAddressMap (start + sizeInBytes) = none) :
    Gains m (m.addFreeSpace start sizeInBytes) ⟨start, sizeInBytes⟩ := by
  obtain ⟨hstart, hend⟩ := hf.no_entry hsize hdisjoint
  have heq : m.addFreeSpace start sizeInBytes =
      { m with nodeCount := m.nodeCount + 1 }.attach m.nodeCount ⟨start, sizeInBytes⟩ := by
    simp only [addFreeSpace, hleft, hright]
    apply MetaAllocator.ext
    · rfl
    · rfl
    · rfl
    · rfl
    · simp [addStart, addEnd, insertBySize, setNode, attach]
    · exact addEntry_of_none hstart _
    · exact addEntry_of_none hend _
    · rfl
    · rfl
    · rfl
    · rfl
  rw [heq]
  refine gains_attach ⟨⟨hf.nodup, hf.keys, hf.starts, hf.ends⟩, fun node h => ?_, hf.nonempty,
    hf.disjoint, hf.apart⟩ ⟨rfl, rfl, rfl, rfl, rfl, rfl⟩ ?_ (Nat.lt_succ_self _) hsize hdisjoint
    (fun _ => rfl) fun node h => ⟨keyed_ne hf.ends hleft node h, (keyed_ne hf.starts hright node h).symm⟩
  · exact Nat.lt_succ_of_lt (hf.fresh node h)
  · exact fun hmem => lt_irrefl _ (hf.fresh _ hmem)

theorem gains_left {left : Nat} (hleft : m.freeSpaceEndAddressMap start = some left)
    (hright : m.freeSpaceStartAddressMap (start + sizeInBytes) = none) :
    Gains m (m.addFreeSpace start sizeInBytes) ⟨start, sizeInBytes⟩ := by
  obtain ⟨hmem, hstop⟩ := (hf.ends _ _).mp hleft
  have hd := hf.detach hmem
  have hcov : ∀ a, coverage [⟨(m.freeSpaceNode left).start,
      (m.freeSpaceNode left).sizeInBytes + sizeInBytes⟩] a +
        coverage (m.detach left).freeRegions a =
      coverage [⟨start, sizeInBytes⟩] a + coverage m.freeRegions a := by
    intro a
    have hcut : coverage [⟨(m.freeSpaceNode left).start,
        (m.freeSpaceNode left).sizeInBytes + sizeInBytes⟩] a =
        coverage [(m.freeSpaceNode left).region] a + coverage [⟨start, sizeInBytes⟩] a := by
      rw [coverage_cut, ← hstop]
      rfl
    rw [coverage_detach hmem, hcut]
    omega
  have hgrown : 0 < (m.freeSpaceNode left).sizeInBytes + sizeInBytes := by omega
  have hend : (m.freeSpaceNode left).start + ((m.freeSpaceNode left).sizeInBytes + sizeInBytes) =
      start + sizeInBytes := by
    rw [← add_assoc]
    exact congrArg (· + sizeInBytes) hstop
  have heq : m.addFreeSpace start sizeInBytes = (m.detach left).attach left
      ⟨(m.freeSpaceNode left).start, (m.freeSpaceNode left).sizeInBytes + sizeInBytes⟩ := by
    rw [← moveEnd_eq hf.toIndexed hmem
      (hd.no_entry hgrown fun a => by rw [hcov]; exact hdisjoint a).2, hend]
    simp only [addFreeSpace, hleft, hright]
    rfl
  rw [heq]
  refine gains_attach hd (detach_sameAccounts m left) (not_mem_freeNodes_detach hf.toIndexed hmem)
    (hf.fresh left hmem) hgrown hdisjoint hcov fun node h => ?_
  have h' := ((mem_freeNodes_detach hf.toIndexed hmem).mp h).1
  refine ⟨hf.apart node h' left hmem, ?_⟩
  intro hstart
  rw [stop, hend] at hstart
  exact keyed_ne hf.starts hright node h' hstart.symm

theorem gains_right {right : Nat} (hleft : m.freeSpaceEndAddressMap start = none)
    (hright : m.freeSpaceStartAddressMap (start + sizeInBytes) = some right) :
    Gains m (m.addFreeSpace start sizeInBytes) ⟨start, sizeInBytes⟩ := by
  obtain ⟨hmem, hstart⟩ := (hf.starts _ _).mp hright
  have hstart' : (m.freeSpaceNode right).start = start + sizeInBytes := hstart
  have hd := hf.detach hmem
  have hcov : ∀ a, coverage [⟨start, (m.freeSpaceNode right).sizeInBytes + sizeInBytes⟩] a +
        coverage (m.detach right).freeRegions a =
      coverage [⟨start, sizeInBytes⟩] a + coverage m.freeRegions a := by
    intro a
    have hcut : coverage [⟨start, (m.freeSpaceNode right).sizeInBytes + sizeInBytes⟩] a =
        coverage [⟨start, sizeInBytes⟩] a + coverage [(m.freeSpaceNode right).region] a := by
      rw [add_comm, coverage_cut, ← hstart']
      rfl
    rw [coverage_detach hmem, hcut]
    omega
  have hgrown : 0 < (m.freeSpaceNode right).sizeInBytes + sizeInBytes := by omega
  have hend : start + ((m.freeSpaceNode right).sizeInBytes + sizeInBytes) =
      (m.freeSpaceNode right).region.stop := by
    change _ = (m.freeSpaceNode right).start + (m.freeSpaceNode right).sizeInBytes
    omega
  have heq : m.addFreeSpace start sizeInBytes = (m.detach right).attach right
      ⟨start, (m.freeSpaceNode right).sizeInBytes + sizeInBytes⟩ := by
    rw [← moveStart_eq hf.toIndexed hmem hend
      (hd.no_entry hgrown fun a => by rw [hcov]; exact hdisjoint a).1, hstart']
    simp only [addFreeSpace, hleft, hright]
  rw [heq]
  refine gains_attach hd (detach_sameAccounts m right)
    (not_mem_freeNodes_detach hf.toIndexed hmem) (hf.fresh right hmem) hgrown hdisjoint hcov
    fun node h => ?_
  have h' := ((mem_freeNodes_detach hf.toIndexed hmem).mp h).1
  refine ⟨keyed_ne hf.ends hleft node h', ?_⟩
  rw [stop, hend]
  exact hf.apart right hmem node h'

theorem gains_both {left right : Nat} (hleft : m.freeSpaceEndAddressMap start = some left)
    (hright : m.freeSpaceStartAddressMap (start + sizeInBytes) = some right) :
    Gains m (m.addFreeSpace start sizeInBytes) ⟨start, sizeInBytes⟩ := by
  obtain ⟨hmem, hstop⟩ := (hf.ends _ _).mp hleft
  obtain ⟨hmem', hstart⟩ := (hf.starts _ _).mp hright
  have hstop' : (m.freeSpaceNode left).start + (m.freeSpaceNode left).sizeInBytes = start := hstop
  have hstart' : (m.freeSpaceNode right).start = start + sizeInBytes := hstart
  have hne : right ≠ left := by
    rintro rfl
    omega
  have hl := hf.detach hmem
  have hmemr : right ∈ (m.detach left).freeNodes :=
    (mem_freeNodes_detach hf.toIndexed hmem).mpr ⟨hmem', hne⟩
  have hd := hl.detach hmemr
  have hcov : ∀ a, coverage [⟨(m.freeSpaceNode left).start,
      (m.freeSpaceNode left).sizeInBytes + (sizeInBytes + (m.freeSpaceNode right).sizeInBytes)⟩] a +
        coverage ((m.detach left).detach right).freeRegions a =
      coverage [⟨start, sizeInBytes⟩] a + coverage m.freeRegions a := by
    intro a
    have hcut : coverage [⟨(m.freeSpaceNode left).start, (m.freeSpaceNode left).sizeInBytes +
        (sizeInBytes + (m.freeSpaceNode right).sizeInBytes)⟩] a =
        coverage [(m.freeSpaceNode left).region] a + (coverage [⟨start, sizeInBytes⟩] a +
          coverage [(m.freeSpaceNode right).region] a) := by
      rw [coverage_cut, hstop', coverage_cut, ← hstart']
      rfl
    have hr := coverage_detach hmemr a
    change _ = coverage [(m.freeSpaceNode right).region] a + _ at hr
    rw [coverage_detach hmem, hcut, hr]
    omega
  have hgrown : 0 < (m.freeSpaceNode left).sizeInBytes +
      (sizeInBytes + (m.freeSpaceNode right).sizeInBytes) := by omega
  have hend : (m.freeSpaceNode left).start + ((m.freeSpaceNode left).sizeInBytes +
      (sizeInBytes + (m.freeSpaceNode right).sizeInBytes)) =
      start + sizeInBytes + (m.freeSpaceNode right).sizeInBytes := by omega
  have heq : m.addFreeSpace start sizeInBytes = ((m.detach left).detach right).attach left
      ⟨(m.freeSpaceNode left).start, (m.freeSpaceNode left).sizeInBytes +
        (sizeInBytes + (m.freeSpaceNode right).sizeInBytes)⟩ := by
    have hnone := (hd.no_entry hgrown fun a => by rw [hcov]; exact hdisjoint a).2
    simp only [Region.stop, hend] at hnone
    simp only [addFreeSpace, hleft, hright]
    apply MetaAllocator.ext
    · rfl
    · rfl
    · rfl
    · rfl
    · simp [addEnd, insertBySize, setNode, removeEnd, removeStart, removeBySize, attach, detach]
    · change removeEntry m.freeSpaceStartAddressMap (start + sizeInBytes) =
        update (removeEntry (removeEntry m.freeSpaceStartAddressMap
          (m.freeSpaceNode left).start) (m.freeSpaceNode right).start)
          (m.freeSpaceNode left).start (some left)
      have hne' : (m.freeSpaceNode right).start ≠ (m.freeSpaceNode left).start := by omega
      unfold removeEntry
      rw [update_comm hne'.symm, update_update_of_eq_some, hstart']
      rw [update_of_ne hne'.symm]
      exact start_entry hf.toIndexed hmem
    · have hends : ((m.detach left).detach right).freeSpaceEndAddressMap =
          removeEntry (removeEntry m.freeSpaceEndAddressMap
            ((m.freeSpaceNode left).start + (m.freeSpaceNode left).sizeInBytes))
            (start + sizeInBytes + (m.freeSpaceNode right).sizeInBytes) := by
        rw [← hstart']
        rfl
      change addEntry (removeEntry (removeEntry m.freeSpaceEndAddressMap
            ((m.freeSpaceNode left).start + (m.freeSpaceNode left).sizeInBytes))
            (start + sizeInBytes + (m.freeSpaceNode right).sizeInBytes)) _ left =
        update ((m.detach left).detach right).freeSpaceEndAddressMap
          ((m.freeSpaceNode left).start + ((m.freeSpaceNode left).sizeInBytes +
            (sizeInBytes + (m.freeSpaceNode right).sizeInBytes))) (some left)
      rw [hend, ← hends]
      exact addEntry_of_none hnone left
    · rfl
    · rfl
    · rfl
    · rfl
  rw [heq]
  refine gains_attach hd
    ((detach_sameAccounts m left).trans (detach_sameAccounts (m.detach left) right))
    (fun h => not_mem_freeNodes_detach hf.toIndexed hmem
      ((mem_freeNodes_detach hl.toIndexed hmemr).mp h).1)
    (hf.fresh left hmem) hgrown hdisjoint hcov fun node h => ?_
  have h' := ((mem_freeNodes_detach hf.toIndexed hmem).mp
    ((mem_freeNodes_detach hl.toIndexed hmemr).mp h).1).1
  refine ⟨hf.apart node h' left hmem, ?_⟩
  have happart := hf.apart right hmem' node h'
  change (m.freeSpaceNode right).start + (m.freeSpaceNode right).sizeInBytes ≠ _ at happart
  rw [hstart'] at happart
  rw [stop, hend]
  exact happart

theorem gains_addFreeSpace : Gains m (m.addFreeSpace start sizeInBytes) ⟨start, sizeInBytes⟩ := by
  cases hleft : m.freeSpaceEndAddressMap start with
  | none =>
    cases hright : m.freeSpaceStartAddressMap (start + sizeInBytes) with
    | none => exact gains_new hf hsize hdisjoint hleft hright
    | some right => exact gains_right hf hsize hdisjoint hleft hright
  | some left =>
    cases hright : m.freeSpaceStartAddressMap (start + sizeInBytes) with
    | none => exact gains_left hf hsize hdisjoint hleft hright
    | some right => exact gains_both hf hsize hdisjoint hleft hright

end Add

/-- What a change of the free space keeps, and that it takes these addresses. -/
structure Loses (m m' : MetaAllocator) (r : Region) : Prop where
  freeSpace : m'.FreeSpace
  accounts : SameAccounts m m'
  coverage : ∀ a, coverage m.freeRegions a = coverage [r] a + coverage m'.freeRegions a

section Take

variable (hf : m.FreeSpace) (hmem : node ∈ m.freeNodes)

include hf hmem

theorem loses_detach : Loses m (m.detach node) (m.freeSpaceNode node).region where
  freeSpace := hf.detach hmem
  accounts := detach_sameAccounts m node
  coverage := coverage_detach hmem

theorem loses_attach {taken rest : Region} (hrest : 0 < rest.size)
    (hcut : ∀ a, coverage [(m.freeSpaceNode node).region] a = coverage [taken] a + coverage [rest] a)
    (hapart : ∀ node' ∈ (m.detach node).freeNodes,
      ((m.detach node).freeSpaceNode node').region.stop ≠ rest.start ∧
        rest.stop ≠ ((m.detach node).freeSpaceNode node').region.start) :
    Loses m ((m.detach node).attach node rest) taken := by
  have hnode := not_mem_freeNodes_detach hf.toIndexed hmem
  refine ⟨(hf.detach hmem).attach hnode (hf.fresh node hmem) hrest (fun a => ?_) hapart,
    (detach_sameAccounts m node).trans (attach_sameAccounts _ node rest), fun a => ?_⟩
  · have hle := hf.disjoint a
    rw [coverage_detach hmem, hcut] at hle
    omega
  · rw [freeRegions_attach rest hnode, coverage_cons' rest, coverage_detach hmem, hcut]
    omega

theorem region_apart {node' : Nat} (hmem' : node' ∈ (m.detach node).freeNodes) :
    (m.freeSpaceNode node).region.Apart (m.freeSpaceNode node').region := by
  intro b hb hb'
  have hle := hf.disjoint b
  have hpos : 0 < coverage (m.detach node).freeRegions b :=
    coverage_pos_of_mem (List.mem_map_of_mem hmem') hb'
  rw [coverage_detach hmem, coverage_singleton, if_pos hb] at hle
  omega

theorem not_touching {node' a : Nat} (hmem' : node' ∈ (m.detach node).freeNodes)
    (hstart : (m.freeSpaceNode node).region.start < a)
    (hstop : a < (m.freeSpaceNode node).region.stop) :
    (m.freeSpaceNode node').region.stop ≠ a ∧ (m.freeSpaceNode node').region.start ≠ a := by
  have hone := region_apart hf hmem hmem'
  have hpos := hf.nonempty node' ((mem_freeNodes_detach hf.toIndexed hmem).mp hmem').1
  constructor <;> rintro rfl
  · refine hone _ ?_ (contains_last hpos)
    unfold Region.Contains
    omega
  · exact hone _ ⟨le_of_lt hstart, hstop⟩ (contains_start hpos)

theorem no_entry_of_cut {taken rest : Region} (hrest : 0 < rest.size)
    (hcut : ∀ a, coverage [(m.freeSpaceNode node).region] a = coverage [taken] a + coverage [rest] a) :
    (m.detach node).freeSpaceStartAddressMap rest.start = none ∧
      (m.detach node).freeSpaceEndAddressMap rest.stop = none := by
  refine (hf.detach hmem).no_entry hrest fun a => ?_
  have hle := hf.disjoint a
  rw [coverage_detach hmem, hcut] at hle
  omega

theorem loses_findAndRemoveFreeSpace (hsize : 0 < sizeInBytes)
    (hle : sizeInBytes ≤ (m.freeSpaceNode node).sizeInBytes) :
    Loses m (m.findAndRemoveFreeSpace sizeInBytes (some node)).1
      ⟨(m.findAndRemoveFreeSpace sizeInBytes (some node)).2, sizeInBytes⟩ := by
  have hreg : (m.freeSpaceNode node).region.stop =
      (m.freeSpaceNode node).start + (m.freeSpaceNode node).sizeInBytes := rfl
  have happart := fun node' h' =>
    hf.apart node hmem node' ((mem_freeNodes_detach hf.toIndexed hmem).mp h').1
  have happart' := fun node' h' =>
    hf.apart node' ((mem_freeNodes_detach hf.toIndexed hmem).mp h').1 node hmem
  unfold findAndRemoveFreeSpace
  dsimp only
  split
  · rename_i heq
    rw [← heq]
    exact loses_detach hf hmem
  · have hrest : 0 < (m.freeSpaceNode node).sizeInBytes - sizeInBytes := by omega
    split
    · have hcut : ∀ a, coverage [(m.freeSpaceNode node).region] a =
          coverage [⟨(m.freeSpaceNode node).start, sizeInBytes⟩] a +
            coverage [⟨(m.freeSpaceNode node).start + sizeInBytes,
              (m.freeSpaceNode node).sizeInBytes - sizeInBytes⟩] a := by
        intro a
        rw [← coverage_cut, Nat.add_sub_cancel' hle]
        rfl
      have hend : (m.freeSpaceNode node).start + sizeInBytes +
          ((m.freeSpaceNode node).sizeInBytes - sizeInBytes) =
          (m.freeSpaceNode node).region.stop := by omega
      rw [moveStart_eq hf.toIndexed hmem hend (no_entry_of_cut hf hmem hrest hcut).1]
      refine loses_attach hf hmem hrest hcut fun node' h' => ⟨?_, ?_⟩
      · refine (not_touching hf hmem h' ?_ ?_).1
        · exact Nat.lt_add_of_pos_right hsize
        · change (m.freeSpaceNode node).start + sizeInBytes < _
          omega
      · rw [stop, hend]
        exact happart node' h'
    · have hcut : ∀ a, coverage [(m.freeSpaceNode node).region] a =
          coverage [⟨(m.freeSpaceNode node).start + (m.freeSpaceNode node).sizeInBytes - sizeInBytes,
            sizeInBytes⟩] a + coverage [⟨(m.freeSpaceNode node).start,
              (m.freeSpaceNode node).sizeInBytes - sizeInBytes⟩] a := by
        intro a
        rw [add_comm, Nat.add_sub_assoc hle, ← coverage_cut, Nat.sub_add_cancel hle]
        rfl
      have hnone := (no_entry_of_cut hf hmem hrest hcut).2
      have hend : (m.freeSpaceNode node).start + ((m.freeSpaceNode node).sizeInBytes - sizeInBytes) =
          (m.freeSpaceNode node).start + (m.freeSpaceNode node).sizeInBytes - sizeInBytes := by
        omega
      have heq := moveEnd_eq hf.toIndexed hmem hnone
      rw [hend, hreg] at heq
      rw [heq]
      refine loses_attach hf hmem hrest hcut fun node' h' => ⟨happart' node' h', ?_⟩
      refine (not_touching hf hmem h' ?_ ?_).2.symm
      · exact Nat.lt_add_of_pos_right hrest
      · change (m.freeSpaceNode node).start + ((m.freeSpaceNode node).sizeInBytes - sizeInBytes) < _
        omega

end Take

end MetaAllocator

end WebKit.WTF
