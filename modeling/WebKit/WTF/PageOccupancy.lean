import WebKit.WTF.FreeSpaceSpec
import WebKit.Counting.Tally

/-!
# Counting pages

`Occupied m refs` says that the page map counts the pages in `refs`, one reference for each
handle that uses the page, and that the committed bytes are those of the different pages.
Incrementing and decrementing page by page adds and drops references
(`occupied_incrementPageOccupancy`, `occupied_decrementPageOccupancy`). The pages of a
region are those of its two parts when it is cut at the first page boundary that is not
below the cut (`pages_cut`), which is what a handle releases when it shrinks to a smaller
size that is not zero.
-/

namespace WebKit.WTF

open Tiling Counting List

namespace MetaAllocator

variable {m m' : MetaAllocator} {refs refs' : List Nat} {page address sizeInBytes : Nat}

/-- The page map and the committed bytes count these references. -/
structure Occupied (m : MetaAllocator) (refs : List Nat) : Prop where
  tallies : Tallies m.pageOccupancyMap refs
  committed : m.bytesCommitted = m.pageSize * keyCount refs

/-- Nothing but the page counts has changed. -/
def SameSpace (m m' : MetaAllocator) : Prop :=
  ∃ f bytes, m' = { m with pageOccupancyMap := f, bytesCommitted := bytes }

theorem SameSpace.refl (m : MetaAllocator) : SameSpace m m := ⟨_, _, rfl⟩

theorem SameSpace.trans {m1 m2 m3 : MetaAllocator} (h : SameSpace m1 m2)
    (h' : SameSpace m2 m3) : SameSpace m1 m3 := by
  obtain ⟨f, bytes, rfl⟩ := h
  obtain ⟨f', bytes', rfl⟩ := h'
  exact ⟨f', bytes', rfl⟩

theorem Occupied.perm (h : m.Occupied refs) (hp : refs.Perm refs') : m.Occupied refs' where
  tallies := h.tallies.perm hp
  committed := by rw [h.committed, keyCount_perm hp]

theorem SameAccounts.occupied (h : SameAccounts m m') (ho : m.Occupied refs) :
    m'.Occupied refs where
  tallies := by
    rw [h.pageOccupancyMap]
    exact ho.tallies
  committed := by
    rw [h.bytesCommitted, ho.committed]
    unfold pageSize
    rw [h.logPageSize]

theorem occupied_incrementPage (h : m.Occupied refs) (page : Nat) :
    (m.incrementPage page).Occupied (page :: refs) ∧ SameSpace m (m.incrementPage page) := by
  unfold incrementPage
  by_cases hpage : page ∈ refs
  · rw [h.tallies.eq_some hpage]
    refine ⟨⟨h.tallies.add page, ?_⟩, ⟨_, _, rfl⟩⟩
    rw [keyCount_cons_of_mem hpage]
    exact h.committed
  · rw [h.tallies.eq_none.mpr hpage]
    refine ⟨⟨?_, ?_⟩, ⟨_, _, rfl⟩⟩
    · have hadd := h.tallies.add page
      rw [count_eq_zero.mpr hpage] at hadd
      exact hadd
    · rw [keyCount_cons_of_not_mem hpage]
      change m.bytesCommitted + m.pageSize = m.pageSize * (keyCount refs + 1)
      rw [h.committed, Nat.mul_succ]

theorem occupied_decrementPage (h : m.Occupied (page :: refs)) :
    ∃ m', m.decrementPage page = some m' ∧ m'.Occupied refs ∧ SameSpace m m' := by
  have hcount : m.pageOccupancyMap page = some (refs.count page + 1) := by
    rw [h.tallies.eq_some mem_cons_self, count_cons_self]
  unfold decrementPage
  rw [hcount]
  refine ⟨_, rfl, ?_⟩
  dsimp only
  rw [Nat.add_sub_cancel]
  by_cases hpage : page ∈ refs
  · have hne : refs.count page ≠ 0 := fun hz => count_eq_zero.mp hz hpage
    rw [if_neg hne]
    refine ⟨⟨h.tallies.drop hpage, ?_⟩, ⟨_, _, rfl⟩⟩
    have hcommit := h.committed
    rw [keyCount_cons_of_mem hpage] at hcommit
    exact hcommit
  · rw [if_pos (count_eq_zero.mpr hpage)]
    refine ⟨⟨h.tallies.remove hpage, ?_⟩, ⟨_, _, rfl⟩⟩
    have hcommit := h.committed
    rw [keyCount_cons_of_not_mem hpage, Nat.mul_succ] at hcommit
    change m.bytesCommitted - m.pageSize = m.pageSize * keyCount refs
    omega

theorem occupied_foldl_incrementPage (h : m.Occupied refs) (ps : List Nat) :
    (ps.foldl incrementPage m).Occupied (ps ++ refs) ∧ SameSpace m (ps.foldl incrementPage m) := by
  induction ps generalizing m refs with
  | nil => exact ⟨h, SameSpace.refl m⟩
  | cons page ps ih =>
    obtain ⟨h1, hs1⟩ := occupied_incrementPage h page
    obtain ⟨h2, hs2⟩ := ih h1
    exact ⟨h2.perm perm_middle, hs1.trans hs2⟩

theorem occupied_incrementPageOccupancy (h : m.Occupied refs) (address sizeInBytes : Nat) :
    (m.incrementPageOccupancy address sizeInBytes).Occupied (m.pages address sizeInBytes ++ refs) ∧
      SameSpace m (m.incrementPageOccupancy address sizeInBytes) :=
  occupied_foldl_incrementPage h _

theorem occupied_foldlM_decrementPage {ps : List Nat} (h : m.Occupied (ps ++ refs)) :
    ∃ m', ps.foldlM decrementPage m = some m' ∧ m'.Occupied refs ∧ SameSpace m m' := by
  induction ps generalizing m with
  | nil => exact ⟨m, rfl, h, SameSpace.refl m⟩
  | cons page ps ih =>
    obtain ⟨m1, hm1, h1, hs1⟩ := occupied_decrementPage h
    obtain ⟨m2, hm2, h2, hs2⟩ := ih h1
    refine ⟨m2, ?_, h2, hs1.trans hs2⟩
    rw [foldlM_cons, hm1]
    exact hm2

theorem pageSize_pos (m : MetaAllocator) : 0 < m.pageSize := by
  unfold pageSize
  rw [Nat.one_shiftLeft]
  exact Nat.two_pow_pos _

theorem shiftRight_logPageSize (m : MetaAllocator) (x : Nat) :
    x >>> m.logPageSize = x / m.pageSize := by
  rw [Nat.shiftRight_eq_div_pow, pageSize, Nat.one_shiftLeft]

theorem clearLowBits_eq (bits x : Nat) : clearLowBits bits x = x / 2 ^ bits * 2 ^ bits := by
  rw [clearLowBits, Nat.shiftRight_eq_div_pow, Nat.shiftLeft_eq]

theorem pages_eq (m : MetaAllocator) (address sizeInBytes : Nat) :
    m.pages address sizeInBytes = range' (address / m.pageSize)
      ((address + sizeInBytes - 1) / m.pageSize + 1 - address / m.pageSize) := by
  unfold pages
  simp only [shiftRight_logPageSize]

theorem mem_pages_iff_le : page ∈ m.pages address sizeInBytes ↔
      address / m.pageSize ≤ page ∧ page ≤ (address + sizeInBytes - 1) / m.pageSize := by
  rw [pages_eq, mem_range'_1]
  omega

theorem mem_pages (hsize : 0 < sizeInBytes) : page ∈ m.pages address sizeInBytes ↔
      ∃ a, (⟨address, sizeInBytes⟩ : Region).Contains a ∧ a / m.pageSize = page := by
  have hpos := m.pageSize_pos
  unfold Region.Contains Region.stop
  dsimp only
  rw [mem_pages_iff_le]
  constructor
  · rintro ⟨hfirst, hlast⟩
    have hlast' := (Nat.le_div_iff_mul_le hpos).mp hlast
    have hfirst' : address < (page + 1) * m.pageSize :=
      (Nat.div_lt_iff_lt_mul hpos).mp (Nat.lt_succ_of_le hfirst)
    refine ⟨max address (page * m.pageSize), ⟨by omega, by omega⟩, ?_⟩
    rw [Nat.div_eq_iff hpos]
    rw [Nat.succ_mul] at hfirst'
    omega
  · rintro ⟨a, ⟨hstart, hstop⟩, rfl⟩
    exact ⟨Nat.div_le_div_right hstart, Nat.div_le_div_right (by omega)⟩

/-- The first page boundary that is not below `x + 1` belongs to the page after that of `x`. -/
theorem boundary_after (m : MetaAllocator) {x : Nat} (hx : 0 < x) :
    clearLowBits m.logPageSize (x + m.pageSize - 1) = ((x - 1) / m.pageSize + 1) * m.pageSize := by
  have hadd : x + m.pageSize - 1 = x - 1 + m.pageSize := by omega
  have hsize : 2 ^ m.logPageSize = m.pageSize := by rw [pageSize, Nat.one_shiftLeft]
  rw [clearLowBits_eq, hsize, hadd, Nat.add_div_right _ m.pageSize_pos]

theorem pages_cut (m : MetaAllocator) (address : Nat) {kept : Nat} (hkept : 0 < kept)
    (hle : kept ≤ sizeInBytes) : m.pages address sizeInBytes = m.pages address kept ++
      if clearLowBits m.logPageSize (address + kept + m.pageSize - 1) < address + sizeInBytes then
        m.pages (clearLowBits m.logPageSize (address + kept + m.pageSize - 1))
          (address + sizeInBytes - clearLowBits m.logPageSize (address + kept + m.pageSize - 1))
      else [] := by
  have hpos := m.pageSize_pos
  rw [m.boundary_after (by omega : 0 < address + kept)]
  have hfirst : address / m.pageSize ≤ (address + kept - 1) / m.pageSize :=
    Nat.div_le_div_right (by omega)
  have hlast : (address + kept - 1) / m.pageSize ≤ (address + sizeInBytes - 1) / m.pageSize :=
    Nat.div_le_div_right (by omega)
  split
  · rename_i hlt
    rw [pages_eq, pages_eq, pages_eq, Nat.mul_div_cancel _ hpos, Nat.add_sub_cancel' hlt.le]
    have hsplit : (address + sizeInBytes - 1) / m.pageSize + 1 - address / m.pageSize =
        ((address + kept - 1) / m.pageSize + 1 - address / m.pageSize) +
          ((address + sizeInBytes - 1) / m.pageSize + 1 -
            ((address + kept - 1) / m.pageSize + 1)) := by omega
    have hstart : (address + kept - 1) / m.pageSize + 1 = address / m.pageSize +
        ((address + kept - 1) / m.pageSize + 1 - address / m.pageSize) := by omega
    rw [hsplit, ← range'_append_1]
    congr 2
    exact hstart.symm
  · have hsame : (address + sizeInBytes - 1) / m.pageSize = (address + kept - 1) / m.pageSize := by
      refine le_antisymm ?_ hlast
      by_contra hlt
      have hnext : ((address + kept - 1) / m.pageSize + 1) * m.pageSize ≤
          address + sizeInBytes - 1 :=
        (Nat.le_div_iff_mul_le hpos).mp (Nat.lt_of_not_le hlt)
      omega
    rw [pages_eq, pages_eq, hsame, append_nil]

theorem le_boundary (m : MetaAllocator) {x : Nat} (hx : 0 < x) :
    x ≤ clearLowBits m.logPageSize (x + m.pageSize - 1) := by
  rw [m.boundary_after hx]
  have hdiv := Nat.div_add_mod' (x - 1) m.pageSize
  have hmod := Nat.mod_lt (x - 1) m.pageSize_pos
  rw [add_mul, one_mul]
  omega

theorem boundary_of_aligned (haligned : address % m.pageSize = 0) :
    clearLowBits m.logPageSize (address + m.pageSize - 1) = address := by
  have hpos := m.pageSize_pos
  have hsize : 2 ^ m.logPageSize = m.pageSize := by rw [pageSize, Nat.one_shiftLeft]
  rw [clearLowBits_eq, hsize]
  obtain ⟨k, rfl⟩ := Nat.dvd_of_mod_eq_zero haligned
  have hdiv : (m.pageSize * k + m.pageSize - 1) / m.pageSize = k := by
    rw [Nat.div_eq_iff hpos]
    rw [mul_comm k]
    omega
  rw [hdiv, mul_comm]

theorem allocationGranule_pos (m : MetaAllocator) : 0 < m.allocationGranule := by
  unfold allocationGranule
  rw [Nat.one_shiftLeft]
  exact Nat.two_pow_pos _

theorem roundUp_spec {x rounded : Nat} (h : m.roundUp x = some rounded) :
    m.allocationGranule ∣ rounded ∧ x ≤ rounded ∧
      ∀ y, m.allocationGranule ∣ y → x ≤ y → rounded ≤ y := by
  have hpos := m.allocationGranule_pos
  have hsize : 2 ^ m.logAllocationGranule = m.allocationGranule := by
    rw [allocationGranule, Nat.one_shiftLeft]
  unfold roundUp at h
  split at h
  · cases h
  · obtain rfl := Option.some.inj h
    rw [clearLowBits_eq, hsize]
    refine ⟨Nat.dvd_mul_left _ _, ?_, ?_⟩
    · have hdiv := Nat.div_add_mod' (x + m.allocationGranule - 1) m.allocationGranule
      have hmod := Nat.mod_lt (x + m.allocationGranule - 1) hpos
      omega
    · rintro y ⟨k, rfl⟩ hle
      rw [mul_comm m.allocationGranule k]
      refine Nat.mul_le_mul_right _ (Nat.le_of_lt_succ ?_)
      rw [Nat.div_lt_iff_lt_mul hpos, Nat.succ_mul, mul_comm k]
      omega

end MetaAllocator

end WebKit.WTF
