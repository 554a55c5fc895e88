import Mathlib.Data.List.Nodup
import WebKit.Bmalloc.LargeHeap
import WebKit.Bmalloc.LineMetadata

/-!
# What the operations of the heaps allocate and free

One lemma per operation of `LargeHeap`, on any heap that satisfies the invariant: an
allocation makes one free block allocated (`allocateLarge_spec`,
`allocateLargeAligned_spec`), a deallocation frees one (`deallocateLarge_spec`), and the
scavenger does both in its two halves (`scavengeBegin_spec`, `scavengeEnd_spec`).
-/

open List

namespace WebKit.Bmalloc

open Tiling LargeObject SegregatedFreeList LargeHeap LargeChunk SameAllocated Option

variable {h : LargeHeap} {layout layout' : Layout} {held : List Nat} {a s size chunk : Nat}
  {x : Block} {owner : Owner} {test : Tags → LargeObject → Bool}

/-- One free block became allocated. -/
structure Allocates (layout : Layout) (chunks : List Nat) (address : Nat) (y : Block)
    (layout' : Layout) (chunks' : List Nat) : Prop where
  notFree : y.isFree = false
  has : ∀ b z, z.isFree = false →
    (layout'.Has chunks' b z ↔ (b = address ∧ z = y) ∨ layout.Has chunks b z)
  wasFree : ∀ z, layout.Has chunks address z → z.isFree = true

/-- One allocated block became free. -/
def Frees (layout : Layout) (chunks : List Nat) (address : Nat) (layout' : Layout)
    (chunks' : List Nat) : Prop :=
  ∀ b z, z.isFree = false → (layout'.Has chunks' b z ↔ layout.Has chunks b z ∧ b ≠ address)

theorem Frees.trans {layout'' : Layout} {chunks chunks' chunks'' : List Nat}
    (h1 : Frees layout chunks a layout' chunks')
    (h2 : SameAllocated layout' layout'' chunks' chunks'') :
    Frees layout chunks a layout'' chunks'' :=
  fun b z hz => (h2 b z hz).trans (h1 b z hz)

theorem SameAllocated.allocates {layout'' : Layout} {chunks chunks' chunks'' : List Nat}
    {y : Block} (h1 : SameAllocated layout layout' chunks chunks')
    (h2 : Allocates layout' chunks' a y layout'' chunks'') :
    Allocates layout chunks a y layout'' chunks'' := by
  refine ⟨h2.notFree, fun b z hz => ?_, fun z hz => ?_⟩
  · rw [h2.has b z hz, h1 b z hz]
  · by_contra hnot
    have hfree : z.isFree = false := by simpa using hnot
    exact hnot (h2.wasFree z ((h1 a z hfree).mpr hz))

namespace LargeHeap

namespace Inv

/-! ## Changing the block that is held -/

theorem setFree_false (hinv : h.Inv layout [a]) (hx : layout.Has h.chunks a x)
    (hfree : x.isFree = true) :
    ∃ layout', Inv { h with tags := (LargeObject.handle a x.size).setFree h.tags false } layout' [] ∧
      layout'.Has h.chunks a { x with isFree := false } ∧
      Allocates layout h.chunks a { x with isFree := false } layout' h.chunks := by
  obtain ⟨layout', hvalid, hrep⟩ := setFree_spec hinv.valid hx false
  refine ⟨layout', hinv.replaced hvalid hrep ?_ ?_, hrep.has_new, rfl, fun b z hz => ?_,
    fun z hz => ?_⟩
  · intro b z hz hzfree
    obtain ⟨rfl, rfl⟩ := Prod.mk.inj (mem_located_singleton.mp hz)
    simp at hzfree
  · intro b hb
    obtain rfl := mem_singleton.mp hb
    exact .inr ⟨x, mem_singleton.mpr rfl⟩
  · rw [hrep.new, mem_located_singleton, mem_located_singleton, Prod.mk.injEq, Prod.mk.injEq]
    refine or_congr_right ⟨And.left, fun hhas => ⟨hhas, ?_⟩⟩
    rintro ⟨rfl, rfl⟩
    rw [hfree] at hz
    simp at hz
  · rwa [hinv.valid.unique_begin hz hx]

theorem setFree_true (hinv : h.Inv layout []) (hx : layout.Has h.chunks a x) :
    ∃ layout', Inv { h with tags := (LargeObject.handle a x.size).setFree h.tags true } layout' [a] ∧
      layout'.Has h.chunks a { x with isFree := true } ∧
      Frees layout h.chunks a layout' h.chunks := by
  obtain ⟨layout', hvalid, hrep⟩ := setFree_spec hinv.valid hx true
  refine ⟨layout', hinv.replaced hvalid hrep ?_ (by simp), hrep.has_new, fun b z hz => ?_⟩
  · intro b z hz _
    obtain ⟨rfl, rfl⟩ := Prod.mk.inj (mem_located_singleton.mp hz)
    exact mem_singleton.mpr rfl
  · rw [hrep.new, mem_located_singleton, mem_located_singleton, Prod.mk.injEq, Prod.mk.injEq]
    constructor
    · rintro (⟨rfl, rfl⟩ | ⟨hhas, hne⟩)
      · simp at hz
      · exact ⟨hhas, fun heq => hne ⟨heq, hinv.valid.unique_begin (heq ▸ hhas) hx⟩⟩
    · rintro ⟨hhas, hne⟩
      exact .inr ⟨hhas, fun heq => hne heq.1⟩

section

variable (hinv : h.Inv layout [a]) (hx : layout.Has h.chunks a x) (hfree : x.isFree = true)
include hinv hx hfree

theorem setOwner (owner : Owner) : ∃ layout',
      Inv { h with tags := (LargeObject.handle a x.size).setOwner h.tags owner } layout' [a] ∧
      layout'.Has h.chunks a { x with owner } ∧
      SameAllocated layout layout' h.chunks h.chunks := by
  obtain ⟨layout', hvalid, hrep⟩ := setOwner_spec hinv.valid hx owner
  refine ⟨layout', hinv.replaced hvalid hrep ?_ ?_, hrep.has_new,
    hrep.sameAllocated (by simpa using hfree) (by simpa using hfree)⟩
  · intro b z hz _
    obtain ⟨rfl, rfl⟩ := Prod.mk.inj (mem_located_singleton.mp hz)
    exact mem_singleton.mpr rfl
  · exact fun b hb => .inl hb

theorem merge : ∃ A y tags' layout',
      (LargeObject.handle a x.size).merge h.tags = (LargeObject.handle A y.size, tags') ∧
      Inv { h with tags := tags' } layout' [A] ∧ layout'.Has h.chunks A y ∧ y.isFree = true ∧
      y.owner = x.owner ∧ SameAllocated layout layout' h.chunks h.chunks := by
  obtain ⟨A, mid, y, tags', layout', hyfree, howner, hmem, hmid, hmerge, hvalid, hrep⟩ :=
    merge_spec hinv.valid hx
  have hallfree : ∀ z ∈ mid, z.isFree = true := by
    intro z hz
    rcases hmid z hz with rfl | hz
    · exact hfree
    · exact hz.1
  refine ⟨A, y, tags', layout', hmerge, hinv.replaced hvalid hrep ?_ ?_, hrep.has_new, hyfree,
    howner, hrep.sameAllocated hallfree (by simpa using hyfree)⟩
  · intro b z hz _
    obtain ⟨rfl, rfl⟩ := Prod.mk.inj (mem_located_singleton.mp hz)
    exact mem_singleton.mpr rfl
  · intro b hb
    obtain rfl := mem_singleton.mp hb
    exact .inr ⟨x, hmem⟩

theorem split
    (hmin : largeMin ≤ s) (haligned : largeAlignment ∣ s) (hrest : s + largeMin ≤ x.size) :
    ∃ tags' layout', (handle a x.size).split h.tags s =
        (handle a s, handle (a + s) (x.size - s), tags') ∧
      (∀ held', a ∈ held' → a + s ∈ held' → Inv { h with tags := tags' } layout' held') ∧
      layout'.Has h.chunks a { x with size := s } ∧
      layout'.Has h.chunks (a + s) { x with size := x.size - s } ∧
      SameAllocated layout layout' h.chunks h.chunks := by
  obtain ⟨tags', layout', hsplit, hvalid, hrep⟩ := split_spec hinv.valid hx hmin haligned hrest
  refine ⟨tags', layout', hsplit, fun held' h1 h2 => hinv.replaced hvalid hrep ?_ ?_,
    hrep.has_new, ?_, hrep.sameAllocated (by simpa using hfree) (by simpa using hfree)⟩
  · intro b z hz _
    simp only [located, mem_cons, Prod.mk.injEq, not_mem_nil, or_false] at hz
    rcases hz with ⟨rfl, _⟩ | ⟨rfl, _⟩
    · exact h1
    · exact h2
  · intro b hb
    obtain rfl := mem_singleton.mp hb
    exact .inl h1
  · rw [hrep.new]
    exact .inl (by simp [located])

end

theorem size_handle (hinv : h.Inv layout held) (hx : layout.Has h.chunks a x) :
    (LargeObject.handle a x.size).size h.tags = x.size := by
  obtain ⟨isMarked, hbegin⟩ := (hinv.valid.tagged hx).begin_tag
  simp [LargeObject.size, LargeObject.handle, hbegin, Block.tag]

section

variable (hinv : h.Inv layout [a]) (hx : layout.Has h.chunks a x) (hfree : x.isFree = true)
include hinv hx hfree

theorem splitLeftover (howner : x.owner = owner) (hmin : largeMin ≤ s)
    (haligned : largeAlignment ∣ s) (hle : s ≤ x.size) :
    ∃ y h' layout', h.splitLeftover owner (handle a x.size) s =
        (handle a y.size, h') ∧ h'.Inv layout' [a] ∧ h'.chunks = h.chunks ∧
      layout'.Has h.chunks a y ∧ y.isFree = true ∧ y.owner = owner ∧ s ≤ y.size ∧
      SameAllocated layout layout' h.chunks h.chunks := by
  rw [LargeHeap.splitLeftover, hinv.size_handle hx]
  split
  · obtain ⟨tags', layout', hsplit, hinv', hfirst, hsnd, hsame⟩ :=
      hinv.split hx hfree hmin haligned (show s + largeMin ≤ x.size by omega)
    have hheld := hinv' [a + s, a] (by simp) (by simp)
    obtain ⟨hins, hchunks, _⟩ := hheld.insert hsnd howner
    rw [hsplit]
    exact ⟨{ x with size := s }, _, layout', rfl, hins, hchunks, hfirst, hfree, howner, le_rfl,
      hsame⟩
  · exact ⟨x, h, layout, rfl, hinv, rfl, hx, hfree, howner, hle, refl⟩

theorem vmAllocateObject (howner : x.owner = .vmHeap) (hmin : largeMin ≤ s)
    (haligned : largeAlignment ∣ s) (hle : s ≤ x.size) :
    ∃ y h' layout', h.vmAllocateObject (handle a x.size) s =
        (handle a y.size, h') ∧ h'.Inv layout' [a] ∧ h'.chunks = h.chunks ∧
      layout'.Has h.chunks a y ∧ y.isFree = true ∧ y.owner = .heap ∧ s ≤ y.size ∧
      SameAllocated layout layout' h.chunks h.chunks := by
  obtain ⟨y, h1, layout1, hsplit, hinv1, hchunks, hy, hyfree, _, hsize, hsame⟩ :=
    hinv.splitLeftover hx hfree howner hmin haligned hle
  rw [← hchunks] at hy
  obtain ⟨layout2, hinv2, hy2, hsame2⟩ := hinv1.setOwner hy hyfree .heap
  refine ⟨{ y with owner := .heap }, _, layout2, ?_, hinv2, hchunks, hchunks ▸ hy2, hyfree, rfl,
    hsize, hsame.trans (hchunks ▸ hsame2)⟩
  rw [LargeHeap.vmAllocateObject, hsplit]
  exact Prod.ext (hinv2.valid.tagged hy2).get_eq rfl

theorem allocateObject (howner : x.owner = .heap) (hmin : largeMin ≤ s)
    (haligned : largeAlignment ∣ s) (hle : s ≤ x.size) :
    ∃ y h' layout', h.allocateObject (handle a x.size) s = (a, h') ∧
      h'.Inv layout' [] ∧ h'.chunks = h.chunks ∧ layout'.Has h.chunks a y ∧ y.owner = .heap ∧
      s ≤ y.size ∧ Allocates layout h.chunks a y layout' h.chunks := by
  obtain ⟨y, h1, layout1, hsplit, hinv1, hchunks, hy, hyfree, hyowner, hsize, hsame⟩ :=
    hinv.splitLeftover hx hfree howner hmin haligned hle
  rw [← hchunks] at hy
  obtain ⟨layout2, hinv2, hy2, halloc⟩ := hinv1.setFree_false hy hyfree
  refine ⟨{ y with isFree := false }, _, layout2, ?_, hinv2, hchunks, hchunks ▸ hy2, hyowner, hsize,
    hsame.allocates (hchunks ▸ halloc)⟩
  rw [LargeHeap.allocateObject, hsplit]
  rfl

end

theorem sane_mono {chunks : List Nat} {r : Range} (hr : Sane chunks r) (chunk : Nat) :
    Sane (chunk :: chunks) r := by
  obtain ⟨haligned, chunk', hmem, hbnd⟩ := hr
  exact ⟨haligned, chunk', mem_cons_of_mem _ hmem, hbnd⟩

theorem grow (hinv : h.Inv layout []) (hchunk : chunk ∉ h.chunks) :
    ∃ layout', (h.grow chunk).Inv layout' [] ∧ (h.grow chunk).chunks = chunk :: h.chunks ∧
      SameAllocated layout layout' h.chunks (chunk :: h.chunks) ∧
      layout'.Has (chunk :: h.chunks) (LargeChunk.begin chunk) (wholeChunk chunk) ∧
      ∃ list, ((h.grow chunk).lists .vmHeap).freeLists[
          SegregatedFreeList.select (wholeChunk chunk).size]? = some list ∧
        list.vector.getLast? = some ⟨LargeChunk.begin chunk, (wholeChunk chunk).size⟩ := by
  obtain ⟨tags', layout', hinit, hvalid, hhas⟩ := init_spec hinv.valid hchunk
  have hnew : layout'.Has (chunk :: h.chunks) (LargeChunk.begin chunk) (wholeChunk chunk) :=
    (hhas _ _).mpr (.inl ⟨rfl, rfl⟩)
  have hheld : Inv { h with tags := tags', chunks := chunk :: h.chunks } layout'
      [LargeChunk.begin chunk] := by
    refine ⟨hvalid, hinv.owner, hinv.count, fun o r hr => sane_mono (hinv.sane o r hr) chunk,
      fun b z hz hfree hb => ?_⟩
    rcases (hhas b z).mp hz with ⟨rfl, _⟩ | hz
    · simp at hb
    · exact hinv.listed b z hz hfree (by simp)
  obtain ⟨hins, hchunks, hlast⟩ := hheld.insert hnew rfl
  have hgrow : h.grow chunk =
      LargeHeap.insert { h with tags := tags', chunks := chunk :: h.chunks } .vmHeap
        (LargeObject.handle (LargeChunk.begin chunk) (wholeChunk chunk).size) := by
    simp only [LargeHeap.grow, hinit]
    rw [(hvalid.tagged hnew).get_eq]
  rw [hgrow]
  refine ⟨layout', hins, hchunks, fun b z hz => ?_, hnew, hlast⟩
  rw [hhas]
  refine or_iff_right ?_
  rintro ⟨_, rfl⟩
  simp [wholeChunk] at hz

/-- The search of the `VMHeap` finds an object if a whole chunk passes the test. -/
theorem vmTake (hinv : h.Inv layout []) (hchunk : chunk ∉ h.chunks) (hselect : select size ≤
      select (wholeChunk chunk).size)
    (hwhole : ∀ tags : Tags, Tagged tags (begin chunk) (wholeChunk chunk) →
      test tags (handle (begin chunk) (wholeChunk chunk).size) = true) :
    ∃ r h' layout', h.vmTake size test chunk = some (handle r.begin r.size, h') ∧
      h'.Inv layout' [r.begin] ∧ IsFreeRange layout' h'.chunks .vmHeap r ∧
      test h'.tags (handle r.begin r.size) = true ∧
      SameAllocated layout layout' h.chunks h'.chunks := by
  obtain ⟨taken, hobj, hchunks, htags, hinv1, hspec, _⟩ := hinv.take .vmHeap size test
  rw [LargeHeap.vmTake, hobj]
  cases taken with
  | some r =>
    obtain ⟨hfree, htest⟩ := hspec r rfl
    refine ⟨r, _, layout, rfl, hinv1, by rwa [hchunks], by rwa [htags], ?_⟩
    exact refl
  | none =>
    obtain ⟨layout2, hinv2, hchunks2, hsame, hnew, list, hlist, hlast⟩ := Inv.grow hinv1 hchunk
    obtain ⟨taken, hobj', hchunks3, htags3, hinv3, hspec', hnone⟩ := hinv2.take .vmHeap size test
    rw [hobj']
    cases taken with
    | some r =>
      obtain ⟨hfree, htest⟩ := hspec' r rfl
      refine ⟨r, _, layout2, rfl, hinv3, by rwa [hchunks3], by rwa [htags3], ?_⟩
      exact hsame
    | none =>
      have htrue := hwhole _ (hinv2.valid.tagged hnew)
      rw [hnone rfl _ list _ hselect hlist hlast hnew] at htrue
      simp at htrue

end Inv

/-! ## Allocating -/

theorem fits_iff {tags : Tags} (hx : Tagged tags a x) :
    FreeList.fits s tags (LargeObject.handle a x.size) = true ↔ s ≤ x.size := by
  obtain ⟨isMarked, hbegin⟩ := hx.begin_tag
  simp [FreeList.fits, LargeObject.size, LargeObject.handle, hbegin, Block.tag]

variable {alignment unalignedSize : Nat}

theorem fitsAligned_iff {tags : Tags} (hx : Tagged tags a x) :
    FreeList.fitsAligned alignment s unalignedSize tags (LargeObject.handle a x.size) = true ↔
      s ≤ x.size ∧ (a % alignment ≠ 0 → unalignedSize ≤ x.size) := by
  obtain ⟨isMarked, hbegin⟩ := hx.begin_tag
  by_cases hmod : a % alignment = 0 <;>
    simp [FreeList.fitsAligned, LargeObject.size, LargeObject.handle, LargeObject.begin, hbegin,
      Block.tag, hmod]

theorem wholeChunk_size (chunk : Nat) : (wholeChunk chunk).size = 16711680 := by
  have hbegin := LargeChunk.begin_eq chunk
  have hend := end_eq chunk
  simp only [wholeChunk]
  omega

theorem isLargeSize_le_whole (hsize : IsLargeSize size) (chunk : Nat) :
    size ≤ (wholeChunk chunk).size := by
  have hmax := hsize.1
  simp only [largeMax, largeChunkSize] at hmax
  rw [wholeChunk_size]
  omega

theorem select_le_whole (hsize : IsLargeSize size) (chunk : Nat) :
    select size ≤ select (wholeChunk chunk).size := by
  have hle := isLargeSize_le_whole hsize chunk
  rw [wholeChunk_size] at *
  have hlast : select 16711680 = 18 := by decide
  have hlt := select_lt (show size < 2 ^ 24 by omega)
  simp only [freeListCount] at hlt
  omega

namespace Inv

/-- What a search for a free object of the heap finds, and holds. -/
structure Found (h : LargeHeap) (layout : Layout) (fits : Nat → Nat → Prop)
    (found : Option (LargeObject × LargeHeap)) (a : Nat) (x : Block) (h' : LargeHeap)
    (layout' : Layout) : Prop where
  eq_some : found = some (handle a x.size, h')
  inv : h'.Inv layout' [a]
  has : layout'.Has h'.chunks a x
  isFree : x.isFree = true
  owner : x.owner = .heap
  fits : fits a x.size
  same : SameAllocated layout layout' h.chunks h'.chunks

section

variable (hinv : h.Inv layout [])
include hinv

theorem vmAllocateLargeObject (hsize : IsLargeSize size)
    (hchunk : chunk ∉ h.chunks) :
    ∃ a x h' layout', Found h layout (fun _ s => size ≤ s) (h.vmAllocateLargeObject size chunk)
      a x h' layout' := by
  obtain ⟨r, h1, layout1, htake, hinv1, hfree, htest, hsame1⟩ :=
    Inv.vmTake hinv hchunk (select_le_whole hsize chunk)
      fun tags htag => (fits_iff htag).mpr (isLargeSize_le_whole hsize chunk)
  rw [fits_iff (hinv1.valid.tagged hfree)] at htest
  obtain ⟨y, h2, layout2, hvm, hinv2, hchunks2, hy, hyfree, howner, hle, hsame2⟩ :=
    hinv1.vmAllocateObject hfree rfl rfl hsize.2.1 hsize.2.2 htest
  refine ⟨r.begin, y, h2, layout2, ?_, hinv2, by rwa [hchunks2], hyfree, howner, hle, ?_⟩
  · rw [LargeHeap.vmAllocateLargeObject, htake]
    exact congrArg some hvm
  · rw [hchunks2]
    exact hsame1.trans hsame2

theorem vmAllocateLargeObjectAligned
    (hreq : IsAlignedRequest alignment size unalignedSize) (hchunk : chunk ∉ h.chunks) :
    ∃ a x h' layout', Found h layout (fun a s => size ≤ s ∧ (a % alignment ≠ 0 → unalignedSize ≤ s))
      (h.vmAllocateLargeObjectAligned alignment size unalignedSize chunk) a x h' layout' := by
  have hsize := hreq.isLarge
  have hunaligned := hreq.unaligned_isLarge
  obtain ⟨r, h1, layout1, htake, hinv1, hfree, htest, hsame1⟩ :=
    Inv.vmTake hinv hchunk (select_le_whole hsize chunk)
      fun tags htag => (fitsAligned_iff htag).mpr ⟨isLargeSize_le_whole hsize chunk,
        fun _ => isLargeSize_le_whole hunaligned chunk⟩
  rw [fitsAligned_iff (hinv1.valid.tagged hfree)] at htest
  rw [LargeHeap.vmAllocateLargeObjectAligned, htake, Option.map_some]
  by_cases hmod : r.begin % alignment = 0
  · obtain ⟨y, h2, layout2, hvm, hinv2, hchunks2, hy, hyfree, howner, hle, hsame2⟩ :=
      hinv1.vmAllocateObject hfree rfl rfl hsize.2.1 hsize.2.2 htest.1
    refine ⟨r.begin, y, h2, layout2, ?_, hinv2, by rwa [hchunks2], hyfree, howner,
      ⟨hle, fun hne => absurd hmod hne⟩, ?_⟩
    · exact congrArg some ((if_neg fun hne => hne hmod).trans hvm)
    · rw [hchunks2]
      exact hsame1.trans hsame2
  · obtain ⟨y, h2, layout2, hvm, hinv2, hchunks2, hy, hyfree, howner, hle, hsame2⟩ :=
      hinv1.vmAllocateObject hfree rfl rfl hunaligned.2.1 hunaligned.2.2 (htest.2 hmod)
    have hsum := hreq.sum_le
    refine ⟨r.begin, y, h2, layout2, ?_, hinv2, by rwa [hchunks2], hyfree, howner,
      ⟨by omega, fun _ => hle⟩, ?_⟩
    · exact congrArg some ((if_pos hmod).trans hvm)
    · rw [hchunks2]
      exact hsame1.trans hsame2

theorem takeOrElse (size : Nat) {fits : Nat → Nat → Prop}
    (htest : ∀ {tags a x}, Tagged tags a x → (test tags (handle a x.size) = true ↔ fits a x.size))
    (orElse : LargeHeap → Option (LargeObject × LargeHeap))
    (horElse : ∀ h1 : LargeHeap, h1.Inv layout [] → h1.chunks = h.chunks →
      ∃ a x h' layout', Found h1 layout fits (orElse h1) a x h' layout') :
    ∃ a x h' layout', Found h layout fits
      (((h.take .heap size test).1.map fun object => (object, (h.take .heap size test).2)).or
        (orElse (h.take .heap size test).2)) a x h' layout' := by
  obtain ⟨taken, hobj, hchunks, htags, hinv1, hspec, _⟩ := hinv.take .heap size test
  rw [hobj]
  cases taken with
  | some r =>
    obtain ⟨hfree, hpasses⟩ := hspec r rfl
    refine ⟨r.begin, ⟨r.size, true, .heap⟩, _, layout, rfl, hinv1, by rwa [hchunks], rfl, rfl,
      (htest (hinv.valid.tagged hfree)).mp hpasses, ?_⟩
    exact refl
  | none =>
    obtain ⟨a, x, h', layout', hfound⟩ := horElse _ hinv1 hchunks
    refine ⟨a, x, h', layout', hfound.eq_some, hfound.inv, hfound.has, hfound.isFree, hfound.owner,
      hfound.fits, ?_⟩
    exact hfound.same

theorem allocateLarge (hsize : IsLargeSize size)
    (hchunk : chunk ∉ h.chunks) :
    ∃ a h' layout' y, h.allocateLarge size chunk = some (a, h') ∧ h'.Inv layout' [] ∧
      layout'.Has h'.chunks a y ∧ y.owner = .heap ∧ size ≤ y.size ∧
      Allocates layout h.chunks a y layout' h'.chunks := by
  obtain ⟨a, x, h1, layout1, heq, hinv1, hx, hfree, howner, hle, hsame⟩ :=
    hinv.takeOrElse size (fun htag => fits_iff htag)
      (fun h => h.vmAllocateLargeObject size chunk)
      fun h1 hinv1 hchunks => hinv1.vmAllocateLargeObject hsize (hchunks ▸ hchunk)
  obtain ⟨y, h', layout', halloc, hinv', hchunks', hy, howner', hle', hallocates⟩ :=
    hinv1.allocateObject hx hfree howner hsize.2.1 hsize.2.2 hle
  rw [← hchunks'] at hy
  refine ⟨a, h', layout', y, ?_, hinv', hy, howner', hle', hsame.allocates (by rwa [hchunks'])⟩
  rw [LargeHeap.allocateLarge, heq]
  exact congrArg some halloc

end

theorem prefixSize_spec
    (hreq : IsAlignedRequest alignment size unalignedSize) (haligned : largeAlignment ∣ a) :
    largeMin ≤ prefixSize alignment a ∧ largeAlignment ∣ prefixSize alignment a ∧
      prefixSize alignment a < largeMin + alignment ∧ alignment ∣ a + prefixSize alignment a := by
  obtain ⟨k, rfl⟩ := hreq.powerOfTwo
  have hpos : 0 < 2 ^ k := Nat.two_pow_pos k
  obtain ⟨hlow, hhigh⟩ := ceilDiv_spec hpos (a + largeMin)
  have hdvd : largeAlignment ∣ 2 ^ k := by
    have hle := hreq.largeAlignment_le
    rw [show largeAlignment = 2 ^ 6 from rfl] at hle ⊢
    exact Nat.pow_dvd_pow 2 ((Nat.pow_le_pow_iff_right (by omega)).mp hle)
  have hsum : a + prefixSize (2 ^ k) a = (a + largeMin + (2 ^ k - 1)) / 2 ^ k * 2 ^ k := by
    rw [prefixSize]
    omega
  refine ⟨?_, ?_, ?_, ?_⟩
  · omega
  · exact Nat.dvd_sub (hdvd.trans (Nat.dvd_mul_left _ _)) haligned
  · omega
  · rw [hsum]
    exact Nat.dvd_mul_left _ _

theorem allocateAligned (hinv : h.Inv layout [a])
    (hreq : IsAlignedRequest alignment size unalignedSize) (hx : layout.Has h.chunks a x)
    (hfree : x.isFree = true) (howner : x.owner = .heap) (hle : size ≤ x.size)
    (hunaligned : a % alignment ≠ 0 → unalignedSize ≤ x.size) :
    ∃ b y h' layout', h.allocateAligned (handle a x.size) alignment size = (b, h') ∧
      alignment ∣ b ∧ h'.Inv layout' [] ∧ h'.chunks = h.chunks ∧ layout'.Has h.chunks b y ∧
      y.owner = .heap ∧ size ≤ y.size ∧ Allocates layout h.chunks b y layout' h.chunks := by
  obtain ⟨_, hmin, haligned⟩ := hreq.isLarge
  have hbegin : (handle a x.size).begin = a := rfl
  rw [LargeHeap.allocateAligned, hbegin]
  by_cases hmod : a % alignment = 0
  · rw [if_neg (fun hne => hne hmod)]
    obtain ⟨y, h', layout', halloc, hspec⟩ := hinv.allocateObject hx hfree howner hmin haligned hle
    exact ⟨a, y, h', layout', halloc, Nat.dvd_of_mod_eq_zero hmod, hspec⟩
  · rw [if_pos hmod]
    obtain ⟨hprefixMin, hprefixAligned, hprefixLt, hdvd⟩ :=
      prefixSize_spec hreq (hinv.valid.aligned hx)
    have hsum := hreq.sum_le
    obtain ⟨tags1, layout1, hsplit, hinv1, hfirst, hrest, hsame⟩ :=
      hinv.split hx hfree hprefixMin hprefixAligned (by omega)
    obtain ⟨hins, hchunks, _⟩ :=
      (hinv1 [a, a + prefixSize alignment a] (by simp) (by simp)).insert hfirst howner
    obtain ⟨y, h', layout', halloc, hinv', hchunks', hy, howner', hle', hallocates⟩ :=
      hins.allocateObject hrest hfree howner hmin haligned
        (show size ≤ x.size - prefixSize alignment a by omega)
    refine ⟨a + prefixSize alignment a, y, h', layout', ?_, hdvd, hinv', hchunks', hy, howner',
      hle', hsame.allocates hallocates⟩
    rw [hsplit]
    exact halloc

section

variable (hinv : h.Inv layout [])
include hinv

theorem allocateLargeAligned
    (hreq : IsAlignedRequest alignment size unalignedSize) (hchunk : chunk ∉ h.chunks) :
    ∃ a h' layout' y, h.allocateLargeAligned alignment size unalignedSize chunk = some (a, h') ∧
      alignment ∣ a ∧ h'.Inv layout' [] ∧ layout'.Has h'.chunks a y ∧ y.owner = .heap ∧
      size ≤ y.size ∧ Allocates layout h.chunks a y layout' h'.chunks := by
  obtain ⟨a, x, h1, layout1, heq, hinv1, hx, hfree, howner, hfits, hsame⟩ :=
    hinv.takeOrElse size (fun htag => fitsAligned_iff htag)
      (fun h => h.vmAllocateLargeObjectAligned alignment size unalignedSize chunk)
      fun h1 hinv1 hchunks => hinv1.vmAllocateLargeObjectAligned hreq (hchunks ▸ hchunk)
  obtain ⟨b, y, h', layout', halloc, hdvd, hinv', hchunks', hy, howner', hle', hallocates⟩ :=
    hinv1.allocateAligned hreq hx hfree howner hfits.1 hfits.2
  rw [← hchunks'] at hy
  refine ⟨b, h', layout', y, ?_, hdvd, hinv', hy, howner', hle', hsame.allocates (by rwa [hchunks'])⟩
  rw [LargeHeap.allocateLargeAligned, heq]
  exact congrArg some halloc

theorem deallocateLarge (hx : layout.Has h.chunks a x)
    (howner : x.owner = .heap) :
    ∃ layout', (h.deallocateLarge a).Inv layout' [] ∧ (h.deallocateLarge a).chunks = h.chunks ∧
      Frees layout h.chunks a layout' h.chunks := by
  obtain ⟨layout1, hinv1, hx1, hfrees⟩ := hinv.setFree_true hx
  obtain ⟨A, y, tags2, layout2, hmerge, hinv2, hy, hyfree, hyowner, hsame⟩ := hinv1.merge hx1 rfl
  obtain ⟨hins, hchunks, _⟩ := hinv2.insert hy (hyowner.trans howner)
  have hdeallocate : h.deallocateLarge a =
      LargeHeap.insert { h with tags := tags2 } .heap (LargeObject.handle A y.size) := by
    rw [LargeHeap.deallocateLarge, (hinv.valid.tagged hx).get_eq]
    rw [hmerge]
  rw [hdeallocate]
  exact ⟨layout2, hins, hchunks, hfrees.trans hsame⟩

/-- The scavenger marks a free block as allocated while it is in transit. -/
theorem scavengeBegin {object : LargeObject} {h' : LargeHeap}
    (hscavenge : h.scavengeBegin = some (object, h')) :
    ∃ a y layout', object = handle a y.size ∧ h'.Inv layout' [] ∧
      h'.chunks = h.chunks ∧ layout'.Has h.chunks a y ∧ y.owner = .vmHeap ∧
      Allocates layout h.chunks a y layout' h.chunks := by
  obtain ⟨taken, lists', htake, hspec, howner, hcount⟩ := takeGreedy_spec (h.lists .heap) h.tags
  rw [hinv.owner] at hspec howner
  obtain ⟨hfree, hinv1⟩ := hinv.taken hspec howner hcount
  rw [LargeHeap.scavengeBegin, htake] at hscavenge
  cases taken with
  | none => simp at hscavenge
  | some r =>
    have hr := hfree r rfl
    obtain ⟨layout2, hinv2, hx2, hsame2⟩ := Inv.setOwner hinv1 hr rfl .vmHeap
    obtain ⟨A, y, tags3, layout3, hmerge, hinv3, hy, hyfree, hyowner, hsame3⟩ := hinv2.merge hx2 rfl
    obtain ⟨layout4, hinv4, hy4, halloc⟩ := hinv3.setFree_false hy hyfree
    simp only [map_some, hr.get_eq hinv.valid, hmerge, some.injEq, Prod.mk.injEq] at hscavenge
    obtain ⟨rfl, rfl⟩ := hscavenge
    exact ⟨A, { y with isFree := false }, layout4, rfl, hinv4, rfl, hy4, hyowner,
      (hsame2.trans hsame3).allocates halloc⟩

theorem scavengeEnd (hx : layout.Has h.chunks a x)
    (howner : x.owner = .vmHeap) :
    ∃ layout', (h.scavengeEnd (handle a x.size)).Inv layout' [] ∧
      (h.scavengeEnd (handle a x.size)).chunks = h.chunks ∧
      Frees layout h.chunks a layout' h.chunks := by
  obtain ⟨layout1, hinv1, hx1, hfrees⟩ := hinv.setFree_true hx
  obtain ⟨hins, hchunks, _⟩ := hinv1.insert hx1 howner
  exact ⟨layout1, hins, hchunks, hfrees⟩

end

end Inv

end LargeHeap

/-!
## Every run keeps the large chunks tiled

The invariant of `LargeSystem`: the heap's own invariant with no object held, and the
allocated blocks are those that clients own and those in transit to the `VMHeap`. Every
step keeps it (`inv_step`), so after every run the tags describe a tiling of each chunk,
what the clients own is disjoint and aligned, and every free block that is not in transit
is listed with its exact range (`large_heap_sound`).
-/

open Tiling

variable {layout layout' : Layout} {s s' : LargeSystem} {a : Nat} {x y : Block}

namespace LargeSystem

/-- The addresses of the objects that are owned or in transit. -/
def allocated (s : LargeSystem) : List Nat :=
  s.live.map Allocation.object ++ s.transit.map LargeObject.object

structure Inv (s : LargeSystem) (layout : Layout) : Prop where
  heap : s.heap.Inv layout []
  nodup : s.allocated.Nodup
  allocated_mem : ∀ a x, layout.Has s.heap.chunks a x → x.isFree = false → a ∈ s.allocated
  live : ∀ r ∈ s.live, r.alignment ∣ r.object ∧ ∃ x, layout.Has s.heap.chunks r.object x ∧
    x.isFree = false ∧ x.owner = .heap ∧ r.size ≤ x.size
  transit : ∀ o ∈ s.transit, ∃ x, layout.Has s.heap.chunks o.object x ∧ x.isFree = false ∧
    x.owner = .vmHeap ∧ o = handle o.object x.size

theorem inv_initial : initial.Inv fun _ => [] where
  heap := by
    refine ⟨⟨by simp [initial, LargeHeap.initial], fun _ _ _ _ _ => rfl⟩, fun _ => rfl, fun _ => rfl,
      fun owner r hr => ?_, fun a x hx => ?_⟩
    · simp [initial, LargeHeap.initial, SegregatedFreeList.entries, SegregatedFreeList.entriesOf,
        SegregatedFreeList.initial, FreeList.initial] at hr
    · obtain ⟨chunk, hchunk, _⟩ := hx
      simp [initial, LargeHeap.initial] at hchunk
  nodup := nodup_nil
  allocated_mem a x hx := by
    obtain ⟨chunk, hchunk, _⟩ := hx
    simp [initial, LargeHeap.initial] at hchunk
  live := by simp [initial]
  transit := by simp [initial]

namespace Inv

section

variable (hinv : s.Inv layout)
include hinv

theorem exists_block (ha : a ∈ s.allocated) :
    ∃ x, layout.Has s.heap.chunks a x ∧ x.isFree = false := by
  rcases mem_append.mp ha with ha | ha
  · obtain ⟨r, hr, rfl⟩ := mem_map.mp ha
    obtain ⟨_, x, hx, hfree, _⟩ := hinv.live r hr
    exact ⟨x, hx, hfree⟩
  · obtain ⟨o, ho, rfl⟩ := mem_map.mp ha
    obtain ⟨x, hx, hfree, _⟩ := hinv.transit o ho
    exact ⟨x, hx, hfree⟩

theorem not_mem {heap : LargeHeap}
    (halloc : Allocates layout s.heap.chunks a y layout' heap.chunks) : a ∉ s.allocated := by
  intro ha
  obtain ⟨x, hx, hfree⟩ := hinv.exists_block ha
  rw [halloc.wasFree x hx] at hfree
  simp at hfree

theorem allocates {heap : LargeHeap} {live : List Allocation}
    {transit : List LargeObject} (hheap : heap.Inv layout' [])
    (halloc : Allocates layout s.heap.chunks a y layout' heap.chunks)
    (hlive : ∀ r ∈ live, r ∈ s.live ∨ r.alignment ∣ r.object ∧ r.object = a ∧ y.owner = .heap ∧
      r.size ≤ y.size)
    (htransit : ∀ o ∈ transit, o ∈ s.transit ∨ o = LargeObject.handle a y.size ∧ y.owner = .vmHeap)
    (hperm : (live.map Allocation.object ++ transit.map LargeObject.object).Perm
      (a :: s.allocated)) (hy : layout'.Has heap.chunks a y) :
    LargeSystem.Inv ⟨heap, live, transit⟩ layout' := by
  refine ⟨hheap, ?_, fun b z hz hfree => ?_, fun r hr => ?_, fun o ho => ?_⟩
  · rw [allocated, hperm.nodup_iff]
    exact nodup_cons.mpr ⟨hinv.not_mem halloc, hinv.nodup⟩
  · rw [allocated, hperm.mem_iff]
    rcases (halloc.has b z hfree).mp hz with ⟨rfl, _⟩ | hz
    · exact mem_cons_self
    · exact mem_cons_of_mem _ (hinv.allocated_mem b z hz hfree)
  · rcases hlive r hr with hr | ⟨hdvd, rfl, howner, hle⟩
    · obtain ⟨hdvd, z, hz, hfree, hspec⟩ := hinv.live r hr
      exact ⟨hdvd, z, (halloc.has _ z hfree).mpr (.inr hz), hfree, hspec⟩
    · exact ⟨hdvd, y, hy, halloc.notFree, howner, hle⟩
  · rcases htransit o ho with ho | ⟨rfl, howner⟩
    · obtain ⟨z, hz, hfree, hspec⟩ := hinv.transit o ho
      exact ⟨z, (halloc.has _ z hfree).mpr (.inr hz), hfree, hspec⟩
    · exact ⟨y, hy, halloc.notFree, howner, rfl⟩

theorem frees {heap : LargeHeap} {live : List Allocation}
    {transit : List LargeObject} (hheap : heap.Inv layout' [])
    (hfrees : Frees layout s.heap.chunks a layout' heap.chunks)
    (hlive : ∀ r ∈ live, r ∈ s.live) (htransit : ∀ o ∈ transit, o ∈ s.transit)
    (hperm : s.allocated.Perm
      (a :: (live.map Allocation.object ++ transit.map LargeObject.object))) :
    LargeSystem.Inv ⟨heap, live, transit⟩ layout' := by
  have hnodup := nodup_cons.mp (hperm.nodup_iff.mp hinv.nodup)
  refine ⟨hheap, hnodup.2, fun b z hz hfree => ?_, fun r hr => ?_, fun o ho => ?_⟩
  · obtain ⟨hz, hne⟩ := (hfrees b z hfree).mp hz
    have hmem := hperm.mem_iff.mp (hinv.allocated_mem b z hz hfree)
    exact (mem_cons.mp hmem).resolve_left hne
  · obtain ⟨hdvd, z, hz, hfree, hspec⟩ := hinv.live r (hlive r hr)
    refine ⟨hdvd, z, (hfrees _ z hfree).mpr ⟨hz, fun heq => hnodup.1 ?_⟩, hfree, hspec⟩
    rw [← heq]
    exact mem_append_left _ (mem_map_of_mem hr)
  · obtain ⟨z, hz, hfree, hspec⟩ := hinv.transit o (htransit o ho)
    refine ⟨z, (hfrees _ z hfree).mpr ⟨hz, fun heq => hnodup.1 ?_⟩, hfree, hspec⟩
    rw [← heq]
    exact mem_append_right _ (mem_map_of_mem ho)

theorem step {event : LargeEvent} (hstep : Step s event s') :
    ∃ layout', s'.Inv layout' := by
  cases hstep with
  | @allocate size chunk object heap hsize hchunk halloc =>
    obtain ⟨a, heap', layout', y, heq, hheap, hy, howner, hle, hallocates⟩ :=
      hinv.heap.allocateLarge hsize hchunk
    obtain ⟨rfl, rfl⟩ := Prod.mk.inj (Option.some.inj (heq.symm.trans halloc))
    refine ⟨layout', hinv.allocates hheap hallocates (fun r hr => ?_) (fun o ho => .inl ho)
      (List.Perm.refl _) hy⟩
    rcases mem_cons.mp hr with rfl | hr
    · exact .inr ⟨hheap.valid.aligned hy, rfl, howner, hle⟩
    · exact .inl hr
  | @allocateAligned alignment size unalignedSize chunk object heap hreq hchunk halloc =>
    obtain ⟨a, heap', layout', y, heq, hdvd, hheap, hy, howner, hle, hallocates⟩ :=
      hinv.heap.allocateLargeAligned hreq hchunk
    obtain ⟨rfl, rfl⟩ := Prod.mk.inj (Option.some.inj (heq.symm.trans halloc))
    refine ⟨layout', hinv.allocates hheap hallocates (fun r hr => ?_) (fun o ho => .inl ho)
      (List.Perm.refl _) hy⟩
    rcases mem_cons.mp hr with rfl | hr
    · exact .inr ⟨hdvd, rfl, howner, hle⟩
    · exact .inl hr
  | @deallocate allocation hlive =>
    obtain ⟨_, x, hx, _, howner, _⟩ := hinv.live allocation hlive
    obtain ⟨layout', hheap, hchunks, hfrees⟩ := hinv.heap.deallocateLarge hx howner
    refine ⟨layout', hinv.frees hheap (hchunks ▸ hfrees) (fun r hr => mem_of_mem_erase hr)
      (fun o ho => ho) ?_⟩
    exact ((perm_cons_erase hlive).map Allocation.object).append_right _
  | @scavengeBegin object heap hscavenge =>
    obtain ⟨a, y, layout', rfl, hheap, hchunks, hy, howner, hallocates⟩ :=
      hinv.heap.scavengeBegin hscavenge
    rw [← hchunks] at hy
    refine ⟨layout', hinv.allocates hheap (by rwa [hchunks]) (fun r hr => .inl hr)
      (fun o ho => ?_) ?_ hy⟩
    · rcases mem_cons.mp ho with rfl | ho
      · exact .inr ⟨rfl, howner⟩
      · exact .inl ho
    · exact perm_middle
  | @scavengeEnd object htransit =>
    obtain ⟨x, hx, _, howner, heq⟩ := hinv.transit object htransit
    obtain ⟨layout', hheap, hchunks, hfrees⟩ := hinv.heap.scavengeEnd hx howner
    rw [← heq] at hheap hchunks
    rw [← hchunks] at hfrees
    refine ⟨layout', hinv.frees hheap (by rwa [hchunks] at hfrees ⊢) (fun r hr => hr)
      (fun o ho => mem_of_mem_erase ho) ?_⟩
    refine (((perm_cons_erase htransit).map LargeObject.object).append_left _).trans ?_
    exact perm_middle
  | @grow chunk hchunk =>
    obtain ⟨layout', hheap, hchunks, hsame, _⟩ := hinv.heap.grow hchunk
    refine ⟨layout', hheap, hinv.nodup, fun b z hz hfree => ?_, fun r hr => ?_, fun o ho => ?_⟩
    · exact hinv.allocated_mem b z ((hsame b z hfree).mp hz) hfree
    · obtain ⟨hdvd, z, hz, hfree, hspec⟩ := hinv.live r hr
      exact ⟨hdvd, z, (hsame _ z hfree).mpr hz, hfree, hspec⟩
    · obtain ⟨z, hz, hfree, hspec⟩ := hinv.transit o ho
      exact ⟨z, (hsame _ z hfree).mpr hz, hfree, hspec⟩

end

end Inv

theorem inv_run {events : List LargeEvent} (hrun : Transition.Run Step initial events s) :
    ∃ layout, s.Inv layout :=
  hrun.preserves (I := fun s => ∃ layout, s.Inv layout)
    (fun _ _ _ ⟨_, hinv⟩ hstep => hinv.step hstep) ⟨_, inv_initial⟩

end LargeSystem

/-- What a layout of the large chunks says about the state. -/
structure LargeSystem.Sound (s : LargeSystem) (layout : Layout) : Prop where
  tiled : ∀ chunk ∈ s.heap.chunks, Describes s.heap.tags chunk (layout chunk)
  /-- The objects in transit are marked as allocated as well. -/
  allocated : ∀ a x, layout.Has s.heap.chunks a x → (x.isFree = false ↔
    (∃ r ∈ s.live, r.object = a) ∨ ∃ o ∈ s.transit, o.object = a)
  live : ∀ r ∈ s.live, (∃ x, layout.Has s.heap.chunks r.object x ∧ r.size ≤ x.size) ∧
    r.alignment ∣ r.object ∧ ∀ o ∈ s.transit, o.object ≠ r.object
  disjoint : s.live.Pairwise fun r q => r.object + r.size ≤ q.object ∨ q.object + q.size ≤ r.object
  listed : ∀ a x, layout.Has s.heap.chunks a x → x.isFree = true →
    (⟨a, x.size⟩ : Range) ∈ (s.heap.lists x.owner).entries
  allocates : ∀ size chunk, IsLargeSize size → chunk ∉ s.heap.chunks →
    (s.heap.allocateLarge size chunk).isSome
  allocatesAligned : ∀ alignment size unalignedSize chunk,
    IsAlignedRequest alignment size unalignedSize → chunk ∉ s.heap.chunks →
      (s.heap.allocateLargeAligned alignment size unalignedSize chunk).isSome

theorem LargeSystem.Inv.sound (hinv : s.Inv layout) : s.Sound layout where
  tiled := hinv.heap.valid.describes
  allocated a x hx := by
    have hmem : a ∈ s.allocated ↔ (∃ r ∈ s.live, r.object = a) ∨ ∃ o ∈ s.transit, o.object = a := by
      simp [LargeSystem.allocated]
    rw [← hmem]
    refine ⟨hinv.allocated_mem a x hx, fun ha => ?_⟩
    obtain ⟨z, hz, hfree⟩ := hinv.exists_block ha
    rwa [hinv.heap.valid.unique_begin hx hz]
  live r hr := by
    obtain ⟨hdvd, x, hx, _, _, hle⟩ := hinv.live r hr
    refine ⟨⟨x, hx, hle⟩, hdvd, fun o ho heq => ?_⟩
    have hnodup := hinv.nodup
    rw [LargeSystem.allocated, nodup_append'] at hnodup
    refine hnodup.2.2 (mem_map_of_mem hr) ?_
    rw [← heq]
    exact mem_map_of_mem ho
  disjoint := by
    have hnodup := hinv.nodup
    rw [LargeSystem.allocated, nodup_append'] at hnodup
    have hne : s.live.Pairwise fun r q => r.object ≠ q.object := pairwise_map.mp hnodup.1
    refine hne.imp_of_mem fun {r q} hr hq hne => ?_
    obtain ⟨_, x, hx, _, _, hle⟩ := hinv.live r hr
    obtain ⟨_, y, hy, _, _, hle'⟩ := hinv.live q hq
    rcases hinv.heap.valid.disjoint hx hy hne with hxy | hyx
    · exact .inl (by omega)
    · exact .inr (by omega)
  listed a x hx hfree := hinv.heap.listed a x hx hfree (by simp)
  allocates size chunk hsize hchunk := by
    obtain ⟨a, h', _, _, heq, _⟩ := hinv.heap.allocateLarge hsize hchunk
    rw [heq]
    rfl
  allocatesAligned alignment size unalignedSize chunk hreq hchunk := by
    obtain ⟨a, h', _, _, heq, _⟩ := hinv.heap.allocateLargeAligned hreq hchunk
    rw [heq]
    rfl

theorem allocateLarge_initial :
    (initial.allocateLarge 4096 2).map Prod.fst = some (2 * 16777216 + 65536) := by
  decide +kernel

end WebKit.Bmalloc
