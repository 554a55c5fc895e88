import WebKit.Bmalloc.LineHeapInvariant

/-!
# Every run hands out disjoint objects

`LineHeap.Lists` says what the page lists of a heap hold: pages that no object uses are in
at most one of the lists of free pages, and a page in the list of pages with free lines
that passes the test of `allocatePage` has a free line and no second entry. An entry may
be stale (the page was promoted to the free pages, perhaps taken by another size class),
but a page is given a size class only when the list of that class has run empty, so a
stale entry never passes the test again.

With `LineHeap.Counts` this is an invariant of every step, and `outstanding_sound` reads
off what it says about the objects of the ranges.
-/

namespace WebKit.Bmalloc

open LineTraits LineHeap Function List

variable {t : LineTraits} {h : LineHeap} {objects : List Object} {page c : Nat}
  {scavenging created chunk : List Nat}

structure LineHeap.Lists (t : LineTraits) (h : LineHeap) (scavenging created : List Nat) :
    Prop where
  used_created : ∀ page, h.pageRefCount page ≠ 0 → page ∈ created
  idle_nodup : (h.pages ++ h.vmPages ++ scavenging).Nodup
  idle : ∀ page ∈ h.pages ++ h.vmPages ++ scavenging, h.pageRefCount page = 0 ∧ page ∈ created
  freeLines : ∀ c, ∀ page ∈ h.pagesWithFreeLines c, h.pageSizeClass page = c →
    h.pageRefCount page ≠ 0 →
      h.pageRefCount page < t.usableLines c ∧ (h.pagesWithFreeLines c).count page ≤ 1

namespace LineHeap

namespace Lists

section

variable (hlists : h.Lists t scavenging created)
include hlists

theorem more_created (chunk : List Nat) :
    h.Lists t scavenging (chunk ++ created) where
  used_created page hpage := mem_append_right _ (hlists.used_created page hpage)
  idle_nodup := hlists.idle_nodup
  idle page hpage := ⟨(hlists.idle page hpage).1, mem_append_right _ (hlists.idle page hpage).2⟩
  freeLines := hlists.freeLines

theorem grow (hfresh : FreshChunk created chunk) :
    (h.grow chunk).Lists t scavenging (chunk ++ created) := by
  obtain ⟨_, hnodup, hnew⟩ := hfresh
  have hperm : ((h.grow chunk).pages ++ (h.grow chunk).vmPages ++ scavenging).Perm
      (chunk ++ (h.pages ++ h.vmPages ++ scavenging)) := by
    simp only [LineHeap.grow, append_assoc]
    refine perm_append_comm_assoc _ _ _ |>.trans ?_
    exact (reverse_perm chunk).append_right _
  refine ⟨(hlists.more_created chunk).used_created, ?_, ?_, hlists.freeLines⟩
  · rw [hperm.nodup_iff, nodup_append']
    refine ⟨hnodup, hlists.idle_nodup, fun page hpage hidle => ?_⟩
    exact hnew page hpage (hlists.idle page hidle).2
  · intro page hpage
    rcases mem_append.mp (hperm.mem_iff.mp hpage) with hchunk | hidle
    · refine ⟨?_, mem_append_left _ hchunk⟩
      by_contra hused
      exact hnew page hchunk (hlists.used_created page hused)
    · exact (hlists.more_created chunk).idle page hidle

theorem take (page : Nat) (h' : LineHeap)
    (scavenging' : List Nat)
    (hperm : (h.pages ++ h.vmPages ++ scavenging).Perm
      (page :: (h'.pages ++ h'.vmPages ++ scavenging')))
    (hcount : h'.pageRefCount = h.pageRefCount) (hclass : h'.pageSizeClass = h.pageSizeClass)
    (hfree : h'.pagesWithFreeLines = h.pagesWithFreeLines) :
    h'.Lists t scavenging' created ∧ h'.pageRefCount page = 0 ∧ page ∈ created ∧
      page ∉ h'.pages ++ h'.vmPages ++ scavenging' := by
  have hnodup := hperm.nodup_iff.mp hlists.idle_nodup
  have hmem : ∀ q, q ∈ page :: (h'.pages ++ h'.vmPages ++ scavenging') →
      h.pageRefCount q = 0 ∧ q ∈ created :=
    fun q hq => hlists.idle q (hperm.mem_iff.mpr hq)
  obtain ⟨hzero, hpage⟩ := hmem page mem_cons_self
  refine ⟨⟨?_, (nodup_cons.mp hnodup).2, ?_, ?_⟩, ?_, hpage, (nodup_cons.mp hnodup).1⟩
  · rw [hcount]
    exact hlists.used_created
  · rw [hcount]
    exact fun q hq => hmem q (mem_cons_of_mem _ hq)
  · rw [hcount, hclass, hfree]
    exact hlists.freeLines
  · rw [hcount, hzero]

end

end Lists

theorem takeFreePage_spec (hlists : h.Lists t scavenging created)
    (hfresh : FreshChunk created chunk) :
    ∃ page h', h.takeFreePage chunk = some (page, h') ∧
      h'.Lists t scavenging (chunk ++ created) ∧ h'.pageRefCount page = 0 ∧
      page ∈ chunk ++ created ∧ page ∉ h'.pages ++ h'.vmPages ++ scavenging ∧
      h'.lineRefCount = h.lineRefCount ∧ h'.pageRefCount = h.pageRefCount ∧
      h'.pageSizeClass = h.pageSizeClass ∧ h'.pagesWithFreeLines = h.pagesWithFreeLines := by
  cases hpages : h.pages with
  | cons page rest =>
    obtain ⟨hlists', hzero, hcreated, hidle⟩ := (hlists.more_created chunk).take page
      { h with pages := rest } scavenging (by simp [hpages]) rfl rfl rfl
    exact ⟨page, _, by rw [takeFreePage, hpages], hlists', hzero, hcreated, hidle,
      rfl, rfl, rfl, rfl⟩
  | nil =>
    have hgrown : ∃ g : LineHeap, (if h.vmPages = [] then h.grow chunk else h) = g ∧
        g.vmPages ≠ [] ∧ g.Lists t scavenging (chunk ++ created) ∧ g.pages = [] ∧
        g.lineRefCount = h.lineRefCount ∧ g.pageRefCount = h.pageRefCount ∧
        g.pageSizeClass = h.pageSizeClass ∧ g.pagesWithFreeLines = h.pagesWithFreeLines := by
      split
      · refine ⟨_, rfl, ?_, hlists.grow hfresh, hpages, rfl, rfl, rfl, rfl⟩
        simp [LineHeap.grow, hfresh.1]
      · exact ⟨_, rfl, ‹_›, hlists.more_created chunk, hpages, rfl, rfl, rfl, rfl⟩
    obtain ⟨g, hg, hne, hglists, hgpages, hline, hcount, hclass, hfree⟩ := hgrown
    obtain ⟨page, rest, hvm⟩ := exists_cons_of_ne_nil hne
    obtain ⟨hlists', hzero, hcreated, hidle⟩ := hglists.take page
      { g with vmPages := rest } scavenging (by simp [hgpages, hvm]) rfl rfl rfl
    refine ⟨page, _, ?_, hlists', hzero, hcreated, hidle, hline, hcount, hclass, hfree⟩
    simp only [takeFreePage, hpages, vmAllocatePage, hg, hvm]

theorem popPageWithFreeLines_spec (list : List Nat) :
    (∃ page pre rest, h.popPageWithFreeLines c list = (some page, rest) ∧
        list = pre ++ page :: rest ∧ h.pageRefCount page ≠ 0 ∧ h.pageSizeClass page = c) ∨
      h.popPageWithFreeLines c list = (none, []) := by
  induction list with
  | nil => exact .inr rfl
  | cons page rest ih =>
    rw [popPageWithFreeLines]
    split
    · rcases ih with ⟨page', pre, rest', hpop, hlist, hspec⟩ | hpop
      · exact .inl ⟨page', page :: pre, rest', hpop, by rw [hlist, cons_append], hspec⟩
      · exact .inr hpop
    · rename_i hvalid
      push Not at hvalid
      exact .inl ⟨page, [], rest, rfl, rfl, hvalid⟩

/-- The page `allocatePage` returns is in no list any more and has a free line. -/
theorem allocatePage_spec (hcounts : h.Counts t objects) (hlists : h.Lists t scavenging created)
    (hc : t.Serves c) (hfresh : FreshChunk created chunk) :
    ∃ page h', h.allocatePage c chunk = some (page, h') ∧ h'.Counts t objects ∧
      h'.Lists t scavenging (chunk ++ created) ∧ h'.pageSizeClass page = c ∧
      h'.pageRefCount page < t.usableLines c ∧ page ∈ chunk ++ created ∧
      page ∉ h'.pages ++ h'.vmPages ++ scavenging ∧ page ∉ h'.pagesWithFreeLines c := by
  have hmore := hlists.more_created chunk
  rcases popPageWithFreeLines_spec (h := h) (c := c) (h.pagesWithFreeLines c) with
    ⟨page, pre, rest, hpop, hlist, hused, hclass⟩ | hpop
  · have hmem : page ∈ h.pagesWithFreeLines c := by simp [hlist]
    obtain ⟨hlt, honce⟩ := hlists.freeLines c page hmem hclass hused
    rw [hlist, count_append, count_cons_self] at honce
    have hrest : page ∉ rest := by
      rw [← count_eq_zero]
      omega
    refine ⟨page, { h with pagesWithFreeLines := update h.pagesWithFreeLines c rest },
      by simp only [allocatePage, hpop],
      hcounts.congr rfl rfl fun _ _ => rfl, ⟨hmore.used_created, hmore.idle_nodup, hmore.idle, ?_⟩,
      hclass, hlt, hmore.used_created page hused, ?_, by simpa using hrest⟩
    · intro d q hq hqclass hqused
      simp only [update_apply] at hq ⊢
      split at hq
      · rename_i hd
        subst hd
        obtain ⟨hqlt, hqonce⟩ := hlists.freeLines d q (by simp [hlist, hq]) hqclass hqused
        refine ⟨hqlt, ?_⟩
        rw [if_pos rfl]
        rw [hlist, count_append, count_cons] at hqonce
        omega
      · rename_i hd
        rw [if_neg hd]
        exact hlists.freeLines d q hq hqclass hqused
    · intro hidle
      exact hused (hlists.idle page hidle).1
  · -- The list has run empty, so the class of a free page may become `c`.
    have hempty : { h with
        pagesWithFreeLines := update h.pagesWithFreeLines c [] }.Lists t scavenging created := by
      refine ⟨hlists.used_created, hlists.idle_nodup, hlists.idle, ?_⟩
      intro d q hq hqclass hqused
      simp only [update_apply] at hq ⊢
      split at hq
      · simp at hq
      · rename_i hd
        rw [if_neg hd]
        exact hlists.freeLines d q hq hqclass hqused
    obtain ⟨page, h', htake, hlists', hzero, hcreated, hidle, hline, hcount, hsizeClass, hfree⟩ :=
      takeFreePage_spec hempty hfresh
    have hcmod : c % 256 = c := by
      have := hc.lt_sizeClasses
      simp only [mediumMax, alignment] at this
      omega
    refine ⟨page, h'.setSizeClass page c, by simp only [allocatePage, hpop, htake, Option.map_some],
      hcounts.congr hline hcount ?_, ⟨hlists'.used_created, hlists'.idle_nodup, hlists'.idle, ?_⟩,
      by simp [setSizeClass, hcmod], ?_, hcreated, hidle, by simp [setSizeClass, hfree]⟩
    · intro q hq
      have hne : q ≠ page := by
        rintro rfl
        rw [hcount] at hzero
        exact hq hzero
      simp only [setSizeClass, update_of_ne hne, hsizeClass]
    · intro d q hq hqclass hqused
      have hne : q ≠ page := by
        rintro rfl
        exact hqused hzero
      simp only [setSizeClass, update_of_ne hne] at hqclass
      exact hlists'.freeLines d q hq hqclass hqused
    · rw [show (h'.setSizeClass page c).pageRefCount page = 0 from hzero]
      exact usableLines_pos hc

theorem length_usableMetadata (t : LineTraits) (c : Nat) :
    ((t.lineMetadata c).take (t.usableLines c)).length = t.usableLines c := by
  have := usableLines_le_lineCount t c
  rw [length_take, LineTraits.lineMetadata, length_lineMetadataFrom]
  omega

section

variable (hcounts : h.Counts t objects) (hlists : h.Lists t scavenging created)
include hcounts hlists

theorem scanAllocated_spec (hc : t.Serves c) (hclass : h.pageSizeClass page = c)
    (hlt : h.pageRefCount page < t.usableLines c) (hcreated : page ∈ created)
    (hidle : page ∉ h.pages ++ h.vmPages ++ scavenging) (hfree : page ∉ h.pagesWithFreeLines c) :
    ∃ ranges h', scanLines t page c h none 0 ((t.lineMetadata c).take (t.usableLines c)) =
        (ranges, h') ∧ ranges ≠ [] ∧ (∀ r ∈ ranges, 0 < r.objectCount) ∧
      h'.Counts t (objects ++ ranges.flatMap (BumpRange.objects c)) ∧
      h'.Lists t scavenging created := by
  set mds := (t.lineMetadata c).take (t.usableLines c) with hmds
  obtain ⟨hcounts', hpos⟩ := scanLines_counts hc mds 0 h none objects (by rw [drop_zero])
    hclass (by simp) (by simpa using hcounts)
  obtain ⟨hclasses, hlines, hpages, hvm, hothers⟩ := scanLines_frame t page c 0 h none mds
  obtain ⟨k, hk, hzero⟩ := hcounts.exists_free_line hlt
  have hne := scanLines_ne_nil (t := t) (c := c) mds 0
    ⟨k, by rwa [hmds, length_usableMetadata t c], by rwa [zero_add]⟩
  refine ⟨_, _, rfl, hne, hpos, hcounts', ?_⟩
  constructor
  · intro q hq
    by_cases hqp : q = page
    · rwa [hqp]
    · rw [hothers q hqp] at hq
      exact hlists.used_created q hq
  · rw [hpages, hvm]
    exact hlists.idle_nodup
  · intro q hq
    rw [hpages, hvm] at hq
    have hqp : q ≠ page := fun heq => hidle (heq ▸ hq)
    rw [hothers q hqp]
    exact hlists.idle q hq
  · intro d q hq hqclass hqused
    rw [hlines] at hq ⊢
    rw [hclasses] at hqclass
    have hqp : q ≠ page := by
      rintro rfl
      obtain rfl : c = d := hclass.symm.trans hqclass
      exact hfree hq
    rw [hothers q hqp] at hqused ⊢
    exact hlists.freeLines d q hq hqclass hqused

theorem refillBumpRangeCache_spec (hc : t.Serves c)
    (hfresh : FreshChunk created chunk) :
    ∃ ranges h', h.refillBumpRangeCache t c chunk = some (ranges, h') ∧ ranges ≠ [] ∧
      (∀ r ∈ ranges, 0 < r.objectCount) ∧
      h'.Counts t (objects ++ ranges.flatMap (BumpRange.objects c)) ∧
      h'.Lists t scavenging (chunk ++ created) := by
  obtain ⟨page, h1, hpage, hcounts1, hlists1, hclass, hlt, hcreated, hidle, hfree⟩ :=
    allocatePage_spec hcounts hlists hc hfresh
  obtain ⟨ranges, h2, hscan, hspec⟩ :=
    scanAllocated_spec hcounts1 hlists1 hc hclass hlt hcreated hidle hfree
  refine ⟨ranges, h2, ?_, hspec⟩
  simp only [refillBumpRangeCache, hpage, Option.map_some, hscan]

theorem deallocateLine_lists (hused : h.pageRefCount page ≠ 0)
    (lines : Nat → Nat) :
    ({ h with lineRefCount := lines }.deallocateLine t page).Lists t scavenging created := by
  have hle : h.pageRefCount page ≤ t.usableLines (h.pageSizeClass page) := hcounts.pageRefCount_le
  have hcount : h.pageRefCount page ≤ t.lineCount := hcounts.pageRefCount_le_lineCount
  have hbound := t.lineCount_lt
  have hcreated := hlists.used_created page hused
  have hidle : page ∉ h.pages ++ h.vmPages ++ scavenging :=
    fun hmem => hused (hlists.idle page hmem).1
  have hmod : (h.pageRefCount page + 255) % 256 = h.pageRefCount page - 1 := by omega
  -- The counter of the page goes down, every other counter stays.
  have hcreated' : ∀ q, update h.pageRefCount page (h.pageRefCount page - 1) q ≠ 0 →
      q ∈ created := by
    intro q hq
    by_cases hqp : q = page
    · rwa [hqp]
    · rw [update_of_ne hqp] at hq
      exact hlists.used_created q hq
  have hidle' : ∀ q ∈ h.pages ++ h.vmPages ++ scavenging,
      update h.pageRefCount page (h.pageRefCount page - 1) q = 0 ∧ q ∈ created := by
    intro q hq
    have hqp : q ≠ page := fun heq => hidle (heq ▸ hq)
    rw [update_of_ne hqp]
    exact hlists.idle q hq
  have hfree' : ∀ d, ∀ q ∈ h.pagesWithFreeLines d, h.pageSizeClass q = d →
      update h.pageRefCount page (h.pageRefCount page - 1) q ≠ 0 →
        update h.pageRefCount page (h.pageRefCount page - 1) q < t.usableLines d ∧
          (h.pagesWithFreeLines d).count q ≤ 1 := by
    intro d q hq hqclass hqused
    by_cases hqp : q = page
    · subst hqp
      obtain ⟨hlt, honce⟩ := hlists.freeLines d q hq hqclass hused
      rw [update_self]
      exact ⟨by omega, honce⟩
    · rw [update_of_ne hqp] at hqused ⊢
      exact hlists.freeLines d q hq hqclass hqused
  simp only [deallocateLine, hmod]
  split
  · refine ⟨hcreated', hlists.idle_nodup, hidle', ?_⟩
    intro d q hq hqclass hqused
    simp only [update_apply] at hq
    by_cases hqp : q = page
    · subst hqp
      obtain rfl : h.pageSizeClass q = d := hqclass
      have hserves : q ∉ h.pagesWithFreeLines (h.pageSizeClass q) := by
        intro hmem
        have := (hlists.freeLines _ q hmem rfl hused).1
        have := usableLines_le_lineCount t (h.pageSizeClass q)
        omega
      simp only [update_self, count_cons_self, count_eq_zero.mpr hserves]
      omega
    · by_cases hd : d = h.pageSizeClass page
      · subst hd
        rw [if_pos rfl] at hq
        have hmem := (mem_cons.mp hq).resolve_left hqp
        have hspec := hfree' _ q hmem hqclass hqused
        refine ⟨hspec.1, ?_⟩
        simp only [update_self]
        rw [count_cons_of_ne (Ne.symm hqp)]
        exact hspec.2
      · rw [if_neg hd] at hq
        simp only [update_of_ne hd]
        exact hfree' d q hq hqclass hqused
  · split
    · refine ⟨hcreated', ?_, ?_, hfree'⟩
      · exact nodup_cons.mpr ⟨hidle, hlists.idle_nodup⟩
      · intro q hq
        rcases mem_cons.mp hq with rfl | hq
        · refine ⟨?_, hcreated⟩
          simp only [update_self]
          omega
        · exact hidle' q hq
    · exact ⟨hcreated', hlists.idle_nodup, hidle', hfree'⟩

theorem derefLine_lists
    {x : Object} (hx : x ∈ objects) : (h.derefLine t x.1).Lists t scavenging created := by
  obtain ⟨page, n, hline, hn, hpos, hlt, hused⟩ := hcounts.exists_line hx
  simp only [derefLine_spec hline hn hpos hlt]
  split
  · exact deallocateLine_lists hcounts hlists hused _
  · exact ⟨hlists.used_created, hlists.idle_nodup, hlists.idle, hlists.freeLines⟩

end

end LineHeap

structure LineSystem.Inv (t : LineTraits) (s : LineSystem) : Prop where
  counts : s.heap.Counts t s.outstanding
  lists : s.heap.Lists t s.scavenging s.created

namespace LineSystem

theorem inv_initial : (initial).Inv t where
  counts := by
    refine ⟨by simp [outstanding, initial], by simp [outstanding, initial], fun _ => rfl,
      fun _ => by simp [initial, LineHeap.initial], fun page => ?_⟩
    simp [initial, LineHeap.initial, usedLines]
  lists := by
    constructor <;> simp [initial, LineHeap.initial]

/-- An allocation moves the first object of a range to its client. -/
theorem objects_allocate {range range' : BumpRange} {object : Nat}
    (halloc : range.allocate c = some (object, range')) :
    range.objects c = (object, c) :: range'.objects c := by
  rw [BumpRange.allocate] at halloc
  split at halloc
  · simp at halloc
  · rename_i hcount
    obtain ⟨rfl, rfl⟩ := Prod.mk.inj (Option.some.inj halloc)
    obtain ⟨n, hn⟩ := Nat.exists_eq_succ_of_ne_zero hcount
    rw [BumpRange.objects, BumpRange.objects, hn, range_succ_eq_map]
    simp only [map_cons, map_map, zero_mul, add_zero, Nat.succ_sub_one]
    refine congrArg _ (map_congr_left fun i _ => ?_)
    simp only [comp_apply, Nat.succ_mul, Prod.mk.injEq, and_true]
    omega

theorem inv_step {s s' : LineSystem} {event : LineEvent} (hinv : s.Inv t)
    (hstep : Step t s event s') : s'.Inv t := by
  obtain ⟨hcounts, hlists⟩ := hinv
  cases hstep with
  | @refill c chunk ranges heap hserves hfresh hrefill =>
    obtain ⟨ranges', heap', hrefill', _, _, hcounts', hlists'⟩ :=
      refillBumpRangeCache_spec hcounts hlists hserves hfresh
    obtain ⟨rfl, rfl⟩ := Prod.mk.inj (Option.some.inj (hrefill'.symm.trans hrefill))
    refine ⟨hcounts'.perm ?_, hlists'⟩
    simp only [outstanding, flatMap_append, flatMap_map, append_assoc]
    exact perm_append_comm.append_left _
  | @allocate c object range range' hrange halloc =>
    refine ⟨hcounts.perm ?_, hlists⟩
    have hranges := (perm_cons_erase hrange).flatMap_right
      fun x : Nat × BumpRange => x.2.objects x.1
    simp only [flatMap_cons, objects_allocate halloc] at hranges
    exact (hranges.append_left s.allocated).trans perm_middle
  | @free object hobj =>
    have hmem : object ∈ s.outstanding := mem_append_left _ hobj
    refine ⟨?_, derefLine_lists hcounts hlists hmem⟩
    have hfreed := derefLine_counts hcounts hmem
    rwa [outstanding, erase_append_left _ hobj] at hfreed
  | @scavengeBegin page rest hpages =>
    refine ⟨hcounts.congr rfl rfl fun _ _ => rfl, ?_⟩
    have hperm : (s.heap.pages ++ s.heap.vmPages ++ s.scavenging).Perm
        (rest ++ s.heap.vmPages ++ (page :: s.scavenging)) := by
      rw [hpages, cons_append, cons_append]
      exact perm_middle.symm
    refine ⟨hlists.used_created, hperm.nodup_iff.mp hlists.idle_nodup, fun q hq => ?_,
      hlists.freeLines⟩
    exact hlists.idle q (hperm.mem_iff.mpr hq)
  | @scavengeEnd page hpage =>
    refine ⟨hcounts.congr rfl rfl fun _ _ => rfl, ?_⟩
    have hperm : (s.heap.pages ++ s.heap.vmPages ++ s.scavenging).Perm
        (s.heap.pages ++ (page :: s.heap.vmPages) ++ s.scavenging.erase page) := by
      rw [append_assoc, append_assoc, cons_append]
      refine List.Perm.append_left _ ?_
      exact ((perm_cons_erase hpage).append_left _).trans perm_middle
    refine ⟨hlists.used_created, hperm.nodup_iff.mp hlists.idle_nodup, fun q hq => ?_,
      hlists.freeLines⟩
    exact hlists.idle q (hperm.mem_iff.mpr hq)
  | @grow chunk hfresh =>
    exact ⟨hcounts.congr rfl rfl fun _ _ => rfl, hlists.grow hfresh⟩

theorem inv_run {s : LineSystem} {events : List LineEvent}
    (hrun : Transition.Run (Step t) initial events s) : s.Inv t :=
  hrun.preserves (fun _ _ _ hinv hstep => inv_step hinv hstep) inv_initial

end LineSystem

/-- Two objects share no byte. -/
def Object.Apart (x y : Object) : Prop :=
  x.1 + objectSize x.2 ≤ y.1 ∨ y.1 + objectSize y.2 ≤ x.1

/-- The objects in the ranges and those handed out are disjoint, lie in one page of their
size class at multiples of their size, and are counted in the line they start in; and the
page of every refill has room for an object. -/
structure LineSystem.Sound (t : LineTraits) (s : LineSystem) : Prop where
  disjoint : s.outstanding.Pairwise Object.Apart
  inPage : ∀ x ∈ s.outstanding, s.heap.pageSizeClass (x.1 / t.pageSize) = x.2 ∧
    x.1 % t.pageSize + objectSize x.2 ≤ t.pageSize
  multiple : ∀ x ∈ s.outstanding, objectSize x.2 ∣ x.1 % t.pageSize
  counted : ∀ line,
    s.heap.lineRefCount line = s.outstanding.countP fun x => x.1 / t.lineSize = line
  refills : ∀ c chunk, t.Serves c → FreshChunk s.created chunk →
    ∃ page heap, s.heap.allocatePage c chunk = some (page, heap) ∧
      ∃ range ∈ (scanLines t page c heap none 0
        ((t.lineMetadata c).take (t.usableLines c))).1, 0 < range.objectCount

namespace LineSystem

theorem object_mod {i : Nat} (hc : t.Serves c) (hfits : t.Fits c i) :
    (t.object page c i).1 % t.pageSize = i * objectSize c := by
  rw [LineTraits.object, Nat.mul_add_mod_self_right, Nat.mod_eq_of_lt (hfits.lt_pageSize hc)]

theorem object_apart {page page' c' i i' : Nat} (hfits : t.Fits c i) (hfits' : t.Fits c' i')
    (hclass : page = page' → c = c')
    (hne : (t.object page c i).1 ≠ (t.object page' c' i').1) :
    Object.Apart (t.object page c i) (t.object page' c' i') := by
  have hsucc : (i + 1) * objectSize c = i * objectSize c + objectSize c := Nat.succ_mul _ _
  have hsucc' : (i' + 1) * objectSize c' = i' * objectSize c' + objectSize c' := Nat.succ_mul _ _
  rw [LineTraits.Fits, hsucc] at hfits
  rw [LineTraits.Fits, hsucc'] at hfits'
  simp only [Object.Apart, LineTraits.object] at hne ⊢
  rcases Nat.lt_trichotomy page page' with hlt | rfl | hlt
  · have := Nat.mul_le_mul_right t.pageSize hlt
    rw [Nat.succ_mul] at this
    omega
  · obtain rfl := hclass rfl
    rcases Nat.lt_trichotomy i i' with hi | rfl | hi
    · have hle : (i + 1) * objectSize c ≤ i' * objectSize c := Nat.mul_le_mul_right _ hi
      omega
    · exact absurd rfl hne
    · have hle : (i' + 1) * objectSize c ≤ i * objectSize c := Nat.mul_le_mul_right _ hi
      omega
  · have := Nat.mul_le_mul_right t.pageSize hlt
    rw [Nat.succ_mul] at this
    omega

theorem sound_of_inv {s : LineSystem} (hinv : s.Inv t) : s.Sound t := by
  obtain ⟨hcounts, hlists⟩ := hinv
  refine ⟨?_, ?_, ?_, hcounts.lineRefCount, ?_⟩
  · have hnodup : s.outstanding.Pairwise fun x y => x.1 ≠ y.1 := pairwise_map.mp hcounts.nodup
    refine hnodup.imp_of_mem ?_
    intro x y hx hy hne
    obtain ⟨_, page, i, hobj, hfits, hclass⟩ := hcounts.placed x hx
    obtain ⟨_, page', i', hobj', hfits', hclass'⟩ := hcounts.placed y hy
    rw [hobj, hobj'] at hne ⊢
    refine object_apart hfits hfits' (fun heq => ?_) hne
    rw [← hclass, ← hclass', heq]
  · intro x hx
    obtain ⟨hserves, page, i, hobj, hfits, hclass⟩ := hcounts.placed x hx
    have hpage : x.1 / t.pageSize = page := by
      rw [hobj]
      exact object_page hserves hfits
    have hmod : x.1 % t.pageSize = i * objectSize x.2 := by
      rw [hobj]
      exact object_mod hserves hfits
    rw [hpage, hmod]
    refine ⟨hclass, ?_⟩
    rw [← Nat.succ_mul]
    exact hfits
  · intro x hx
    obtain ⟨hserves, page, i, hobj, hfits, _⟩ := hcounts.placed x hx
    have hmod : x.1 % t.pageSize = i * objectSize x.2 := by
      rw [hobj]
      exact object_mod hserves hfits
    rw [hmod]
    exact Nat.dvd_mul_left _ _
  · intro c chunk hserves hfresh
    obtain ⟨page, heap, hpage, hcounts', hlists', hclass, hlt, hcreated, hidle, hfree⟩ :=
      allocatePage_spec hcounts hlists hserves hfresh
    obtain ⟨ranges, _, hscan, hne, hpos, _⟩ :=
      scanAllocated_spec hcounts' hlists' hserves hclass hlt hcreated hidle hfree
    obtain ⟨range, hrange⟩ := exists_mem_of_ne_nil ranges hne
    exact ⟨page, heap, hpage, range, by rwa [hscan], hpos range hrange⟩

end LineSystem

/-- After every run, the objects that are outstanding are disjoint and counted. -/
theorem outstanding_sound (t : LineTraits) {events : List LineEvent} {s : LineSystem}
    (hrun : Transition.Run (LineSystem.Step t) .initial events s) : s.Sound t :=
  LineSystem.sound_of_inv (LineSystem.inv_run hrun)

/-- A refill of 256-byte objects from a chunk of two pages, one allocation, and its free. -/
theorem outstanding_sound_refill : ∃ s, Transition.Run (LineSystem.Step smallTraits) .initial
      [.refill 31 [7, 8], .allocate 31 ⟨32768, 16⟩, .free (32768, 31)] s ∧
    s.outstanding.length = 15 ∧ s.Sound smallTraits := by
  have hrun : ∃ s, Transition.Run (LineSystem.Step smallTraits) .initial
      [.refill 31 [7, 8], .allocate 31 ⟨32768, 16⟩, .free (32768, 31)] s ∧
      s.outstanding.length = 15 := by
    refine ⟨_, .cons (.refill (by decide) (by simp [FreshChunk, LineSystem.initial]) rfl)
      (.cons (.allocate (by decide) rfl) (.single (.free (by decide)))), ?_⟩
    decide
  obtain ⟨s, hrun, hlength⟩ := hrun
  exact ⟨s, hrun, hlength, outstanding_sound smallTraits hrun⟩

end WebKit.Bmalloc
