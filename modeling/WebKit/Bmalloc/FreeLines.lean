import WebKit.Bmalloc.LineRun

/-!
# Which free lines a refill can find

`deallocateLine` lists a page when it sees its reference count at `lineCount`, that is,
when every line of the page was in use. A size class whose objects never start in the last
line of a page (`usableLines` is one less) never gets that far: a page of such a class is
not listed, whatever is freed in it, until its last object is gone.

`LineHeap.Listed` is the invariant: in the other classes, a page in use that is not full is
listed. A refill fills the page it takes off the list (`scanLines_fills`), so a page leaves
the list only when it has no free line left.
-/

namespace WebKit.Bmalloc

open LineTraits LineHeap Function List Option

/-- The last line of a page can hold an object of the size class. -/
def LineTraits.LastLineHolds (t : LineTraits) (sizeClass : Nat) : Prop :=
  ∃ md, (t.lineMetadata sizeClass)[t.lineCount - 1]? = some md ∧ md.objectCount ≠ 0

/-- A line of the page is free and can hold an object of the page's size class. -/
def LineHeap.HasFreeLine (t : LineTraits) (h : LineHeap) (page : Nat) : Prop :=
  ∃ lineNumber md, (t.lineMetadata (h.pageSizeClass page))[lineNumber]? = some md ∧
    md.objectCount ≠ 0 ∧ h.lineRefCount (page * t.lineCount + lineNumber) = 0

/-- Every page in use with a free line is where a refill looks for it. -/
def LineHeap.FreeLinesListed (t : LineTraits) (h : LineHeap) : Prop :=
  ∀ page, h.pageRefCount page ≠ 0 → h.HasFreeLine t page →
    page ∈ h.pagesWithFreeLines (h.pageSizeClass page)

structure LineHeap.Listed (t : LineTraits) (h : LineHeap) : Prop where
  listed : ∀ page, h.pageRefCount page ≠ 0 → h.pageRefCount page < t.lineCount →
    t.usableLines (h.pageSizeClass page) = t.lineCount →
      page ∈ h.pagesWithFreeLines (h.pageSizeClass page)
  unlisted : ∀ c, t.usableLines c ≠ t.lineCount → h.pagesWithFreeLines c = []

variable {t : LineTraits} {h : LineHeap} {objects : List Object} {page c : Nat}
  {scavenging created chunk : List Nat}

namespace LineTraits

theorem lastLineHolds_iff (t : LineTraits) (c : Nat) :
    t.LastLineHolds c ↔ t.usableLines c = t.lineCount := by
  have htwo := t.two_le_lineCount
  have hlen : (t.lineMetadata c).length = t.lineCount := by
    rw [lineMetadata, length_lineMetadataFrom]
    omega
  obtain ⟨md, hmd⟩ : ∃ md, (t.lineMetadata c)[t.lineCount - 1]? = some md :=
    ⟨_, getElem?_eq_getElem (by omega)⟩
  simp only [LastLineHolds, usableLines, hmd, map_some, some.injEq, exists_eq_left']
  split <;> omega

theorem lt_usableLines_of_holds (hc : t.Serves c) {n : Nat} {md : LineMetadata}
    (hmd : (t.lineMetadata c)[n]? = some md) (hcount : md.objectCount ≠ 0) :
    n < t.usableLines c := by
  have htwo := t.two_le_lineCount
  have hlt : n < t.lineCount := by
    have hlen := (List.getElem?_eq_some_iff.mp hmd).1
    rw [lineMetadata, length_lineMetadataFrom] at hlen
    omega
  obtain ⟨md', hmd', _, hfirst⟩ := lineMetadata_spec hc hlt
  rw [hmd, some.injEq] at hmd'
  subst hmd'
  exact lt_usableLines hc hlt le_rfl (by omega)

end LineTraits

namespace LineHeap

theorem refLine_lineRefCount_ne_zero {n k count : Nat} (hcount : count % 256 ≠ 0)
    (hk : h.lineRefCount (page * t.lineCount + k) ≠ 0 ∨ k = n) :
    (h.refLine t page n count).lineRefCount (page * t.lineCount + k) ≠ 0 := by
  simp only [refLine, update_apply]
  split
  · exact hcount
  · rename_i hne
    exact hk.resolve_right fun heq => hne (by rw [heq])

theorem scanLines_fills (hc : t.Serves c) (mds : List LineMetadata) :
    ∀ (n : Nat) (h : LineHeap) (range : Option BumpRange),
      mds = ((t.lineMetadata c).take (t.usableLines c)).drop n →
      (∀ k < n, h.lineRefCount (page * t.lineCount + k) ≠ 0) →
      ∀ k < t.usableLines c,
        (scanLines t page c h range n mds).2.lineRefCount (page * t.lineCount + k) ≠ 0 := by
  induction mds with
  | nil =>
    intro n h range hmds hbef k hk
    have hlen := congrArg length hmds
    rw [length_drop, length_usableMetadata, length_nil] at hlen
    simpa [scanLines] using hbef k (by omega)
  | cons md rest ih =>
    intro n h range hmds hbef
    obtain ⟨hn, hrest, _, hcount⟩ := usableMetadata_cons hc hmds
    -- The line is in use already, or it is taken.
    have hbusy : h.lineRefCount (page * t.lineCount + n) ≠ 0 →
        ∀ k < n + 1, h.lineRefCount (page * t.lineCount + k) ≠ 0 := by
      intro hline k hk
      rcases Nat.lt_succ_iff_lt_or_eq.mp hk with hlt | rfl
      · exact hbef k hlt
      · exact hline
    have htaken : ∀ k < n + 1,
        (h.refLine t page n md.objectCount).lineRefCount (page * t.lineCount + k) ≠ 0 := by
      have hlt := hn.trans_le (usableLines_le_lineCount t c)
      have hpos := firstObject_lt_of_usable hc hn
      have hbyte := objectCount_lt hc hlt
      intro k hk
      refine refLine_lineRefCount_ne_zero (by omega) ?_
      exact (Nat.lt_succ_iff_lt_or_eq.mp hk).imp (hbef k) id
    cases range with
    | none =>
      rw [scanLines]
      split
      · exact ih (n + 1) h none hrest (hbusy ‹_›)
      · exact ih (n + 1) _ _ hrest htaken
    | some range =>
      rw [scanLines]
      split
      · exact ih (n + 1) h none hrest (hbusy ‹_›)
      · exact ih (n + 1) _ _ hrest htaken

theorem Counts.le_pageRefCount (hcounts : h.Counts t objects)
    (hfull : ∀ k < t.usableLines c, h.lineRefCount (page * t.lineCount + k) ≠ 0) :
    t.usableLines c ≤ h.pageRefCount page := by
  by_contra hlt
  obtain ⟨k, hk, hfree⟩ := hcounts.exists_free_line (Nat.lt_of_not_le hlt)
  exact hfull k hk hfree

/-- The entries that are passed over are not of this class, or promoted: a page in use of
the class is the one returned or stays in the list. -/
theorem popPageWithFreeLines_keeps {q : Nat} (hused : h.pageRefCount q ≠ 0)
    (hclass : h.pageSizeClass q = c) (list : List Nat) (hq : q ∈ list) :
    (h.popPageWithFreeLines c list).1 = some q ∨ q ∈ (h.popPageWithFreeLines c list).2 := by
  induction list with
  | nil => simp at hq
  | cons page rest ih =>
    rw [popPageWithFreeLines]
    rcases mem_cons.mp hq with rfl | hq
    · rw [if_neg (by simp [hused, hclass])]
      exact .inl rfl
    · split
      · exact ih hq
      · exact .inr hq

theorem allocatePage_listed (hlisted : h.Listed t) (hlists : h.Lists t scavenging created)
    (hfresh : FreshChunk created chunk) {h' : LineHeap}
    (halloc : h.allocatePage c chunk = some (page, h')) :
    (∀ q ≠ page, h'.pageRefCount q ≠ 0 → h'.pageRefCount q < t.lineCount →
      t.usableLines (h'.pageSizeClass q) = t.lineCount →
        q ∈ h'.pagesWithFreeLines (h'.pageSizeClass q)) ∧
      ∀ d, t.usableLines d ≠ t.lineCount → h'.pagesWithFreeLines d = [] := by
  have hunlisted : ∀ rest : List Nat, (h.pagesWithFreeLines c = [] → rest = []) →
      ∀ d, t.usableLines d ≠ t.lineCount → update h.pagesWithFreeLines c rest d = [] := by
    intro rest hrest d hd
    rw [update_apply]
    split
    · rename_i heq
      exact hrest (heq ▸ hlisted.unlisted d hd)
    · exact hlisted.unlisted d hd
  have hkeeps : ∀ q, (h.popPageWithFreeLines c (h.pagesWithFreeLines c)).1 ≠ some q →
      h.pageRefCount q ≠ 0 → h.pageRefCount q < t.lineCount →
      t.usableLines (h.pageSizeClass q) = t.lineCount → q ∈ update h.pagesWithFreeLines c
          (h.popPageWithFreeLines c (h.pagesWithFreeLines c)).2 (h.pageSizeClass q) := by
    intro q hne hused hlt husable
    have hmem := hlisted.listed q hused hlt husable
    rw [update_apply]
    split
    · rename_i heq
      rw [heq] at hmem
      exact (popPageWithFreeLines_keeps hused heq _ hmem).resolve_left hne
    · exact hmem
  rcases popPageWithFreeLines_spec (h := h) (c := c) (h.pagesWithFreeLines c) with
    ⟨page', pre, rest, hpop, hlist, _, _⟩ | hpop
  · rw [hpop] at hkeeps
    simp only [allocatePage, hpop, some.injEq, Prod.mk.injEq] at halloc
    obtain ⟨rfl, rfl⟩ := halloc
    refine ⟨fun q hne => hkeeps q (by simpa using Ne.symm hne), hunlisted rest ?_⟩
    intro hnil
    rw [hnil] at hlist
    simp at hlist
  · rw [hpop] at hkeeps
    have hempty : { h with
        pagesWithFreeLines := update h.pagesWithFreeLines c [] }.Lists t scavenging created := by
      refine ⟨hlists.used_created, hlists.idle_nodup, hlists.idle, ?_⟩
      intro d q hq hqclass hqused
      simp only [update_apply] at hq ⊢
      split at hq
      · simp at hq
      · rename_i hd
        rw [if_neg hd]
        exact hlists.freeLines d q hq hqclass hqused
    obtain ⟨page', h1, htake, _, _, _, _, _, hcount, hsizeClass, hfree⟩ :=
      takeFreePage_spec hempty hfresh
    simp only [allocatePage, hpop, htake, map_some, some.injEq, Prod.mk.injEq] at halloc
    obtain ⟨rfl, rfl⟩ := halloc
    refine ⟨fun q hne => ?_, ?_⟩
    · simp only [setSizeClass, update_of_ne hne, hcount, hsizeClass, hfree]
      exact hkeeps q (by simp)
    · simp only [setSizeClass, hfree]
      exact hunlisted [] fun _ => rfl

section

variable (hlisted : h.Listed t) (hcounts : h.Counts t objects)
include hlisted hcounts

theorem refillBumpRangeCache_listed (hlists : h.Lists t scavenging created) (hc : t.Serves c)
    (hfresh : FreshChunk created chunk) {ranges : List BumpRange} {h' : LineHeap}
    (hrefill : h.refillBumpRangeCache t c chunk = some (ranges, h')) : h'.Listed t := by
  obtain ⟨page, h1, halloc, hcounts1, hlists1, hclass, hlt, hcreated, hidle, hfree⟩ :=
    allocatePage_spec hcounts hlists hc hfresh
  obtain ⟨hothers, hunlisted⟩ := allocatePage_listed hlisted hlists hfresh halloc
  set mds := (t.lineMetadata c).take (t.usableLines c) with hmds
  obtain ⟨hcounts2, _⟩ := scanLines_counts hc mds 0 h1 none objects (by rw [drop_zero])
    hclass (by simp) (by simpa using hcounts1)
  obtain ⟨hclasses, hlines, _, _, hframe⟩ := scanLines_frame t page c 0 h1 none mds
  have hfull := hcounts2.le_pageRefCount (c := c)
    (scanLines_fills hc mds 0 h1 none (by rw [drop_zero]) (by simp))
  simp only [refillBumpRangeCache, halloc, map_some, some.injEq] at hrefill
  have hheap := congrArg Prod.snd hrefill
  dsimp only at hheap
  rw [hheap] at hclasses hlines hframe hfull
  refine ⟨fun q hused hqlt husable => ?_, fun d hd => ?_⟩
  · -- The scanned page is full; no other page changed.
    by_cases hq : q = page
    · subst hq
      rw [hclasses, hclass] at husable
      omega
    · rw [hframe q hq] at hused hqlt
      rw [hclasses] at husable ⊢
      rw [hlines]
      exact hothers q hq hused hqlt husable
  · rw [hlines]
    exact hunlisted d hd

theorem deallocateLine_listed (hused : h.pageRefCount page ≠ 0) (lines : Nat → Nat) :
    ({ h with lineRefCount := lines }.deallocateLine t page).Listed t := by
  have hle : h.pageRefCount page ≤ t.usableLines (h.pageSizeClass page) := hcounts.pageRefCount_le
  have husable := usableLines_le_lineCount t (h.pageSizeClass page)
  have hbound := t.lineCount_lt
  have hmod : (h.pageRefCount page + 255) % 256 = h.pageRefCount page - 1 := by omega
  simp only [deallocateLine, hmod]
  split
  · refine ⟨fun q hq hlt hclass => ?_, fun d hd => ?_⟩
    · by_cases hqp : q = page
      · subst hqp
        simp
      · simp only [update_of_ne hqp] at hq hlt
        have hmem := hlisted.listed q hq hlt hclass
        simp only [update_apply]
        split
        · rename_i heq
          rw [heq] at hmem
          exact mem_cons_of_mem _ hmem
        · exact hmem
    · have hne : d ≠ h.pageSizeClass page := by
        rintro rfl
        omega
      simp only [update_of_ne hne]
      exact hlisted.unlisted d hd
  · -- The page was listed when its first line became free.
    have hkept : ∀ q, update h.pageRefCount page (h.pageRefCount page - 1) q ≠ 0 →
        update h.pageRefCount page (h.pageRefCount page - 1) q < t.lineCount →
        t.usableLines (h.pageSizeClass q) = t.lineCount →
          q ∈ h.pagesWithFreeLines (h.pageSizeClass q) := by
      intro q hq hlt hclass
      by_cases hqp : q = page
      · subst hqp
        exact hlisted.listed q hused (by omega) hclass
      · rw [update_of_ne hqp] at hq hlt
        exact hlisted.listed q hq hlt hclass
    split <;> exact ⟨hkept, hlisted.unlisted⟩

theorem derefLine_listed {x : Object}
    (hx : x ∈ objects) : (h.derefLine t x.1).Listed t := by
  obtain ⟨page, n, hline, hn, hpos, hlt, hused⟩ := hcounts.exists_line hx
  simp only [derefLine_spec hline hn hpos hlt]
  split
  · exact deallocateLine_listed hlisted hcounts hused _
  · exact ⟨hlisted.listed, hlisted.unlisted⟩

end

theorem Counts.serves (hcounts : h.Counts t objects) (hused : h.pageRefCount page ≠ 0) :
    t.Serves (h.pageSizeClass page) := by
  rw [hcounts.pageRefCount, Finset.card_ne_zero] at hused
  obtain ⟨n, hn⟩ := hused
  obtain ⟨hlt, hline⟩ := mem_usedLines.mp hn
  obtain ⟨_, hserves, _⟩ := hcounts.exists_object hlt hline
  exact hserves

theorem Listed.mem_iff (hlisted : h.Listed t) (hcounts : h.Counts t objects)
    (hused : h.pageRefCount page ≠ 0) (hfree : h.HasFreeLine t page) :
    page ∈ h.pagesWithFreeLines (h.pageSizeClass page) ↔
      t.LastLineHolds (h.pageSizeClass page) := by
  obtain ⟨n, md, hmd, hcount, hline⟩ := hfree
  have hn := lt_usableLines_of_holds (hcounts.serves hused) hmd hcount
  rw [lastLineHolds_iff]
  constructor
  · intro hmem
    by_contra hne
    rw [hlisted.unlisted _ hne] at hmem
    exact not_mem_nil hmem
  · intro hall
    refine hlisted.listed page hused ?_ hall
    have hsub : h.usedLines t page ⊆ (Finset.range t.lineCount).erase n := by
      intro k hk
      obtain ⟨hlt, hbusy⟩ := mem_usedLines.mp hk
      refine Finset.mem_erase.mpr ⟨?_, Finset.mem_range.mpr hlt⟩
      rintro rfl
      exact hbusy hline
    have hcard := Finset.card_le_card hsub
    rw [Finset.card_erase_of_mem (Finset.mem_range.mpr (by omega)), Finset.card_range,
      ← hcounts.pageRefCount] at hcard
    omega

end LineHeap

namespace LineSystem

theorem listed_initial : (initial).heap.Listed t where
  listed _ hused := absurd rfl hused
  unlisted _ _ := rfl

theorem listed_step {s s' : LineSystem} {event : LineEvent} (hinv : s.Inv t)
    (hlisted : s.heap.Listed t) (hstep : Step t s event s') : s'.heap.Listed t := by
  cases hstep with
  | refill hserves hfresh hrefill =>
    exact refillBumpRangeCache_listed hlisted hinv.counts hinv.lists hserves hfresh hrefill
  | allocate hrange halloc => exact hlisted
  | free hobj =>
    exact derefLine_listed hlisted hinv.counts (mem_append_left _ hobj)
  | scavengeBegin | scavengeEnd | grow => exact ⟨hlisted.listed, hlisted.unlisted⟩

theorem listed_run {s : LineSystem} {events : List LineEvent}
    (hrun : Transition.Run (Step t) initial events s) : s.Inv t ∧ s.heap.Listed t := by
  refine hrun.preserves (I := fun s => s.Inv t ∧ s.heap.Listed t) ?_ ⟨inv_initial, listed_initial⟩
  rintro s event s' ⟨hinv, hlisted⟩ hstep
  exact ⟨inv_step hinv hstep, listed_step hinv hlisted hstep⟩

end LineSystem

/-- After every run, a page in use with a free line is listed exactly if the last line of a
page can hold an object of its size class. -/
theorem mem_pagesWithFreeLines_iff (t : LineTraits) {events : List LineEvent} {s : LineSystem}
    (hrun : Transition.Run (LineSystem.Step t) .initial events s) {page : Nat}
    (hused : s.heap.pageRefCount page ≠ 0) (hfree : s.heap.HasFreeLine t page) :
    page ∈ s.heap.pagesWithFreeLines (s.heap.pageSizeClass page) ↔
      t.LastLineHolds (s.heap.pageSizeClass page) := by
  obtain ⟨hinv, hlisted⟩ := LineSystem.listed_run hrun
  exact hlisted.mem_iff hinv.counts hused hfree

/-- Sixteen objects of 256 bytes fill a page; the free of the first one lists it. -/
theorem mem_pagesWithFreeLines_iff_smallMax : ∃ s,
    Transition.Run (LineSystem.Step smallTraits) .initial
      [.refill 31 [7, 8], .allocate 31 ⟨32768, 16⟩, .free (32768, 31)] s ∧
    s.heap.pageRefCount 8 = 15 ∧ s.heap.HasFreeLine smallTraits 8 ∧
    (8 ∈ s.heap.pagesWithFreeLines (s.heap.pageSizeClass 8) ↔
      smallTraits.LastLineHolds (s.heap.pageSizeClass 8)) := by
  have hrun : ∃ s, Transition.Run (LineSystem.Step smallTraits) .initial
      [.refill 31 [7, 8], .allocate 31 ⟨32768, 16⟩, .free (32768, 31)] s ∧
      s.heap.pageRefCount 8 = 15 ∧ s.heap.HasFreeLine smallTraits 8 := by
    refine ⟨_, .cons (.refill (by decide) (by simp [FreshChunk, LineSystem.initial]) rfl)
      (.cons (.allocate (by decide) rfl) (.single (.free (by decide)))), rfl, 0, ⟨0, 1⟩, ?_⟩
    decide
  obtain ⟨s, hrun, hcount, hfree⟩ := hrun
  refine ⟨s, hrun, hcount, hfree, ?_⟩
  exact mem_pagesWithFreeLines_iff smallTraits hrun (by rw [hcount]; decide) hfree

/-- Sixteen objects of 248 bytes start in the first fifteen lines of a page. When the
second of two freed objects leaves line 0 without objects, the page is not listed. -/
theorem not_freeLinesListed : ¬ ∀ events s,
    Transition.Run (LineSystem.Step smallTraits) .initial events s →
      s.heap.FreeLinesListed smallTraits := by
  intro h
  have hrun : ∃ s, Transition.Run (LineSystem.Step smallTraits) .initial
      [.refill 30 [7, 8], .allocate 30 ⟨32768, 16⟩, .allocate 30 ⟨33016, 15⟩,
        .free (32768, 30), .free (33016, 30)] s ∧
      s.heap.pageRefCount 8 = 14 ∧ s.heap.pagesWithFreeLines (s.heap.pageSizeClass 8) = [] ∧
      s.heap.HasFreeLine smallTraits 8 := by
    refine ⟨_, .cons (.refill (by decide) (by simp [FreshChunk, LineSystem.initial]) rfl)
      (.cons (.allocate (by decide) rfl) (.cons (.allocate (by decide) rfl)
        (.cons (.free (by decide)) (.single (.free (by decide)))))), ?_⟩
    refine ⟨by decide +kernel, by decide +kernel, 0, ⟨0, 2⟩, ?_⟩
    decide +kernel
  obtain ⟨s, hrun, hcount, hempty, hfree⟩ := hrun
  have hmem := h _ s hrun 8 (by rw [hcount]; decide) hfree
  rw [hempty] at hmem
  exact not_mem_nil hmem

end WebKit.Bmalloc
