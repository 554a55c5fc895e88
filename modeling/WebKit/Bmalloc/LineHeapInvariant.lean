import Mathlib.Data.Finset.Card
import Mathlib.Data.List.Range
import Mathlib.Tactic.Ring
import WebKit.Bmalloc.LineHeap

/-!
# The counters count the outstanding objects

`LineHeap.Counts` relates the counters of a heap to a list of objects: every object sits
at a multiple of its size in a page of its size class, a line counts the objects that
start in it, and a page counts the lines that are in use. Taking a free line adds the
objects that start in it (`refLine_counts`), which the scan of a page repeats
(`scanLines_counts`); freeing an object removes it (`derefLine_counts`).
-/

namespace WebKit.Bmalloc

open Function List

/-- The object numbered `i` of a page. -/
def LineTraits.object (t : LineTraits) (page sizeClass i : Nat) : Object :=
  (page * t.pageSize + i * objectSize sizeClass, sizeClass)

/-- The objects that start in a line of a page. -/
def LineTraits.lineObjects (t : LineTraits) (page sizeClass lineNumber : Nat) : List Object :=
  (List.range' (t.firstObject sizeClass lineNumber)
    (t.firstObject sizeClass (lineNumber + 1) - t.firstObject sizeClass lineNumber)).map
      (t.object page sizeClass)

/-- The lines of a page that are in use. -/
def LineHeap.usedLines (t : LineTraits) (h : LineHeap) (page : Nat) : Finset Nat :=
  (Finset.range t.lineCount).filter fun n => h.lineRefCount (page * t.lineCount + n) ≠ 0

structure LineHeap.Counts (t : LineTraits) (h : LineHeap) (objects : List Object) : Prop where
  placed : ∀ x ∈ objects, t.Serves x.2 ∧ ∃ page i,
    x = t.object page x.2 i ∧ t.Fits x.2 i ∧ h.pageSizeClass page = x.2
  nodup : (objects.map Prod.fst).Nodup
  lineRefCount : ∀ line,
    h.lineRefCount line = objects.countP fun x => x.1 / t.lineSize = line
  lineRefCount_lt : ∀ line, h.lineRefCount line < 256
  pageRefCount : ∀ page, h.pageRefCount page = (h.usedLines t page).card

variable {t : LineTraits} {h : LineHeap} {objects : List Object} {page c : Nat}

/-! ## Addresses -/

variable {n : Nat}

namespace LineTraits

theorem pageSize_pos (hc : t.Serves c) : 0 < t.pageSize := by
  have := t.two_le_lineCount
  exact Nat.mul_pos hc.lineSize_pos (by omega)

section

variable {i : Nat} (hc : t.Serves c)
include hc

theorem Fits.lt_pageSize (hfits : t.Fits c i) :
    i * objectSize c < t.pageSize := by
  have hpos := hc.pos
  have hsucc : (i + 1) * objectSize c = i * objectSize c + objectSize c := Nat.succ_mul _ _
  rw [Fits] at hfits
  omega

theorem object_page (hfits : t.Fits c i) :
    (t.object page c i).1 / t.pageSize = page := by
  have hlt := hfits.lt_pageSize hc
  rw [object, mul_comm page, Nat.mul_add_div (pageSize_pos hc), Nat.div_eq_of_lt hlt]
  omega

theorem object_line : (t.object page c i).1 / t.lineSize =
      page * t.lineCount + i * objectSize c / t.lineSize := by
  have hpage : page * t.pageSize = t.lineSize * (page * t.lineCount) := by
    rw [pageSize]
    ring
  rw [object, hpage, Nat.mul_add_div hc.lineSize_pos]

theorem object_lineNumber_lt (hfits : t.Fits c i) :
    i * objectSize c / t.lineSize < t.lineCount := by
  rw [Nat.div_lt_iff_lt_mul hc.lineSize_pos, mul_comm t.lineCount]
  exact hfits.lt_pageSize hc

end

theorem line_inj {page page' n n' : Nat} (hn : n < t.lineCount) (hn' : n' < t.lineCount)
    (heq : page * t.lineCount + n = page' * t.lineCount + n') : page = page' ∧ n = n' := by
  have hpage : page = page' := by
    have hpos : 0 < t.lineCount := by omega
    have hdiv := congrArg (· / t.lineCount) heq
    simp only [mul_comm _ t.lineCount, Nat.mul_add_div hpos, Nat.div_eq_of_lt hn,
      Nat.div_eq_of_lt hn'] at hdiv
    exact hdiv
  subst hpage
  exact ⟨rfl, by omega⟩

theorem mem_lineObjects (hc : t.Serves c) (hn : n < t.lineCount) {x : Object} :
    x ∈ t.lineObjects page c n ↔
      ∃ i, x = t.object page c i ∧ i * objectSize c / t.lineSize = n ∧ t.Fits c i := by
  simp only [lineObjects, mem_map, mem_range'_1]
  constructor
  · rintro ⟨i, ⟨hlow, hhigh⟩, rfl⟩
    exact ⟨i, rfl, (startsIn_iff hc hn).mp ⟨hlow, by omega⟩⟩
  · rintro ⟨i, rfl, hi⟩
    obtain ⟨hlow, hhigh⟩ := (startsIn_iff hc hn).mpr hi
    exact ⟨i, ⟨hlow, by omega⟩, rfl⟩

theorem line_of_mem_lineObjects (hc : t.Serves c) (hn : n < t.lineCount) {x : Object}
    (hx : x ∈ t.lineObjects page c n) : x.1 / t.lineSize = page * t.lineCount + n := by
  obtain ⟨i, rfl, rfl, _⟩ := (mem_lineObjects hc hn).mp hx
  exact object_line hc

theorem length_lineObjects (n : Nat) :
    (t.lineObjects page c n).length = t.firstObject c (n + 1) - t.firstObject c n := by
  simp [lineObjects]

theorem nodup_lineObjects (hc : t.Serves c) (n : Nat) :
    ((t.lineObjects page c n).map Prod.fst).Nodup := by
  rw [lineObjects, map_map]
  refine (nodup_range').map ?_
  intro i j hij
  simp only [object, comp_apply, Nat.add_left_cancel_iff] at hij
  exact Nat.eq_of_mul_eq_mul_right hc.pos hij

end LineTraits

open LineTraits

/-! ## Lines and pages in use -/

namespace LineHeap

theorem mem_usedLines : n ∈ h.usedLines t page ↔
      n < t.lineCount ∧ h.lineRefCount (page * t.lineCount + n) ≠ 0 := by
  simp [usedLines]

namespace Counts

section

variable (hcounts : h.Counts t objects)
include hcounts

theorem perm {objects' : List Object} (hperm : objects.Perm objects') : h.Counts t objects' where
  placed x hx := hcounts.placed x (hperm.mem_iff.mpr hx)
  nodup := (hperm.map Prod.fst).nodup_iff.mp hcounts.nodup
  lineRefCount line := by rw [hcounts.lineRefCount, hperm.countP_eq]
  lineRefCount_lt := hcounts.lineRefCount_lt
  pageRefCount := hcounts.pageRefCount

theorem exists_object (hn : n < t.lineCount) (hline : h.lineRefCount (page * t.lineCount + n) ≠ 0) :
    ∃ i, t.Serves (h.pageSizeClass page) ∧ t.object page (h.pageSizeClass page) i ∈ objects ∧
      t.Fits (h.pageSizeClass page) i ∧ i * objectSize (h.pageSizeClass page) / t.lineSize = n := by
  rw [hcounts.lineRefCount, ← Nat.pos_iff_ne_zero, countP_pos_iff] at hline
  obtain ⟨x, hx, hxline⟩ := hline
  obtain ⟨hserves, page', i, hobj, hfits, hclass⟩ := hcounts.placed x hx
  have hline : x.1 / t.lineSize = page * t.lineCount + n := by simpa using hxline
  rw [hobj, object_line hserves] at hline
  obtain ⟨rfl, rfl⟩ := line_inj (object_lineNumber_lt hserves hfits) hn hline
  rw [hclass]
  exact ⟨i, hserves, hobj ▸ hx, hfits, rfl⟩

theorem usedLines_subset :
    h.usedLines t page ⊆ Finset.range (t.usableLines (h.pageSizeClass page)) := by
  intro n hn
  obtain ⟨hlt, hline⟩ := mem_usedLines.mp hn
  obtain ⟨i, hserves, _, hfits, hi⟩ := hcounts.exists_object hlt hline
  obtain ⟨hlow, hhigh⟩ := (startsIn_iff hserves hlt).mpr ⟨hi, hfits⟩
  exact Finset.mem_range.mpr (lt_usableLines hserves hlt hlow hhigh)

theorem pageRefCount_le : h.pageRefCount page ≤ t.usableLines (h.pageSizeClass page) := by
  rw [hcounts.pageRefCount, ← Finset.card_range (t.usableLines (h.pageSizeClass page))]
  exact Finset.card_le_card hcounts.usedLines_subset

theorem pageRefCount_le_lineCount : h.pageRefCount page ≤ t.lineCount := by
  rw [hcounts.pageRefCount, ← Finset.card_range t.lineCount]
  exact Finset.card_le_card (Finset.filter_subset _ _)

theorem exists_free_line (hlt : h.pageRefCount page < t.usableLines c) :
    ∃ n < t.usableLines c, h.lineRefCount (page * t.lineCount + n) = 0 := by
  by_contra hnone
  have hsub : Finset.range (t.usableLines c) ⊆ h.usedLines t page := by
    intro n hn
    have hn' := Finset.mem_range.mp hn
    have hle := usableLines_le_lineCount t c
    refine mem_usedLines.mpr ⟨by omega, fun hzero => hnone ⟨n, hn', hzero⟩⟩
  have hcard := Finset.card_le_card hsub
  rw [Finset.card_range, ← hcounts.pageRefCount] at hcard
  omega

theorem page_of_object {i : Nat} (hc : t.Serves c)
    (hfits : t.Fits c i) (hmem : t.object page c i ∈ objects) : h.pageRefCount page ≠ 0 := by
  have hline : h.lineRefCount (page * t.lineCount + i * objectSize c / t.lineSize) ≠ 0 := by
    rw [hcounts.lineRefCount, ← Nat.pos_iff_ne_zero, countP_pos_iff]
    exact ⟨_, hmem, by simpa using object_line hc⟩
  have hused := mem_usedLines.mpr ⟨object_lineNumber_lt hc hfits, hline⟩
  rw [hcounts.pageRefCount]
  exact Finset.card_ne_zero_of_mem hused

/-- Only the counters and the size classes of pages in use matter. -/
theorem congr {h' : LineHeap}
    (hline : h'.lineRefCount = h.lineRefCount) (hpage : h'.pageRefCount = h.pageRefCount)
    (hclass : ∀ page, h.pageRefCount page ≠ 0 → h'.pageSizeClass page = h.pageSizeClass page) :
    h'.Counts t objects where
  placed x hx := by
    obtain ⟨hserves, page, i, hobj, hfits, hx'⟩ := hcounts.placed x hx
    have hmem : t.object page x.2 i ∈ objects := hobj ▸ hx
    refine ⟨hserves, page, i, hobj, hfits, ?_⟩
    rw [hclass page (hcounts.page_of_object hserves hfits hmem), hx']
  nodup := hcounts.nodup
  lineRefCount line := by rw [hline, hcounts.lineRefCount]
  lineRefCount_lt line := by rw [hline]; exact hcounts.lineRefCount_lt line
  pageRefCount page := by rw [hpage, hcounts.pageRefCount, usedLines, usedLines, hline]

end

end Counts

theorem usedLines_refLine {n count : Nat} (hn : n < t.lineCount) (hcount : count % 256 ≠ 0)
    (page' : Nat) :
    (h.refLine t page n count).usedLines t page' =
      if page' = page then insert n (h.usedLines t page') else h.usedLines t page' := by
  ext m
  by_cases hm : page' * t.lineCount + m = page * t.lineCount + n ∧ m < t.lineCount
  · obtain ⟨rfl, rfl⟩ := line_inj hm.2 hn hm.1
    simp [mem_usedLines, refLine, hn, hcount]
  · split
    · rename_i hpage
      have hne : m < t.lineCount → m ≠ n := by
        rintro hlt rfl
        exact hm ⟨by rw [hpage], hlt⟩
      simp only [mem_usedLines, refLine, Finset.mem_insert, update_apply]
      constructor
      · rintro ⟨hlt, hline⟩
        rw [if_neg (fun heq => hm ⟨heq, hlt⟩)] at hline
        exact .inr ⟨hlt, hline⟩
      · rintro (rfl | ⟨hlt, hline⟩)
        · exact absurd rfl (hne hn)
        · rw [if_neg (fun heq => hm ⟨heq, hlt⟩)]
          exact ⟨hlt, hline⟩
    · simp only [mem_usedLines, refLine, update_apply]
      refine and_congr_right fun hlt => ?_
      rw [if_neg (fun heq => hm ⟨heq, hlt⟩)]

theorem refLine_pageRefCount_of_ne {n count page' : Nat} (hne : page' ≠ page) :
    (h.refLine t page n count).pageRefCount page' = h.pageRefCount page' :=
  update_of_ne hne _ _

theorem refLine_counts (hcounts : h.Counts t objects) (hc : t.Serves c)
    (hclass : h.pageSizeClass page = c) (hn : n < t.usableLines c)
    (hfree : h.lineRefCount (page * t.lineCount + n) = 0) :
    (h.refLine t page n (t.firstObject c (n + 1) - t.firstObject c n)).Counts t
      (objects ++ t.lineObjects page c n) := by
  have hlt : n < t.lineCount := hn.trans_le (usableLines_le_lineCount t c)
  have hpos := firstObject_lt_of_usable hc hn
  have hbyte := objectCount_lt hc hlt
  have hmod := Nat.mod_eq_of_lt hbyte
  constructor
  · intro x hx
    rcases mem_append.mp hx with hx | hx
    · exact hcounts.placed x hx
    · obtain ⟨i, rfl, _, hfits⟩ := (mem_lineObjects hc hlt).mp hx
      exact ⟨hc, page, i, rfl, hfits, hclass⟩
  · rw [map_append, nodup_append']
    refine ⟨hcounts.nodup, nodup_lineObjects hc n, ?_⟩
    intro address hold hnew
    obtain ⟨x, hx, rfl⟩ := mem_map.mp hold
    obtain ⟨y, hy, heq⟩ := mem_map.mp hnew
    have hline := line_of_mem_lineObjects hc hlt hy
    rw [heq] at hline
    have hzero := hcounts.lineRefCount (page * t.lineCount + n)
    rw [hfree, eq_comm, countP_eq_zero] at hzero
    exact hzero x hx (by simpa using hline)
  · intro line
    rw [countP_append, ← hcounts.lineRefCount]
    by_cases hline : line = page * t.lineCount + n
    · subst hline
      have hall : (t.lineObjects page c n).countP
          (fun x => x.1 / t.lineSize = page * t.lineCount + n) =
            (t.lineObjects page c n).length := by
        rw [countP_eq_length]
        intro x hx
        simpa using line_of_mem_lineObjects hc hlt hx
      simp only [refLine, update_self]
      rw [hall, length_lineObjects, hfree, hmod, zero_add]
    · have hnone : (t.lineObjects page c n).countP (fun x => x.1 / t.lineSize = line) = 0 := by
        rw [countP_eq_zero]
        intro x hx
        have := line_of_mem_lineObjects hc hlt hx
        simp only [decide_eq_true_eq]
        omega
      simp only [refLine, update_of_ne hline]
      rw [hnone, add_zero]
  · intro line
    simp only [refLine, update_apply]
    split
    · exact Nat.mod_lt _ (by omega)
    · exact hcounts.lineRefCount_lt line
  · intro page'
    rw [usedLines_refLine hlt (by omega)]
    by_cases hpage : page' = page
    · subst hpage
      have hnew : n ∉ h.usedLines t page' := fun hmem => (mem_usedLines.mp hmem).2 hfree
      have hle : h.pageRefCount page' ≤ t.lineCount := hcounts.pageRefCount_le_lineCount
      have hbound := t.lineCount_lt
      simp only [refLine, update_self, if_true]
      rw [Finset.card_insert_of_notMem hnew, ← hcounts.pageRefCount, Nat.mod_eq_of_lt (by omega)]
    · simp only [refLine, update_of_ne hpage]
      rw [if_neg hpage, hcounts.pageRefCount]

/-- What `derefLine` does to the line `n` of a page whose counter is not zero. -/
theorem derefLine_spec {address n : Nat} (hline : address / t.lineSize = page * t.lineCount + n)
    (hn : n < t.lineCount) (hpos : h.lineRefCount (page * t.lineCount + n) ≠ 0)
    (hlt : h.lineRefCount (page * t.lineCount + n) < 256) :
    h.derefLine t address =
      let line := page * t.lineCount + n
      let lines := update h.lineRefCount line (h.lineRefCount line - 1)
      if h.lineRefCount line = 1 then
        { h with lineRefCount := lines }.deallocateLine t page
      else { h with lineRefCount := lines } := by
  have hmod : (h.lineRefCount (page * t.lineCount + n) + 255) % 256 =
      h.lineRefCount (page * t.lineCount + n) - 1 := by
    omega
  have hpage : (page * t.lineCount + n) / t.lineCount = page := by
    rw [mul_comm, Nat.mul_add_div (by omega), Nat.div_eq_of_lt hn, add_zero]
  simp only [derefLine, hline, hmod, hpage]
  by_cases hone : h.lineRefCount (page * t.lineCount + n) = 1
  · simp [hone]
  · rw [if_neg (by omega), if_neg hone]

theorem deallocateLine_lineRefCount : (h.deallocateLine t page).lineRefCount = h.lineRefCount := by
  simp only [deallocateLine]
  split
  · rfl
  · split <;> rfl

theorem deallocateLine_pageSizeClass :
    (h.deallocateLine t page).pageSizeClass = h.pageSizeClass := by
  simp only [deallocateLine]
  split
  · rfl
  · split <;> rfl

theorem deallocateLine_pageRefCount : (h.deallocateLine t page).pageRefCount =
      update h.pageRefCount page ((h.pageRefCount page + 255) % 256) := by
  simp only [deallocateLine]
  split
  · rfl
  · split <;> rfl

/-- The line of an outstanding object, and what its counter and that of its page say. -/
theorem Counts.exists_line (hcounts : h.Counts t objects) {x : Object} (hx : x ∈ objects) :
    ∃ page n, x.1 / t.lineSize = page * t.lineCount + n ∧ n < t.lineCount ∧
      h.lineRefCount (page * t.lineCount + n) ≠ 0 ∧
      h.lineRefCount (page * t.lineCount + n) < 256 ∧ h.pageRefCount page ≠ 0 := by
  obtain ⟨hserves, page, i, hobj, hfits, hclass⟩ := hcounts.placed x hx
  have hline : x.1 / t.lineSize = page * t.lineCount + i * objectSize x.2 / t.lineSize := by
    rw [hobj]
    exact object_line hserves
  refine ⟨page, _, hline, object_lineNumber_lt hserves hfits, ?_, hcounts.lineRefCount_lt _,
    hcounts.page_of_object hserves hfits (hobj ▸ hx)⟩
  rw [hcounts.lineRefCount, ← Nat.pos_iff_ne_zero, countP_pos_iff]
  exact ⟨x, hx, by simpa using hline⟩

/-- A page counts one line less when the counter of one of its lines drops to zero. -/
theorem card_usedLines_sub_one {h' : LineHeap} (hn : n < t.lineCount)
    (hpos : h.lineRefCount (page * t.lineCount + n) ≠ 0)
    (hline : h'.lineRefCount = update h.lineRefCount (page * t.lineCount + n)
      (h.lineRefCount (page * t.lineCount + n) - 1)) (page' : Nat) :
    (h'.usedLines t page').card = if page' = page ∧ h.lineRefCount (page * t.lineCount + n) = 1 then
        (h.usedLines t page').card - 1
      else (h.usedLines t page').card := by
  split
  · rename_i hcase
    obtain ⟨rfl, hone⟩ := hcase
    have hmem : n ∈ h.usedLines t page' := mem_usedLines.mpr ⟨hn, hpos⟩
    rw [← Finset.card_erase_of_mem hmem]
    congr 1
    ext m
    by_cases hm : m = n
    · subst hm
      simp [mem_usedLines, hline, hone]
    · simp [mem_usedLines, hline, hm]
  · congr 1
    ext m
    simp only [mem_usedLines, hline, update_apply]
    refine and_congr_right fun hlt => ?_
    split
    · rename_i heq
      obtain ⟨rfl, rfl⟩ := line_inj hlt hn heq
      omega
    · rfl

theorem derefLine_counts (hcounts : h.Counts t objects) {x : Object} (hx : x ∈ objects) :
    (h.derefLine t x.1).Counts t (objects.erase x) := by
  obtain ⟨page, n, hline, hn, hpos, hlt, -⟩ := hcounts.exists_line hx
  have hlines : (h.derefLine t x.1).lineRefCount = update h.lineRefCount (page * t.lineCount + n)
      (h.lineRefCount (page * t.lineCount + n) - 1) := by
    simp only [derefLine_spec hline hn hpos hlt]
    split
    · exact deallocateLine_lineRefCount
    · rfl
  have hclass : (h.derefLine t x.1).pageSizeClass = h.pageSizeClass := by
    simp only [derefLine_spec hline hn hpos hlt]
    split
    · exact deallocateLine_pageSizeClass
    · rfl
  constructor
  · intro y hy
    rw [hclass]
    exact hcounts.placed y (mem_of_mem_erase hy)
  · exact hcounts.nodup.sublist (erase_sublist.map Prod.fst)
  · intro line
    rw [hlines, countP_erase, ← hcounts.lineRefCount, update_apply]
    by_cases heq : line = page * t.lineCount + n
    · subst heq
      simp [hx, hline]
    · rw [if_neg heq, if_neg (by simp only [decide_eq_true_eq]; omega), Nat.sub_zero]
  · intro line
    have := hcounts.lineRefCount_lt line
    rw [hlines, update_apply]
    split <;> omega
  · intro page'
    have hcard' := hcounts.pageRefCount page'
    have hle : h.pageRefCount page ≤ t.lineCount := hcounts.pageRefCount_le_lineCount
    have hbound := t.lineCount_lt
    have hused : (h.usedLines t page).card ≠ 0 :=
      Finset.card_ne_zero_of_mem (mem_usedLines.mpr ⟨hn, hpos⟩)
    rw [card_usedLines_sub_one hn hpos hlines]
    simp only [derefLine_spec hline hn hpos hlt]
    by_cases hone : h.lineRefCount (page * t.lineCount + n) = 1
    · rw [if_pos hone, deallocateLine_pageRefCount]
      by_cases hpage : page' = page
      · subst hpage
        simp only [hone, and_self, if_true, update_self]
        omega
      · simp only [hpage, false_and, if_false, update_of_ne hpage]
        exact hcard'
    · simp only [hone, and_false, if_false]
      exact hcard'

/-! ## Scanning a page -/

/-- The range of the objects of a page that start in the lines from `first`'s line up to
`lineNumber`. -/
def IsOpenRange (t : LineTraits) (page c lineNumber : Nat) (range : BumpRange) : Prop :=
  ∃ first < t.firstObject c lineNumber,
    range = ⟨page * t.pageSize + first * objectSize c, t.firstObject c lineNumber - first⟩

theorem objects_range (page c first count : Nat) :
    BumpRange.objects c ⟨page * t.pageSize + first * objectSize c, count⟩ =
      (range' first count).map (t.object page c) := by
  rw [BumpRange.objects, range'_eq_map_range, map_map]
  refine map_congr_left fun i _ => ?_
  simp only [LineTraits.object, comp_apply, add_mul, add_assoc]

theorem firstObject_le {lineNumber : Nat} (hc : t.Serves c) (hline : lineNumber ≤ t.lineCount) :
    t.firstObject c lineNumber ≤ lineNumber * 255 := by
  induction lineNumber with
  | zero => rw [firstObject_zero hc, zero_mul]
  | succ n ih =>
    have := objectCount_lt hc (show n < t.lineCount by omega)
    omega

theorem firstObject_lt {lineNumber : Nat} (hc : t.Serves c) (hline : lineNumber ≤ t.lineCount) :
    t.firstObject c lineNumber < 65536 := by
  have := firstObject_le hc hline
  have := t.lineCount_lt
  omega

theorem IsOpenRange.start (page : Nat) (hc : t.Serves c) (hn : n < t.usableLines c)
    {md : LineMetadata}
    (hstart : n * t.lineSize + md.startOffset = t.firstObject c n * objectSize c)
    (hcount : md.objectCount + t.firstObject c n = t.firstObject c (n + 1)) :
    IsOpenRange t page c (n + 1)
        ⟨(page * t.lineCount + n) * t.lineSize + md.startOffset, md.objectCount⟩ ∧
      BumpRange.objects c ⟨(page * t.lineCount + n) * t.lineSize + md.startOffset, md.objectCount⟩ =
          t.lineObjects page c n := by
  have hbegin : (page * t.lineCount + n) * t.lineSize + md.startOffset =
      page * t.pageSize + t.firstObject c n * objectSize c := by
    rw [← hstart, pageSize]
    ring
  have hobjs : md.objectCount = t.firstObject c (n + 1) - t.firstObject c n := by omega
  refine ⟨⟨t.firstObject c n, firstObject_lt_of_usable hc hn, by rw [hbegin, hobjs]⟩, ?_⟩
  rw [hbegin, objects_range, hobjs, LineTraits.lineObjects]

theorem IsOpenRange.merge (hc : t.Serves c) (hn : n < t.usableLines c)
    {range : BumpRange} (hopen : IsOpenRange t page c n range) {md : LineMetadata}
    (hcount : md.objectCount + t.firstObject c n = t.firstObject c (n + 1)) :
    IsOpenRange t page c (n + 1) ⟨range.begin, (range.objectCount + md.objectCount) % 65536⟩ ∧
      BumpRange.objects c ⟨range.begin, (range.objectCount + md.objectCount) % 65536⟩ =
        range.objects c ++ t.lineObjects page c n := by
  obtain ⟨first, hfirst, rfl⟩ := hopen
  have husable := usableLines_le_lineCount t c
  have hlt := firstObject_lt hc (show n + 1 ≤ t.lineCount by omega)
  have hsum : (t.firstObject c n - first + md.objectCount) % 65536 =
      t.firstObject c (n + 1) - first := by
    omega
  simp only [hsum]
  refine ⟨⟨first, by omega, rfl⟩, ?_⟩
  rw [objects_range, objects_range, LineTraits.lineObjects, ← map_append]
  congr 1
  have happ := @List.range'_append_1 first (t.firstObject c n - first)
    (t.firstObject c (n + 1) - t.firstObject c n)
  rw [show first + (t.firstObject c n - first) = t.firstObject c n by omega,
    show t.firstObject c n - first + (t.firstObject c (n + 1) - t.firstObject c n) =
      t.firstObject c (n + 1) - first by omega] at happ
  exact happ.symm

theorem usableMetadata_cons (hc : t.Serves c) {md : LineMetadata} {rest : List LineMetadata}
    (hmds : md :: rest = ((t.lineMetadata c).take (t.usableLines c)).drop n) :
    n < t.usableLines c ∧ rest = ((t.lineMetadata c).take (t.usableLines c)).drop (n + 1) ∧
      n * t.lineSize + md.startOffset = t.firstObject c n * objectSize c ∧
      md.objectCount + t.firstObject c n = t.firstObject c (n + 1) := by
  have hget : ((t.lineMetadata c).take (t.usableLines c))[n]? = some md := by
    have hhead := congrArg head? hmds
    rw [head?_cons, head?_drop] at hhead
    exact hhead.symm
  rw [getElem?_take] at hget
  obtain ⟨hlt, hmd⟩ : n < t.usableLines c ∧ (t.lineMetadata c)[n]? = some md := by
    simpa using hget
  have husable := usableLines_le_lineCount t c
  obtain ⟨md', hmd', hspec⟩ := lineMetadata_spec hc (show n < t.lineCount by omega)
  rw [hmd, Option.some.injEq] at hmd'
  subst hmd'
  refine ⟨hlt, ?_, hspec⟩
  have htail := congrArg tail hmds
  rwa [tail_cons, tail_drop] at htail

/-- The scan adds to the counts what it puts into ranges, and no range is empty. -/
theorem scanLines_counts (hc : t.Serves c) (mds : List LineMetadata) :
    ∀ (n : Nat) (h : LineHeap) (range : Option BumpRange) (objects : List Object),
      mds = ((t.lineMetadata c).take (t.usableLines c)).drop n →
      h.pageSizeClass page = c → (∀ r ∈ range, IsOpenRange t page c n r) →
      h.Counts t (objects ++ range.toList.flatMap (BumpRange.objects c)) →
      (scanLines t page c h range n mds).2.Counts t
          (objects ++ (scanLines t page c h range n mds).1.flatMap (BumpRange.objects c)) ∧
        ∀ r ∈ (scanLines t page c h range n mds).1, 0 < r.objectCount := by
  induction mds with
  | nil =>
    intro n h range objects _ _ hopen hcounts
    refine ⟨by simpa [scanLines] using hcounts, ?_⟩
    intro r hr
    obtain ⟨first, hfirst, rfl⟩ := hopen r (by simpa [scanLines] using hr)
    exact Nat.sub_pos_of_lt hfirst
  | cons md rest ih =>
    intro n h range objects hmds hclass hopen hcounts
    obtain ⟨hn, hrest, hstart, hcount⟩ := usableMetadata_cons hc hmds
    have hmdCount : md.objectCount = t.firstObject c (n + 1) - t.firstObject c n := by omega
    have hnone : ∀ r ∈ (none : Option BumpRange), IsOpenRange t page c (n + 1) r := by simp
    cases range with
    | none =>
      rw [scanLines]
      split
      · exact ih _ _ none objects hrest hclass hnone hcounts
      · obtain ⟨hrange, hobjs⟩ := IsOpenRange.start page hc hn hstart hcount
        refine ih _ _ _ objects hrest hclass (by simpa using hrange) ?_
        have hnew := refLine_counts hcounts hc hclass hn (by omega)
        rw [← hmdCount] at hnew
        simpa [hobjs] using hnew
    | some range =>
      have hrange := hopen range rfl
      rw [scanLines]
      split
      · obtain ⟨hih, hpos⟩ := ih (n + 1) h none (objects ++ range.objects c) hrest hclass hnone
          (by simpa using hcounts)
        refine ⟨by simpa using hih, ?_⟩
        intro r hr
        rcases mem_cons.mp hr with rfl | hr
        · obtain ⟨first, hfirst, rfl⟩ := hrange
          exact Nat.sub_pos_of_lt hfirst
        · exact hpos r hr
      · obtain ⟨hmerged, hobjs⟩ := hrange.merge hc hn hcount
        refine ih _ _ _ objects hrest hclass (by simpa using hmerged) ?_
        have hnew := refLine_counts hcounts hc hclass hn (by omega)
        rw [← hmdCount] at hnew
        simpa [hobjs] using hnew

theorem scanLines_frame (t : LineTraits) (page c n : Nat) (h : LineHeap) (range : Option BumpRange)
    (mds : List LineMetadata) :
    (scanLines t page c h range n mds).2.pageSizeClass = h.pageSizeClass ∧
      (scanLines t page c h range n mds).2.pagesWithFreeLines = h.pagesWithFreeLines ∧
      (scanLines t page c h range n mds).2.pages = h.pages ∧
      (scanLines t page c h range n mds).2.vmPages = h.vmPages ∧
      ∀ page' ≠ page,
        (scanLines t page c h range n mds).2.pageRefCount page' = h.pageRefCount page' := by
  fun_induction scanLines t page c h range n mds with
  | case1 h range n => exact ⟨rfl, rfl, rfl, rfl, fun _ _ => rfl⟩
  | case2 h n md rest hbusy ih => exact ih
  | case3 _ _ _ _ _ ih | case5 _ _ _ _ _ _ ih =>
    obtain ⟨hclass, hfree, hpages, hvm, hcount⟩ := ih
    refine ⟨hclass, hfree, hpages, hvm, fun page' hne => ?_⟩
    rw [hcount page' hne, refLine_pageRefCount_of_ne hne]
  | case4 h range n md rest hbusy ranges h' heq ih =>
    rw [heq] at ih
    exact ih

theorem scanLines_some_ne_nil (n : Nat) (h : LineHeap) (range : BumpRange)
    (mds : List LineMetadata) : (scanLines t page c h (some range) n mds).1 ≠ [] := by
  induction mds generalizing n h range with
  | nil => simp [scanLines]
  | cons md rest ih =>
    rw [scanLines]
    split
    · simp
    · exact ih _ _ _

theorem scanLines_ne_nil (mds : List LineMetadata) (n : Nat)
    (hfree : ∃ k < mds.length, h.lineRefCount (page * t.lineCount + (n + k)) = 0) :
    (scanLines t page c h none n mds).1 ≠ [] := by
  induction mds generalizing n with
  | nil =>
    obtain ⟨k, hk, _⟩ := hfree
    simp at hk
  | cons md rest ih =>
    rw [scanLines]
    split
    · rename_i hbusy
      obtain ⟨k, hk, hzero⟩ := hfree
      cases k with
      | zero => exact absurd hzero hbusy
      | succ k =>
        refine ih (n + 1) ⟨k, by simpa using hk, ?_⟩
        rwa [show n + 1 + k = n + (k + 1) by omega]
    · exact scanLines_some_ne_nil _ _ _ _

end LineHeap

end WebKit.Bmalloc
