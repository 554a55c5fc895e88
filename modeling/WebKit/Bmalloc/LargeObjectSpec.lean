import WebKit.Bmalloc.LargeLayout

/-!
# What the operations on large objects do to the layout

One lemma per operation of `LargeObject`. The setters change the block they are given
(`setTags_spec`), `merge` replaces a free block and its free neighbours of the same owner
by one block (`merge_spec`), `split` replaces a block by two (`split_spec`), and `init`
adds a chunk with one block (`init_spec`). An entry of a free list that passes
`isValidAndFree` stands for a free block (`isValidAndFree_iff`).
-/

namespace WebKit.Bmalloc

open Tiling LargeChunk Function List LargeObject LargeChunk Block BoundaryTag Prod

variable {tags tags' : Tags} {chunk a b s : Nat} {x y : Block} {owner : Owner}
  {layout : Layout} {chunks : List Nat} {before after : List Block}

/-- The object of a block. -/
def LargeObject.handle (address size : Nat) : LargeObject :=
  ⟨LargeChunk.beginTag address, LargeChunk.endTag address size, address⟩

theorem initEnd_apply (tags : Tags) (endTag beginTag n : Nat) : tags.initEnd endTag beginTag n =
      if n = endTag ∧ endTag ≠ beginTag then { tags beginTag with isEnd := true } else tags n := by
  simp only [Tags.initEnd]
  by_cases h : endTag = beginTag
  · simp [h]
  · simp [h, update_apply]

theorem Tagged.begin_tag (h : Tagged tags a x) :
    ∃ isMarked, tags (beginTag a) = x.tag a isMarked false := by
  obtain ⟨isMarked, hbegin, _⟩ := h.ends
  exact ⟨isMarked, hbegin⟩

theorem Tagged.get_eq (h : Tagged tags a x) :
    LargeObject.get tags a = LargeObject.handle a x.size := by
  obtain ⟨isMarked, hbegin⟩ := h.begin_tag
  simp only [LargeObject.get, LargeObject.handle, hbegin, Block.tag]

theorem Layout.Has.split (hx : layout.Has chunks a x) :
    ∃ chunk ∈ chunks, ∃ before after, layout chunk = before ++ [x] ++ after ∧
      a = LargeChunk.begin chunk + total Block.size before := by
  obtain ⟨chunk, hchunk, hmem⟩ := hx
  obtain ⟨before, after, hlayout, ha⟩ := mem_located.mp hmem
  exact ⟨chunk, hchunk, before, after, by simp [hlayout], ha⟩

theorem mem_located_singleton {p : Nat × Block} : p ∈ located Block.size a [x] ↔ p = (a, x) := by
  simp [located]

theorem setTags_agree (ha : 65536 ≤ a) (hs : largeMin ≤ s) (f : BoundaryTag → BoundaryTag) :
    AgreeOff tags ((LargeObject.handle a s).setTags tags f) a (a + s) := by
  intro n hn
  have hend := endTag_succ ha hs
  have hlt := beginTag_lt ha hs
  simp only [LargeObject.setTags, Tags.modify, LargeObject.handle]
  rw [update_of_ne (by omega), update_of_ne (by omega)]

theorem setTags_tagged (h : Tagged tags a x) {f : BoundaryTag → BoundaryTag}
    (hidem : ∀ tag, f (f tag) = f tag) (hsize : y.size = x.size)
    (hf : ∀ isMarked, ∃ isMarked', ∀ isEnd, f (x.tag a isMarked isEnd) = y.tag a isMarked' isEnd) :
    Tagged ((LargeObject.handle a x.size).setTags tags f) a y := by
  obtain ⟨isMarked, hbegin, hend⟩ := h.ends
  obtain ⟨isMarked', hf⟩ := hf isMarked
  refine ⟨hsize ▸ h.largeMin_le, hsize ▸ h.aligned, ⟨isMarked', ?_, ?_⟩, ?_⟩
  · simp only [LargeObject.setTags, Tags.modify, LargeObject.handle, update_apply]
    split
    · rename_i heq
      have hfixed : f (y.tag a isMarked' false) = y.tag a isMarked' false := by
        rw [← hf, hidem]
      simp only [← heq, if_true, hbegin, hf, hfixed]
    · simp only [if_true, hbegin, hf]
  · rw [hsize]
    intro hne
    simp only [LargeObject.setTags, Tags.modify, LargeObject.handle, update_apply, if_true, hne, if_false,
      hend hne, hf]
  · rw [hsize]
    intro n hlow hhigh
    simp only [LargeObject.setTags, Tags.modify, LargeObject.handle]
    rw [update_of_ne (by omega), update_of_ne (by omega)]
    exact h.between n hlow hhigh

section

variable (hv : layout.Valid tags chunks) (hx : layout.Has chunks a x)
include hv hx

theorem setTags_spec
    {f : BoundaryTag → BoundaryTag} (hidem : ∀ tag, f (f tag) = f tag) (hsize : y.size = x.size)
    (hf : ∀ isMarked isEnd, f (x.tag a isMarked isEnd) = y.tag a isMarked isEnd) :
    ∃ layout', Layout.Valid layout' ((LargeObject.handle a x.size).setTags tags f) chunks ∧
      Layout.Replaced chunks layout a [x] [y] layout' := by
  have htag := hv.tagged hx
  have ha := hv.address_ge hx
  obtain ⟨chunk, hchunk, before, after, hlayout, hstart⟩ := hx.split
  refine ⟨_, hv.replace hchunk hlayout hstart (by simp [hsize]) ?_ ?_⟩
  · simpa using setTags_agree ha htag.largeMin_le f
  · intro b z hz
    obtain ⟨rfl, rfl⟩ := mk.inj (mem_located_singleton.mp hz)
    exact setTags_tagged htag hidem hsize fun isMarked => ⟨isMarked, hf isMarked⟩

theorem setFree_spec (isFree : Bool) :
    ∃ layout', Layout.Valid layout' ((handle a x.size).setFree tags isFree) chunks ∧
      Layout.Replaced chunks layout a [x] [{ x with isFree }] layout' :=
  setTags_spec hv hx (fun _ => rfl) rfl fun _ _ => rfl

theorem setOwner_spec (owner : Owner) :
    ∃ layout', Layout.Valid layout' ((handle a x.size).setOwner tags owner) chunks ∧
      Layout.Replaced chunks layout a [x] [{ x with owner }] layout' :=
  setTags_spec hv hx (fun _ => rfl) rfl fun _ _ => rfl

theorem setMarked_valid
    (isMarked : Bool) : layout.Valid ((LargeObject.handle a x.size).setMarked tags isMarked) chunks := by
  have htag := hv.tagged hx
  have ha := hv.address_ge hx
  obtain ⟨chunk, hchunk, before, after, hlayout, hstart⟩ := hx.split
  have hvalid : Layout.Valid (update layout chunk (before ++ [x] ++ after))
      ((LargeObject.handle a x.size).setMarked tags isMarked) chunks := by
    refine (hv.replace hchunk hlayout hstart rfl ?_ ?_).1
    · exact setTags_agree ha htag.largeMin_le _
    · intro b z hz
      obtain ⟨rfl, rfl⟩ := Prod.mk.inj (mem_located_singleton.mp hz)
      exact setTags_tagged htag (fun _ => rfl) rfl fun _ => ⟨isMarked, fun _ => rfl⟩
  rwa [← hlayout, update_eq_self] at hvalid

end

/-! ## Merging -/

/-- The first half of a merge takes in the left neighbour if it may. -/
theorem mergeLeft_spec (hd : Describes tags chunk (before ++ [x] ++ after))
    (hstart : a = LargeChunk.begin chunk + total Block.size before) (owner : Owner) :
    ∃ before' left A tags1, before = before' ++ left ∧
      A = LargeChunk.begin chunk + total Block.size before' ∧
      (∀ l ∈ left, l.isFree = true ∧ l.owner = owner) ∧
      LargeObject.mergeLeft tags (beginTag a) ⟨a, x.size⟩ owner =
        (beginTag A, ⟨A, total Block.size left + x.size⟩, tags1) ∧
      AgreeOff tags tags1 A (a + x.size) ∧ Blank tags1 A (a + x.size) ∧
      (tags1 (beginTag A)).isEnd = false := by
  have hx : (a, x) ∈ located Block.size (LargeChunk.begin chunk) (before ++ [x] ++ after) :=
    mem_located.mpr ⟨before, after, by simp, hstart⟩
  have htag := hd.tagged a x hx
  have hbegin := begin_eq chunk
  have ha : 65536 ≤ a := by omega
  by_cases hmerge : LargeObject.canMerge (tags (beginTag a - 1)) owner
  · rcases eq_nil_or_concat before with rfl | ⟨before', l, rfl⟩
    · -- The left edge of the chunk is allocated.
      have hleft := hd.left
      rw [total_nil, add_zero] at hstart
      rw [LargeObject.canMerge, hstart, hleft] at hmerge
      simp at hmerge
    · set A := LargeChunk.begin chunk + total Block.size before' with hA
      have hl : (A, l) ∈ located Block.size (LargeChunk.begin chunk)
          (before'.concat l ++ [x] ++ after) :=
        mem_located.mpr ⟨before', [x] ++ after, by simp, rfl⟩
      have htaggedl := hd.tagged A l hl
      have hAl : a = A + l.size := by simp [hstart, hA, add_assoc]
      have hA' : 65536 ≤ A := by omega
      obtain ⟨isMarked, isEnd, hlast⟩ := htaggedl.last hA'
      rw [← hAl] at hlast
      have hlt := beginTag_lt hA' htaggedl.largeMin_le
      rw [← hAl] at hlt
      simp only [LargeObject.canMerge, hlast, Block.tag, Bool.and_eq_true, decide_eq_true_eq] at hmerge
      refine ⟨before', [l], A, (tags.clear (beginTag a - 1)).clear (beginTag a), by simp, rfl,
        by simpa using hmerge, ?_, ?_, ?_, ?_⟩
      · have hsub : a - l.size = A := by omega
        simp only [LargeObject.mergeLeft, LargeObject.canMerge, hlast, Block.tag, hmerge, Bool.true_and, decide_true,
          if_true, hsub, total_cons, total_nil, add_zero]
      · intro n hn
        have hlt' := beginTag_lt ha htag.largeMin_le
        simp only [Tags.clear]
        rw [update_of_ne (by omega), update_of_ne (by omega)]
      · have hblank := htaggedl.blank hA'
        rw [← hAl] at hblank
        refine hblank.join (htag.blank ha) (by omega) ?_ ?_
        · simp [Tags.clear, update_apply]
        · intro n hn hn'
          simp [Tags.clear, hn, hn']
      · simp only [Tags.clear, update_apply]
        rw [if_neg (by omega)]
        split
        · rfl
        · obtain ⟨isMarked, hbegin⟩ := htaggedl.begin_tag
          rw [hbegin]
          rfl
  · refine ⟨before, [], a, tags, by simp, hstart, by simp, ?_, AgreeOff.refl _ _ _,
      htag.blank ha, ?_⟩
    · simp [LargeObject.mergeLeft, hmerge]
    · obtain ⟨isMarked, hbegin⟩ := htag.begin_tag
      rw [hbegin]
      rfl

/-- The second half of a merge takes in the right neighbour if it may. -/
theorem mergeRight_spec {A m : Nat} (hm : 65536 ≤ m) (hlt : beginTag A < beginTag m)
    (hA : 65536 ≤ A) (hAm : A + largeMin ≤ m) (hblank : Blank tags A m)
    (hend : (tags (beginTag A)).isEnd = false)
    (hnext : ∀ r after', after = r :: after' → Tagged tags m r)
    (hedge : after = [] → (tags (beginTag m)).isFree = false) (owner : Owner) :
    ∃ right after' tags2, after = right ++ after' ∧
      (∀ r ∈ right, Tagged tags m r ∧ r.isFree = true ∧ r.owner = owner) ∧
      LargeObject.mergeRight tags (beginTag m - 1) ⟨A, m - A⟩ owner =
        (beginTag (m + total Block.size right) - 1, ⟨A, m + total Block.size right - A⟩, tags2) ∧
      AgreeOff tags tags2 A (m + total Block.size right) ∧
      Blank tags2 A (m + total Block.size right) ∧ (tags2 (beginTag A)).isEnd = false := by
  have hsucc : beginTag m - 1 + 1 = beginTag m := by omega
  by_cases hmerge : LargeObject.canMerge (tags (beginTag m)) owner
  · cases after with
    | nil =>
      -- The right edge of the chunk is allocated.
      rw [LargeObject.canMerge, hedge rfl] at hmerge
      simp at hmerge
    | cons r after' =>
      have htagged := hnext r after' rfl
      obtain ⟨isMarked, hbegin⟩ := htagged.begin_tag
      simp only [LargeObject.canMerge, hbegin, Block.tag, Bool.and_eq_true, decide_eq_true_eq] at hmerge
      have hlt' := beginTag_lt hm htagged.largeMin_le
      refine ⟨[r], after', (tags.clear (beginTag m - 1)).clear (beginTag m), by simp,
        by simpa using ⟨htagged, hmerge⟩, ?_, ?_, ?_, ?_⟩
      · have hsize : m - A + r.size = m + r.size - A := by omega
        have hsum : A + (m + r.size - A) = m + r.size := by omega
        have htag : endTag A (m + r.size - A) = beginTag (m + r.size) - 1 := by
          rw [endTag_eq hA (by omega), hsum]
        simp only [LargeObject.mergeRight, hsucc, LargeObject.canMerge, hbegin, Block.tag, hmerge, Bool.true_and,
          decide_true, if_true, hsize, htag, total_cons, total_nil, add_zero]
      · intro n hn
        simp only [total_cons, total_nil, add_zero] at hn
        simp only [Tags.clear]
        rw [update_of_ne (by omega), update_of_ne (by omega)]
      · refine hblank.join (htagged.blank hm) (by omega) ?_ ?_
        · simp [Tags.clear, update_apply]
        · intro n hn hn'
          simp [Tags.clear, hn, hn']
      · simp only [Tags.clear, update_apply]
        rw [if_neg (by omega)]
        split
        · rfl
        · exact hend
  · refine ⟨[], after, tags, by simp, by simp, ?_, AgreeOff.refl _ _ _, by simpa using hblank, hend⟩
    simp [LargeObject.mergeRight, hsucc, hmerge]

theorem setRange_eq {tag : BoundaryTag} (hs : s < 2 ^ 24) : tag.setRange ⟨a, s⟩ =
      { tag with compactBegin := compactBeginOf a, size := s } := by
  rw [setRange, compactBeginOf_mod, Nat.mod_eq_of_lt hs]

theorem tagged_of_write {A E : Nat} (hA : 65536 ≤ A) (hmin : A + largeMin ≤ E)
    (haligned : largeAlignment ∣ E - A) (hlt : E - A < 2 ^ 24) (hblank : Blank tags A E)
    (hend : (tags (beginTag A)).isEnd = false) (owner : Owner) :
    let written := (((tags.modify (beginTag A) (.setRange ⟨A, E - A⟩)).modify (beginTag A)
      (.setFree true)).modify (beginTag A) (.setOwner owner)).initEnd (beginTag E - 1) (beginTag A)
    Tagged written A ⟨E - A, true, owner⟩ ∧ AgreeOff tags written A E := by
  have hsum : A + (E - A) = E := by omega
  have hE : endTag A (E - A) = beginTag E - 1 := by
    rw [endTag_eq hA (by omega), hsum]
  have hltE : beginTag A < beginTag E := by
    have := beginTag_lt hA (show largeMin ≤ E - A by omega)
    rwa [hsum] at this
  have hrange : ∀ tag : BoundaryTag, tag.setRange ⟨A, E - A⟩ =
      { tag with compactBegin := BoundaryTag.compactBeginOf A, size := E - A } :=
    fun _ => setRange_eq hlt
  refine ⟨⟨by simpa using by omega, haligned, ⟨(tags (beginTag A)).isMarked, ?_, ?_⟩, ?_⟩, ?_⟩
  · simp only [Tags.initEnd]
    split
    · simp [Tags.modify, hrange, BoundaryTag.setFree, BoundaryTag.setOwner, Block.tag, hend]
    · rename_i hne
      rw [update_of_ne (Ne.symm hne)]
      simp [Tags.modify, hrange, BoundaryTag.setFree, BoundaryTag.setOwner, Block.tag, hend]
  · rw [hE]
    intro hne
    simp [Tags.initEnd, hne, Tags.modify, hrange, BoundaryTag.setFree, BoundaryTag.setOwner,
      Block.tag]
  · rw [hE]
    intro n hlow hhigh
    have hn : n ≠ beginTag A := by omega
    simp only [Tags.initEnd]
    split
    · simp [Tags.modify, hn, hblank n hlow (by omega)]
    · rw [update_of_ne (by omega)]
      simp [Tags.modify, hn, hblank n hlow (by omega)]
  · intro n hn
    have hn' : n ≠ beginTag A := by omega
    simp only [Tags.initEnd]
    split
    · simp [Tags.modify, hn']
    · rw [update_of_ne (by omega)]
      simp [Tags.modify, hn']

theorem total_aligned {blocks : List Block} (h : ∀ z ∈ blocks, largeAlignment ∣ z.size) :
    largeAlignment ∣ total Block.size blocks := by
  induction blocks with
  | nil => exact Nat.dvd_zero _
  | cons z blocks ih =>
    exact Nat.dvd_add (h z mem_cons_self) (ih fun y hy => h y (mem_cons_of_mem _ hy))

theorem Describes.tagged_at {z : Block} (hd : Describes tags chunk (before ++ z :: after)) :
    Tagged tags (LargeChunk.begin chunk + total Block.size before) z :=
  hd.tagged _ z (mem_located.mpr ⟨before, after, rfl, rfl⟩)

theorem Describes.aligned {blocks : List Block} (hd : Describes tags chunk blocks) {z : Block}
    (hz : z ∈ blocks) : largeAlignment ∣ z.size := by
  obtain ⟨l1, l2, rfl⟩ := append_of_mem hz
  exact hd.tagged_at.aligned

/-- A merge of a block of a chunk: the blocks it joins and the tags it writes. -/
theorem merge_chunk (hd : Describes tags chunk (before ++ [x] ++ after))
    (hstart : a = LargeChunk.begin chunk + total Block.size before) :
    ∃ before' left right after' A E tags', before = before' ++ left ∧ after = right ++ after' ∧
      A = LargeChunk.begin chunk + total Block.size before' ∧
      E = A + total Block.size (left ++ [x] ++ right) ∧
      (∀ z ∈ left ++ right, z.isFree = true ∧ z.owner = x.owner) ∧
      (LargeObject.handle a x.size).merge tags = (LargeObject.handle A (E - A), tags') ∧
      AgreeOff tags tags' A E ∧ Tagged tags' A ⟨E - A, true, x.owner⟩ := by
  have htagged : Tagged tags a x := by
    rw [append_assoc] at hd
    exact hstart ▸ hd.tagged_at
  obtain ⟨isMarked, hbegin⟩ := htagged.begin_tag
  have hmin := htagged.largeMin_le
  have hsum := hd.total_eq
  obtain ⟨before', left, A, tags1, rfl, hA, hleft, hmergeLeft, hagree1, hblank1, hend1⟩ :=
    mergeLeft_spec hd hstart x.owner
  simp only [total_append, total_cons, total_nil, add_zero, begin_eq, end_eq] at hsum hA hstart
  have hends : beginTag A < beginTag (a + x.size) :=
    (beginTag_mono (by omega)).trans_lt (beginTag_lt (by omega) hmin)
  have hnext : ∀ r after', after = r :: after' → Tagged tags1 (a + x.size) r := by
    rintro r after' rfl
    have hr := hd.tagged_at
    refine Tagged.frame ?_ (by omega) hagree1 (.inr le_rfl)
    convert hr using 1
    simp only [total_append, total_cons, total_nil, begin_eq]
    omega
  have hedge : after = [] → (tags1 (beginTag (a + x.size))).isFree = false := by
    rintro rfl
    have hm : a + x.size = LargeChunk.end chunk := by
      rw [total_nil] at hsum
      rw [end_eq]
      omega
    rw [hagree1 _ (.inr le_rfl), hm]
    exact hd.right
  obtain ⟨right, after', tags2, rfl, hright, hmergeRight, hagree2, hblank2, hend2⟩ :=
    mergeRight_spec (by omega) hends (by omega) (by omega) hblank1 hend1 hnext hedge x.owner
  set E := a + x.size + total Block.size right with hE
  rw [total_append] at hsum
  have haligned : largeAlignment ∣ E - A := by
    have htotal : E - A = total Block.size (left ++ [x] ++ right) := by
      simp only [total_append, total_cons, total_nil]
      omega
    rw [htotal]
    refine total_aligned fun z hz => hd.aligned ?_
    simp only [mem_append] at hz ⊢
    tauto
  obtain ⟨htag, hagree3⟩ :=
    tagged_of_write (by omega) (by omega) haligned (by omega) hblank2 hend2 x.owner
  refine ⟨before', left, right, after', A, E, _, rfl, rfl, by rw [begin_eq]; exact hA, ?_, ?_, ?_,
    (hagree1.trans hagree2 le_rfl (by omega)).trans hagree3 le_rfl le_rfl, htag⟩
  · simp only [total_append, total_cons, total_nil]
    omega
  · intro z hz
    rcases mem_append.mp hz with hz | hz
    · exact hleft z hz
    · exact (hright z hz).2
  · have hsize : total Block.size left + x.size = a + x.size - A := by omega
    have hlast : endTag a x.size = beginTag (a + x.size) - 1 := endTag_eq (by omega) hmin
    have hsumE : A + (E - A) = E := by omega
    have hlastE : endTag A (E - A) = beginTag E - 1 := by
      rw [endTag_eq (by omega) (by omega), hsumE]
    simp only [LargeObject.merge, LargeObject.handle, LargeObject.owner, LargeObject.range,
      LargeObject.size, hbegin, Block.tag, hmergeLeft, hsize, hlast, hmergeRight, hlastE]

/-- A merge replaces a free block and its free neighbours of the same owner by one. -/
theorem merge_spec (hv : layout.Valid tags chunks) (hx : layout.Has chunks a x) :
    ∃ A mid y tags' layout', y.isFree = true ∧ y.owner = x.owner ∧
      (a, x) ∈ located Block.size A mid ∧
      (∀ z ∈ mid, z = x ∨ z.isFree = true ∧ z.owner = x.owner) ∧
      (LargeObject.handle a x.size).merge tags = (LargeObject.handle A y.size, tags') ∧
      Layout.Valid layout' tags' chunks ∧ Layout.Replaced chunks layout A mid [y] layout' := by
  obtain ⟨chunk, hchunk, before, after, hlayout, hstart⟩ := hx.split
  have hd := hv.describes chunk hchunk
  rw [hlayout] at hd
  obtain ⟨before', left, right, after', A, E, tags', rfl, rfl, hA, hE, hfree, hmerge, hagree,
    htag⟩ := merge_chunk hd hstart
  have hlayout' : layout chunk = before' ++ (left ++ [x] ++ right) ++ after' := by
    simp [hlayout]
  have htotal : total Block.size [⟨E - A, true, x.owner⟩] =
      total Block.size (left ++ [x] ++ right) := by
    simp only [total_cons, total_nil, hE]
    omega
  refine ⟨A, left ++ [x] ++ right, ⟨E - A, true, x.owner⟩, tags', _, rfl, rfl, ?_, ?_, hmerge,
    hv.replace hchunk hlayout' hA htotal (hE ▸ hagree) ?_⟩
  · refine mem_located.mpr ⟨left, right, by simp, ?_⟩
    rw [hstart, hA, total_append, add_assoc]
  · intro z hz
    simp only [mem_append, mem_singleton] at hz
    rcases hz with (hz | hz) | hz
    · exact .inr (hfree z (mem_append_left _ hz))
    · exact .inl hz
    · exact .inr (hfree z (mem_append_right _ hz))
  · intro b z hz
    obtain ⟨rfl, rfl⟩ := Prod.mk.inj (mem_located_singleton.mp hz)
    exact htag

/-- The places of the tags around a cut. -/
theorem split_places {size : Nat} (ha : 65536 ≤ a) (hmin : largeMin ≤ s)
    (hrest : s + largeMin ≤ size) :
    endTag a s + 1 = beginTag (a + s) ∧ endTag a size + 1 = beginTag (a + size) ∧
      endTag (a + s) (size - s) = endTag a size ∧ beginTag a < beginTag (a + s) ∧
      beginTag (a + s) < beginTag (a + size) := by
  have hsucc1 := endTag_succ (show 65536 ≤ a + s by omega) (show largeMin ≤ size - s by omega)
  have hsucc2 := endTag_succ ha (show largeMin ≤ size by omega)
  have hlt := beginTag_lt (show 65536 ≤ a + s by omega) (show largeMin ≤ size - s by omega)
  rw [show a + s + (size - s) = a + size by omega] at hsucc1 hlt
  exact ⟨endTag_succ ha hmin, hsucc2, by omega, beginTag_lt ha hmin, hlt⟩

/-- The tags that a split writes; an end tag that is also a begin tag is not written. -/
theorem split_tags (htagged : Tagged tags a x) (ha : 65536 ≤ a) (hlt : x.size < 2 ^ 24)
    (hmin : largeMin ≤ s) (hrest : s + largeMin ≤ x.size) :
    ∃ isMarked tags', (LargeObject.handle a x.size).split tags s =
        (LargeObject.handle a s, LargeObject.handle (a + s) (x.size - s), tags') ∧
      ∀ n, tags' n = if n = beginTag a then ({ x with size := s } : Block).tag a isMarked false
        else if n = endTag a s then ({ x with size := s } : Block).tag a isMarked true
        else if n = beginTag (a + s) then
          ({ x with size := x.size - s } : Block).tag (a + s) isMarked false
        else if n = endTag a x.size then
          ({ x with size := x.size - s } : Block).tag (a + s) isMarked true
        else tags n := by
  obtain ⟨isMarked, hbegin⟩ := htagged.begin_tag
  obtain ⟨hsucc1, hsucc2, htag, hlt1, hlt2⟩ := split_places ha hmin hrest
  have hs : s < 2 ^ 24 := by omega
  have hs' : x.size - s < 2 ^ 24 := by omega
  refine ⟨isMarked, ((LargeObject.handle a x.size).split tags s).2.2, ?_, fun n => ?_⟩
  · simp only [LargeObject.split, LargeObject.handle, LargeObject.begin, Range.end, htag]
  have hne : beginTag (a + s) ≠ beginTag a := by omega
  have hne1 : beginTag (a + s) ≠ endTag a s := by omega
  simp only [LargeObject.split, LargeObject.handle, LargeObject.size, LargeObject.begin, Range.end,
    initEnd_apply, Tags.modify, update_apply, hbegin, setRange_eq hs, setRange_eq hs',
    Block.tag, hne, hne1, if_true, if_false, false_and]
  split_ifs <;> first | rfl | omega

theorem split_spec (hv : layout.Valid tags chunks) (hx : layout.Has chunks a x)
    (hmin : largeMin ≤ s) (haligned : largeAlignment ∣ s) (hrest : s + largeMin ≤ x.size) :
    ∃ tags' layout', (LargeObject.handle a x.size).split tags s =
        (LargeObject.handle a s, LargeObject.handle (a + s) (x.size - s), tags') ∧
      Layout.Valid layout' tags' chunks ∧
      Layout.Replaced chunks layout a [x]
        [{ x with size := s }, { x with size := x.size - s }] layout' := by
  have htagged := hv.tagged hx
  have ha := hv.address_ge hx
  obtain ⟨chunk, hchunk, before, after, hlayout, hstart⟩ := hx.split
  obtain ⟨isMarked, tags', hsplit, htags'⟩ := split_tags htagged ha (hv.size_lt hx) hmin hrest
  obtain ⟨hsucc1, hsucc2, htag, hlt1, hlt2⟩ := split_places ha hmin hrest
  refine ⟨tags', _, hsplit, hv.replace hchunk hlayout hstart ?_ ?_ ?_⟩
  · simp only [total_cons, total_nil]
    omega
  · intro n hn
    simp only [total_cons, total_nil, add_zero] at hn
    rw [htags', if_neg (by omega), if_neg (by omega), if_neg (by omega), if_neg (by omega)]
  · intro b z hz
    simp only [located, mem_cons, Prod.mk.injEq, not_mem_nil, or_false] at hz
    rcases hz with ⟨rfl, rfl⟩ | ⟨rfl, rfl⟩
    · refine ⟨hmin, haligned, ⟨isMarked, ?_, fun hne => ?_⟩, fun n hlow hhigh => ?_⟩
      · rw [htags', if_pos rfl]
      · rw [htags', if_neg hne, if_pos rfl]
      · simp only at hlow hhigh
        rw [htags', if_neg (by omega), if_neg (by omega), if_neg (by omega), if_neg (by omega)]
        exact htagged.between n hlow (by omega)
    · refine ⟨by simp only; omega, Nat.dvd_sub htagged.aligned haligned,
        ⟨isMarked, ?_, fun hne => ?_⟩, fun n hlow hhigh => ?_⟩
      · rw [htags', if_neg (by omega), if_neg (by omega), if_pos rfl]
      · simp only [htag] at hne ⊢
        rw [htags', if_neg (by omega), if_neg (by omega), if_neg hne, if_pos rfl]
      · simp only [htag] at hlow hhigh
        rw [htags', if_neg (by omega), if_neg (by omega), if_neg (by omega), if_neg (by omega)]
        exact htagged.between n (by omega) hhigh

/-- The one block of a new chunk. -/
def wholeChunk (chunk : Nat) : Block :=
  ⟨LargeChunk.end chunk - LargeChunk.begin chunk, true, .vmHeap⟩

theorem init_describes (hnull : ∀ n, chunk * boundaryTagCount ≤ n →
    n < (chunk + 1) * boundaryTagCount → tags n = .null) :
    ∃ tags', LargeObject.init tags chunk =
        (⟨LargeChunk.begin chunk, (wholeChunk chunk).size⟩, tags') ∧
      Describes tags' chunk [wholeChunk chunk] ∧
      ∀ n, n < chunk * boundaryTagCount ∨ (chunk + 1) * boundaryTagCount ≤ n →
        tags' n = tags n := by
  have hcount : boundaryTagCount = 16384 := rfl
  have hbegin := begin_eq chunk
  have hend := end_eq chunk
  have hfirst := beginTag_eq (LargeChunk.begin chunk)
  have hlast := beginTag_eq (LargeChunk.end chunk)
  have hmin : LargeChunk.begin chunk + largeMin ≤ LargeChunk.end chunk := by
    simp only [hbegin, hend, largeMin, mediumMax]
    omega
  rw [hcount] at hnull ⊢
  have hblank : Blank tags (LargeChunk.begin chunk) (LargeChunk.end chunk) :=
    fun n hlow hhigh => hnull n (by omega) (by omega)
  have haligned : largeAlignment ∣ LargeChunk.end chunk - LargeChunk.begin chunk := by
    rw [show LargeChunk.end chunk - LargeChunk.begin chunk = largeAlignment * 261120 by
      simp only [largeAlignment]; omega]
    exact Nat.dvd_mul_right _ _
  obtain ⟨htag, hagree⟩ := tagged_of_write (by omega) hmin haligned (by omega) hblank
    (by rw [hnull _ (by omega) (by omega)]; rfl) .vmHeap
  set written := (((tags.modify (beginTag (LargeChunk.begin chunk)) (.setRange
    ⟨LargeChunk.begin chunk, LargeChunk.end chunk - LargeChunk.begin chunk⟩)).modify
      (beginTag (LargeChunk.begin chunk)) (.setFree true)).modify
        (beginTag (LargeChunk.begin chunk)) (.setOwner .vmHeap)).initEnd
          (beginTag (LargeChunk.end chunk) - 1) (beginTag (LargeChunk.begin chunk))
  have hsum : LargeChunk.begin chunk + (LargeChunk.end chunk - LargeChunk.begin chunk) =
      LargeChunk.end chunk := by
    omega
  have hendTag : endTag (LargeChunk.begin chunk)
      (LargeChunk.end chunk - LargeChunk.begin chunk) = beginTag (LargeChunk.end chunk) - 1 := by
    rw [endTag_eq (by omega) (by omega), hsum]
  have hright : beginTag (LargeChunk.end chunk) - 1 + 1 = beginTag (LargeChunk.end chunk) := by
    omega
  refine ⟨(written.modify (beginTag (LargeChunk.begin chunk) - 1) .initSentinel).modify
    (beginTag (LargeChunk.end chunk)) .initSentinel, ?_, ⟨by simp [wholeChunk], ?_, ?_, ?_⟩, ?_⟩
  · simp only [LargeObject.init, hendTag, hright, wholeChunk]
    rfl
  · intro a x hx
    obtain ⟨rfl, rfl⟩ := Prod.mk.inj (mem_located_singleton.mp hx)
    refine htag.congr (by omega) fun n hlow hhigh => ?_
    rw [hsum] at hhigh
    simp only [Tags.modify]
    rw [update_of_ne (by omega), update_of_ne (by omega)]
  · simp only [Tags.modify]
    rw [update_of_ne (by omega), update_self]
    rfl
  · simp only [Tags.modify, update_self]
    rfl
  · intro n hn
    simp only [Tags.modify]
    rw [update_of_ne (by omega), update_of_ne (by omega), hagree n (by omega)]

theorem init_spec (hv : layout.Valid tags chunks) (hnew : chunk ∉ chunks) :
    ∃ tags' layout', init tags chunk = (⟨begin chunk, (wholeChunk chunk).size⟩, tags') ∧
      Layout.Valid layout' tags' (chunk :: chunks) ∧
      ∀ a x, layout'.Has (chunk :: chunks) a x ↔
        (a = begin chunk ∧ x = wholeChunk chunk) ∨ layout.Has chunks a x := by
  obtain ⟨tags', hinit, hdesc, hframe⟩ := init_describes (hv.fresh chunk hnew)
  have hother : ∀ {chunk'}, chunk' ∈ chunks → chunk' ≠ chunk := by
    rintro _ hmem rfl
    exact hnew hmem
  have hoff : ∀ {chunk' n}, chunk' ≠ chunk → chunk' * boundaryTagCount ≤ n →
      n < (chunk' + 1) * boundaryTagCount → tags' n = tags n := by
    intro chunk' n hne hn1 hn2
    refine hframe n ?_
    rw [show boundaryTagCount = 16384 from rfl] at *
    rcases Nat.lt_or_gt_of_ne hne with hlt | hlt <;> omega
  refine ⟨tags', update layout chunk [wholeChunk chunk], hinit, ⟨?_, ?_⟩, ?_⟩
  · intro chunk' hchunk'
    rcases mem_cons.mp hchunk' with rfl | hmem
    · rwa [update_self]
    · rw [update_of_ne (hother hmem)]
      exact (hv.describes chunk' hmem).congr fun n => hoff (hother hmem)
  · intro chunk' hchunk' n hn1 hn2
    rw [mem_cons, not_or] at hchunk'
    rw [hoff hchunk'.1 hn1 hn2, hv.fresh chunk' hchunk'.2 n hn1 hn2]
  · intro a x
    constructor
    · rintro ⟨chunk', hchunk', hmem⟩
      rcases mem_cons.mp hchunk' with rfl | hold
      · rw [update_self, mem_located_singleton] at hmem
        exact .inl (mk.inj hmem)
      · rw [update_of_ne (hother hold)] at hmem
        exact .inr ⟨chunk', hold, hmem⟩
    · rintro (⟨rfl, rfl⟩ | ⟨chunk', hold, hmem⟩)
      · refine ⟨chunk, mem_cons_self, ?_⟩
        rw [update_self, mem_located_singleton]
      · refine ⟨chunk', mem_cons_of_mem _ hold, ?_⟩
        rwa [update_of_ne (hother hold)]

theorem Layout.Valid.exists_block (hv : layout.Valid tags chunks) (hchunk : chunk ∈ chunks)
    (hlow : LargeChunk.begin chunk ≤ a) (hhigh : a < LargeChunk.end chunk) :
    ∃ b y, layout.Has chunks b y ∧ b ≤ a ∧ a < b + y.size := by
  have hsum := (hv.describes chunk hchunk).total_eq
  obtain ⟨b, y, hmem, hcover⟩ := exists_covering hlow
    (show a < LargeChunk.begin chunk + total Block.size (layout chunk) by omega)
  exact ⟨b, y, ⟨chunk, hchunk, hmem⟩, hcover⟩

/-- A range that some block of the layout had once. -/
def Sane (chunks : List Nat) (range : Range) : Prop :=
  largeAlignment ∣ range.begin ∧
    ∃ chunk ∈ chunks, LargeChunk.begin chunk ≤ range.begin ∧ range.begin < LargeChunk.end chunk

section

variable (hv : layout.Valid tags chunks)
include hv

theorem Layout.Valid.aligned (hx : layout.Has chunks a x) :
    largeAlignment ∣ a := by
  obtain ⟨chunk, hchunk, before, after, hlayout, rfl⟩ := hx.split
  have hd := hv.describes chunk hchunk
  rw [hlayout] at hd
  refine Nat.dvd_add ?_ (total_aligned fun z hz => hd.aligned (by simp [hz]))
  rw [begin_eq, show chunk * 16777216 + 65536 = largeAlignment * (chunk * 262144 + 1024) by
    simp only [largeAlignment]; omega]
  exact Nat.dvd_mul_right _ _

theorem Layout.Valid.sane (hx : layout.Has chunks a x) :
    Sane chunks ⟨a, x.size⟩ := by
  obtain ⟨chunk, hchunk, hlow, hhigh⟩ := hv.bounds hx
  have hmin := (hv.tagged hx).largeMin_le
  simp only [largeMin, mediumMax] at hmin
  exact ⟨hv.aligned hx, chunk, hchunk, hlow, by simp only; omega⟩

theorem Layout.Valid.tag_cases (hchunk : chunk ∈ chunks)
    (hlow : LargeChunk.begin chunk ≤ a) (hhigh : a < LargeChunk.end chunk) :
    (∃ b y isMarked, layout.Has chunks b y ∧ beginTag a = beginTag b ∧
        tags (beginTag a) = y.tag b isMarked false) ∨
      (tags (beginTag a)).isEnd = true ∨ tags (beginTag a) = .null := by
  -- The block over the last byte that shares the tag: a block may end just before it.
  obtain ⟨b, y, hy, hle, hlt⟩ := hv.exists_block (a := a / 1024 * 1024 + 1023) hchunk
    (by omega) (by rw [end_eq] at *; omega)
  have htag := hv.tagged hy
  have hb := hv.address_ge hy
  have hlow' : beginTag b ≤ beginTag a := by
    simp only [beginTag_eq]
    omega
  have hhigh' : beginTag a < beginTag (b + y.size) := by
    simp only [beginTag_eq]
    omega
  have hsucc := endTag_succ hb htag.largeMin_le
  obtain ⟨isMarked, hbegin, hend⟩ := htag.ends
  by_cases hfirst : beginTag a = beginTag b
  · exact .inl ⟨b, y, isMarked, hy, hfirst, by rw [hfirst, hbegin]⟩
  · by_cases hlast : beginTag a = endTag b y.size
    · rw [hlast] at hfirst ⊢
      exact .inr (.inl (by rw [hend hfirst]; rfl))
    · exact .inr (.inr (htag.between _ (by omega) (by omega)))

/-- The test of a free list entry is exact: it holds of the ranges of the free blocks. -/
theorem isValidAndFree_iff {range : Range}
    (hsane : Sane chunks range) :
    (get tags range.begin).isValidAndFree tags owner range.size = true ↔
      layout.Has chunks range.begin ⟨range.size, true, owner⟩ := by
  obtain ⟨haligned, chunk, hchunk, hlow, hhigh⟩ := hsane
  simp only [LargeObject.isValidAndFree, Bool.and_eq_true, Bool.not_eq_true', decide_eq_true_eq]
  simp only [LargeObject.get]
  constructor
  · rintro ⟨⟨⟨⟨hfree, hnotEnd⟩, hsize⟩, hcompact⟩, howner⟩
    rcases hv.tag_cases hchunk hlow hhigh with ⟨b, y, isMarked, hy, heq, htag⟩ | hend | hnull
    · rw [htag] at hfree hsize hcompact howner
      have hb := hv.aligned hy
      have hge := hv.address_ge hy
      obtain rfl : range.begin = b := by
        simp only [tag, compactBeginOf, beginTag_eq, largeAlignment, largeMin,
          mediumMax, begin_eq] at *
        omega
      obtain ⟨size, isFree, owner'⟩ := y
      obtain rfl : size = range.size := hsize
      obtain rfl : isFree = true := hfree
      obtain rfl : owner' = owner := howner
      exact hy
    · rw [hend] at hnotEnd
      simp at hnotEnd
    · rw [hnull] at hfree
      simp [null] at hfree
  · intro hx
    obtain ⟨isMarked, hbegin⟩ := (hv.tagged hx).begin_tag
    simp [hbegin, tag]

end

end WebKit.Bmalloc
