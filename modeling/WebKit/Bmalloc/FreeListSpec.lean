import WebKit.Bmalloc.LargeObjectSpec

/-!
# Free lists lose no valid entry

The operations on free lists reorder and drop entries, and change marks. What matters of a
list is which of its entries stand for free blocks of its owner: `take` gives up at most
the entry of the object it returns (`Taken`), and `push` drops invalid entries and
duplicates only (`push_spec`).
-/

open List

namespace WebKit.Bmalloc

open LargeChunk LargeObject FreeList Range

variable {tags : Tags} {layout : Layout} {chunks : List Nat} {owner : Owner}
  {vector : List Range} {range : Range} {i : Nat}

/-- The range is that of a free block of the owner. -/
def IsFreeRange (layout : Layout) (chunks : List Nat) (owner : Owner) (range : Range) : Prop :=
  layout.Has chunks range.begin ⟨range.size, true, owner⟩

theorem isValid_iff (owner : Owner) (hv : layout.Valid tags chunks) (hsane : Sane chunks range) :
    isValid tags owner range = true ↔ IsFreeRange layout chunks owner range :=
  isValidAndFree_iff hv hsane

theorem IsFreeRange.get_eq (hfree : IsFreeRange layout chunks owner range)
    (hv : layout.Valid tags chunks) :
    get tags range.begin = handle range.begin range.size :=
  (hv.tagged hfree).get_eq

/-! ## Removing an entry of a vector -/

theorem popAt_tail_perm (rest : List Range) :
    (rest.getLast?.toList ++ rest.dropLast).Perm rest := by
  rcases eq_nil_or_concat rest with rfl | ⟨init, last, rfl⟩
  · simp
  · simp only [concat_eq_append, getLast?_append, getLast?_singleton,
      Option.some_or, Option.toList_some, dropLast_concat]
    exact perm_append_comm

variable {r : Range}

section

variable (hget : vector[i]? = some range)
include hget

theorem popAt_perm : vector.Perm (range :: popAt vector i) := by
  obtain ⟨hi, rfl⟩ := List.getElem?_eq_some_iff.mp hget
  have hsplit : vector = vector.take i ++ vector[i] :: vector.drop (i + 1) := by
    rw [getElem_cons_drop, take_append_drop]
  refine (List.Perm.of_eq hsplit).trans (perm_middle.trans (List.Perm.cons _ ?_))
  exact (popAt_tail_perm _).symm.append_left _

theorem length_popAt : (popAt vector i).length + 1 = vector.length := by
  simpa using (popAt_perm hget).length_eq.symm

theorem mem_of_mem_popAt (hr : r ∈ popAt vector i) : r ∈ vector :=
  (popAt_perm hget).mem_iff.mpr (mem_cons_of_mem _ hr)

theorem mem_popAt_or (hr : r ∈ vector) : r = range ∨ r ∈ popAt vector i :=
  mem_cons.mp ((popAt_perm hget).mem_iff.mp hr)

theorem take_popAt : (popAt vector i).take i = vector.take i := by
  obtain ⟨hi, _⟩ := List.getElem?_eq_some_iff.mp hget
  rw [popAt, take_append_of_le_length (by simp; omega), take_take, Nat.min_self]

theorem getElem?_popAt {j : Nat} (hj : j < i) : (popAt vector i)[j]? = vector[j]? := by
  rw [← getElem?_take_of_lt hj, take_popAt hget, getElem?_take_of_lt hj]

theorem mem_drop_popAt (hr : r ∈ vector.drop i) : r = range ∨ r ∈ (popAt vector i).drop i := by
  obtain ⟨hi, rfl⟩ := List.getElem?_eq_some_iff.mp hget
  rw [← getElem_cons_drop hi, mem_cons] at hr
  refine hr.imp_right fun hr => ?_
  rw [popAt, drop_append_of_le_length (by simp; omega)]
  refine mem_append_right _ ?_
  exact (popAt_tail_perm _).mem_iff.mpr hr

theorem mem_drop_succ (hr : r ∈ vector.drop i) : r = range ∨ r ∈ vector.drop (i + 1) := by
  obtain ⟨hi, rfl⟩ := List.getElem?_eq_some_iff.mp hget
  rwa [← getElem_cons_drop hi, mem_cons] at hr

end

/-- A search of a list: it keeps every valid entry but the one whose object it returns. -/
structure Taken (valid : Range → Prop) (before after : List Range) (taken : Option Range) :
    Prop where
  sub : ∀ r ∈ after, r ∈ before
  keep : ∀ r ∈ before, valid r → r ∈ after ∨ taken = some r
  valid : ∀ r ∈ taken, r ∈ before ∧ valid r

namespace FreeList

theorem takeGreedyLoop_spec (n : Nat) (vector : List Range) (hn : vector.length ≤ n) :
    ∃ taken, (takeGreedyLoop tags owner n vector).1 =
        taken.map (fun range : Range => get tags range.begin) ∧
      Taken (fun r => isValid tags owner r = true) vector
        (takeGreedyLoop tags owner n vector).2 taken := by
  induction n generalizing vector with
  | zero =>
    obtain rfl := length_eq_zero_iff.mp (Nat.le_zero.mp hn)
    exact ⟨none, rfl, by simp [takeGreedyLoop], by simp, by simp⟩
  | succ n ih =>
    cases vector with
    | nil => exact ⟨none, rfl, by simp [takeGreedyLoop], by simp, by simp⟩
    | cons range rest =>
      have hget : (range :: rest)[0]? = some range := rfl
      rw [takeGreedyLoop]
      split
      · rename_i hvalid
        refine ⟨some range, rfl, fun r hr => mem_of_mem_popAt hget hr, fun r hr _ => ?_, ?_⟩
        · exact (mem_popAt_or hget hr).symm.imp_right fun heq => by rw [heq]
        · rintro r ⟨⟩
          exact ⟨mem_cons_self, hvalid⟩
      · rename_i hvalid
        have hlen := length_popAt hget
        obtain ⟨taken, htaken, hsub, hkeep, hspec⟩ := ih (popAt (range :: rest) 0) (by omega)
        refine ⟨taken, htaken, fun r hr => mem_of_mem_popAt hget (hsub r hr), fun r hr hr' => ?_,
          fun r hr => ⟨mem_of_mem_popAt hget (hspec r hr).1, (hspec r hr).2⟩⟩
        rcases mem_popAt_or hget hr with rfl | hr
        · exact absurd hr' hvalid
        · exact hkeep r hr hr'

theorem takeGreedy_spec (list : FreeList) (tags : Tags) (owner : Owner) :
    ∃ taken, (list.takeGreedy tags owner).1 =
        taken.map (fun range : Range => get tags range.begin) ∧
      Taken (fun r => isValid tags owner r = true) list.vector
        (list.takeGreedy tags owner).2.vector taken :=
  takeGreedyLoop_spec _ _ le_rfl

/-- What the search knows about its candidate. -/
def IsCandidate (tags : Tags) (owner : Owner) (test : Tags → LargeObject → Bool)
    (vector : List Range) (i : Nat) (candidate : LargeObject × Nat) : Prop :=
  candidate.2 < i ∧ ∃ range, vector[candidate.2]? = some range ∧
    candidate.1 = get tags range.begin ∧ isValid tags owner range = true ∧
    test tags candidate.1 = true

/-- What the search does from an index on: it drops invalid entries only, and it finds an
object if one of the entries is valid and passes the test. -/
structure Searched (tags : Tags) (owner : Owner) (test : Tags → LargeObject → Bool)
    (i : Nat) (before : List Range) (candidate : Option (LargeObject × Nat))
    (result : Option (LargeObject × Nat) × List Range) : Prop where
  sub : ∀ r ∈ result.2, r ∈ before
  keep : ∀ r ∈ before, isValid tags owner r = true → r ∈ result.2
  found : ∀ c ∈ result.1, IsCandidate tags owner test result.2 result.2.length c
  notFound : result.1 = none → candidate = none ∧ ∀ r ∈ before.drop i,
    isValid tags owner r = true → test tags (get tags r.begin) = false

theorem takeLoop_spec (tags : Tags) (owner : Owner) (test : Tags → LargeObject → Bool)
    (n i : Nat) (vector : List Range) (candidate : Option (LargeObject × Nat))
    (hn : n + i = vector.length)
    (hcandidate : ∀ c ∈ candidate, IsCandidate tags owner test vector i c) :
    Searched tags owner test i vector candidate
      (takeLoop tags owner test n i vector candidate) := by
  induction n generalizing i vector candidate with
  | zero =>
    obtain rfl : i = vector.length := by omega
    refine ⟨fun r hr => hr, fun r hr _ => hr, hcandidate, fun hnone => ⟨hnone, ?_⟩⟩
    simp
  | succ n ih =>
    obtain ⟨range, hget⟩ : ∃ range, vector[i]? = some range := ⟨vector.get ⟨i, by omega⟩, by simp⟩
    -- Moving on past an entry, with the same candidate or a better one.
    have hnext : ∀ candidate' : Option (LargeObject × Nat),
        (∀ c ∈ candidate', IsCandidate tags owner test vector (i + 1) c) →
        (candidate' = none → candidate = none ∧ (isValid tags owner range = true →
          test tags (get tags range.begin) = false)) →
        Searched tags owner test i vector candidate
          (takeLoop tags owner test n (i + 1) vector candidate') := by
      intro candidate' hcandidate' hnone'
      obtain ⟨hsub, hkeep, hspec, hnone⟩ := ih (i + 1) vector candidate' (by omega) hcandidate'
      refine ⟨hsub, hkeep, hspec, fun h => ?_⟩
      obtain ⟨hcand, hrest⟩ := hnone h
      refine ⟨(hnone' hcand).1, fun r hr => ?_⟩
      rcases mem_drop_succ hget hr with rfl | hr
      · exact (hnone' hcand).2
      · exact hrest r hr
    have hstay : ∀ c ∈ candidate, IsCandidate tags owner test vector (i + 1) c := by
      intro c hc
      obtain ⟨hlt, hrange⟩ := hcandidate c hc
      exact ⟨by omega, hrange⟩
    simp only [takeLoop, hget]
    split
    · rename_i hinvalid
      have hlen := length_popAt hget
      obtain ⟨hsub, hkeep, hspec, hnone⟩ :=
        ih i (popAt vector i) candidate (by omega) fun c hc => by
          obtain ⟨hlt, range', hget', hrange'⟩ := hcandidate c hc
          exact ⟨hlt, range', by rw [getElem?_popAt hget hlt, hget'], hrange'⟩
      refine ⟨fun r hr => mem_of_mem_popAt hget (hsub r hr), fun r hr hvalid => ?_, hspec,
        fun h => ⟨(hnone h).1, fun r hr hvalid => ?_⟩⟩
      · rcases mem_popAt_or hget hr with rfl | hr
        · simp [hinvalid] at hvalid
        · exact hkeep r hr hvalid
      · rcases mem_drop_popAt hget hr with rfl | hr
        · simp [hinvalid] at hvalid
        · exact (hnone h).2 r hr hvalid
    · rename_i hvalid
      split
      · rename_i htest
        exact hnext candidate hstay fun hnone => ⟨hnone, fun _ => htest⟩
      · rename_i htest
        split
        · rename_i hbetter
          refine hnext candidate hstay fun hnone => ?_
          simp [hnone] at hbetter
        · refine hnext _ ?_ (by simp)
          rintro c ⟨⟩
          exact ⟨Nat.lt_succ_self i, range, hget, rfl, by simpa using hvalid, by simpa using htest⟩

theorem Searched.taken {test : Tags → LargeObject → Bool} {before vector : List Range}
    {object : LargeObject} {j : Nat}
    (h : Searched tags owner test i before none (some (object, j), vector)) :
    ∃ range, object = get tags range.begin ∧ test tags object = true ∧
      Taken (fun r => isValid tags owner r = true) before (popAt vector j) (some range) := by
  obtain ⟨_, range, hget, hobj, hvalid, htest⟩ := h.found (object, j) rfl
  refine ⟨range, hobj, htest, fun r hr => h.sub r (mem_of_mem_popAt hget hr),
    fun r hr hvalid' => ?_, ?_⟩
  · exact (mem_popAt_or hget (h.keep r hr hvalid')).symm.imp_right fun heq => by rw [heq]
  · rintro r ⟨⟩
    exact ⟨h.sub _ (mem_of_getElem? hget), hvalid⟩

/-- `take` returns an object that passes the test, and finds one if the last entry is valid
and passes it. -/
theorem take_spec (list : FreeList) (tags : Tags) (owner : Owner)
    (test : Tags → LargeObject → Bool) :
    ∃ taken, (list.take tags owner test).1 = taken.map (fun range : Range => get tags range.begin) ∧
      Taken (fun r => isValid tags owner r = true) list.vector
        (list.take tags owner test).2.vector taken ∧
      (∀ r ∈ taken, test tags (get tags r.begin) = true) ∧
      (taken = none → ∀ r ∈ list.vector.getLast?, isValid tags owner r = true →
        test tags (get tags r.begin) = false) := by
  obtain ⟨begin, hbegin⟩ : ∃ begin, begin = list.vector.length - freeListSearchDepth := ⟨_, rfl⟩
  have hloop := takeLoop_spec tags owner test (list.vector.length - begin) begin list.vector none
    (by omega) (by simp)
  have htake : list.take tags owner test =
      list.finishTake (takeLoop tags owner test (list.vector.length - begin) begin
        list.vector none) := by
    rw [take, hbegin]
  rw [htake]
  generalize takeLoop tags owner test (list.vector.length - begin) begin list.vector none = result
    at hloop ⊢
  obtain ⟨candidate, vector⟩ := result
  cases candidate with
  | none =>
    refine ⟨none, rfl, ⟨hloop.sub, fun r hr hvalid => .inl (hloop.keep r hr hvalid), by simp⟩,
      by simp, fun _ r hr => (hloop.notFound rfl).2 r ?_⟩
    obtain ⟨init, hinit⟩ := getLast?_eq_some_iff.mp hr
    have hle : begin ≤ init.length := by
      rw [hbegin, hinit, length_append, length_singleton, freeListSearchDepth]
      omega
    rw [hinit, drop_append_of_le_length hle]
    simp
  | some candidate =>
    obtain ⟨object, j⟩ := candidate
    obtain ⟨range, rfl, htest, htaken⟩ := hloop.taken
    refine ⟨some range, rfl, htaken, ?_, by simp⟩
    rintro r ⟨⟩
    exact htest

/-- Whether the block at an address is marked. -/
def marked (tags : Tags) (address : Nat) : Bool := (tags (beginTag address)).isMarked

theorem marked_setMarked {a b : Nat} {x y : Block} (hv : layout.Valid tags chunks)
    (hx : layout.Has chunks a x) (hy : layout.Has chunks b y) (isMarked : Bool) :
    marked ((handle a x.size).setMarked tags isMarked) b =
      if b = a then isMarked else marked tags b := by
  have ha := hv.address_ge hx
  have hb := hv.address_ge hy
  have hsucc := endTag_succ ha (hv.tagged hx).largeMin_le
  have hlt := beginTag_lt ha (hv.tagged hx).largeMin_le
  have hlt' := beginTag_lt hb (hv.tagged hy).largeMin_le
  simp only [marked, setMarked, setTags, Tags.modify, handle,
    Function.update_apply, BoundaryTag.setMarked]
  by_cases heq : b = a
  · subst heq
    simp only [if_true]
    split <;> rfl
  · have hoff : beginTag b ≠ beginTag a ∧ beginTag b ≠ endTag a x.size := by
      rcases hv.disjoint hx hy (Ne.symm heq) with hle | hle
      all_goals
        have := beginTag_mono hle
        omega
    rw [if_neg hoff.2, if_neg hoff.1, if_neg heq]

/-- A pass over a list: the layout stays, and no valid entry is lost. -/
structure Cleaned (layout : Layout) (chunks : List Nat) (owner : Owner) (before : List Range)
    (result : Tags × List Range) : Prop where
  valid : layout.Valid result.1 chunks
  sub : ∀ r ∈ result.2, r ∈ before
  keep : ∀ r ∈ before, IsFreeRange layout chunks owner r → r ∈ result.2

theorem unmarkLoop_spec (owner : Owner) (n i : Nat) (tags : Tags) (vector : List Range)
    (hn : n + i = vector.length) (hv : layout.Valid tags chunks)
    (hsane : ∀ r ∈ vector, Sane chunks r)
    (hdone : ∀ r ∈ vector.take i, IsFreeRange layout chunks owner r ∧ marked tags r.begin = false) :
    Cleaned layout chunks owner vector (unmarkLoop owner n i tags vector) ∧
      ∀ r ∈ (unmarkLoop owner n i tags vector).2, IsFreeRange layout chunks owner r ∧
        marked (unmarkLoop owner n i tags vector).1 r.begin = false := by
  induction n generalizing i tags vector with
  | zero =>
    obtain rfl : i = vector.length := by omega
    rw [take_length] at hdone
    exact ⟨⟨hv, fun _ hr => hr, fun _ hr _ => hr⟩, hdone⟩
  | succ n ih =>
    obtain ⟨range, hget⟩ : ∃ range, vector[i]? = some range := ⟨vector.get ⟨i, by omega⟩, by simp⟩
    have hrange := isValid_iff owner hv (hsane range (mem_of_getElem? hget))
    simp only [unmarkLoop, hget]
    split
    · rename_i hinvalid
      have hlen := length_popAt hget
      obtain ⟨⟨hvalid, hsub, hkeep⟩, hall⟩ := ih i tags (popAt vector i) (by omega) hv
        (fun r hr => hsane r (mem_of_mem_popAt hget hr)) (by rwa [take_popAt hget])
      refine ⟨⟨hvalid, fun r hr => mem_of_mem_popAt hget (hsub r hr), fun r hr hfree => ?_⟩, hall⟩
      rcases mem_popAt_or hget hr with rfl | hr
      · rw [hrange.mpr hfree] at hinvalid
        simp at hinvalid
      · exact hkeep r hr hfree
    · rename_i hvalid
      have hfree := hrange.mp (by simpa using hvalid)
      rw [hfree.get_eq hv]
      refine ih (i + 1) _ vector (by omega) (setMarked_valid hv hfree false) hsane fun r hr => ?_
      rw [take_add_one, hget] at hr
      rcases mem_append.mp hr with hr | hr
      · refine ⟨(hdone r hr).1, ?_⟩
        rw [marked_setMarked hv hfree (hdone r hr).1]
        split
        · rfl
        · exact (hdone r hr).2
      · obtain rfl : r = range := by simpa using hr
        refine ⟨hfree, ?_⟩
        rw [marked_setMarked hv hfree hfree, if_pos rfl]

theorem markLoop_spec (owner : Owner) (n i : Nat) (tags : Tags) (vector : List Range)
    (hn : n + i = vector.length) (hv : layout.Valid tags chunks)
    (hfree : ∀ r ∈ vector, IsFreeRange layout chunks owner r)
    (hdone : ∀ r ∈ vector, marked tags r.begin = true → r ∈ vector.take i) :
    Cleaned layout chunks owner vector (markLoop n i tags vector) := by
  induction n generalizing i tags vector with
  | zero => exact ⟨hv, fun _ hr => hr, fun _ hr _ => hr⟩
  | succ n ih =>
    obtain ⟨range, hget⟩ : ∃ range, vector[i]? = some range := ⟨vector.get ⟨i, by omega⟩, by simp⟩
    have hrange := hfree range (mem_of_getElem? hget)
    simp only [markLoop, hget]
    split
    · rename_i hmarked
      -- The block was marked for an entry that is kept.
      have hearlier := hdone range (mem_of_getElem? hget) hmarked
      have hmem : range ∈ popAt vector i := mem_of_mem_take (by rwa [take_popAt hget])
      have hlen := length_popAt hget
      obtain ⟨hvalid, hsub, hkeep⟩ := ih i tags (popAt vector i) (by omega) hv
        (fun r hr => hfree r (mem_of_mem_popAt hget hr)) fun r hr hr' => by
          rw [take_popAt hget]
          exact hdone r (mem_of_mem_popAt hget hr) hr'
      refine ⟨hvalid, fun r hr => mem_of_mem_popAt hget (hsub r hr), fun r hr hr' => ?_⟩
      rcases mem_popAt_or hget hr with rfl | hr
      · exact hkeep r hmem hr'
      · exact hkeep r hr hr'
    · rw [hrange.get_eq hv]
      refine ih (i + 1) _ vector (by omega) (setMarked_valid hv hrange true) hfree fun r hr hr' => ?_
      rw [take_add_one, hget]
      rw [marked_setMarked hv hrange (hfree r hr)] at hr'
      split at hr'
      · rename_i hbegin
        have hblock := hfree r hr
        rw [IsFreeRange, hbegin] at hblock
        have hsize : r.size = range.size := congrArg Block.size (hv.unique_begin hblock hrange)
        obtain rfl : r = range := by
          cases r
          cases range
          simp only at hbegin hsize
          rw [hbegin, hsize]
        exact mem_append_right _ (by simp)
      · exact mem_append_left _ (hdone r hr hr')

theorem removeInvalidAndDuplicateEntries_spec (owner : Owner) (list : FreeList)
    (hv : layout.Valid tags chunks)
    (hsane : ∀ r ∈ list.vector, Sane chunks r) :
    Cleaned layout chunks owner list.vector ((list.removeInvalidAndDuplicateEntries tags owner).1,
        (list.removeInvalidAndDuplicateEntries tags owner).2.vector) := by
  obtain ⟨⟨hvalid, hsub, hkeep⟩, hall⟩ := unmarkLoop_spec owner list.vector.length 0 tags
    list.vector rfl hv hsane (by simp)
  obtain ⟨hvalid', hsub', hkeep'⟩ := markLoop_spec owner
    (unmarkLoop owner list.vector.length 0 tags list.vector).2.length 0 _ _ rfl hvalid
    (fun r hr => (hall r hr).1) fun r hr hr' => by simp [(hall r hr).2] at hr'
  exact ⟨hvalid', fun r hr => hsub r (hsub' r hr), fun r hr hfree =>
    hkeep' r (hkeep r hr hfree) hfree⟩

theorem push_spec (owner : Owner) (list : FreeList) (hv : layout.Valid tags chunks)
    (hsane : ∀ r ∈ list.vector, Sane chunks r) {a : Nat} {x : Block}
    (hx : layout.Has chunks a x) :
    ∃ tags' list', list.push tags owner (LargeObject.handle a x.size) = (tags', list') ∧
      layout.Valid tags' chunks ∧
      (∀ r ∈ list'.vector, r ∈ list.vector ∨ r = ⟨a, x.size⟩) ∧
      (∀ r ∈ list.vector, IsFreeRange layout chunks owner r → r ∈ list'.vector) ∧
      list'.vector.getLast? = some ⟨a, x.size⟩ := by
  have hrange : ∀ {tags : Tags}, layout.Valid tags chunks →
      (LargeObject.handle a x.size).range tags = ⟨a, x.size⟩ := by
    intro tags hv
    obtain ⟨isMarked, hbegin⟩ := (hv.tagged hx).begin_tag
    simp [LargeObject.range, LargeObject.size, LargeObject.handle, hbegin, Block.tag]
  simp only [push]
  split
  · obtain ⟨hvalid, hsub, hkeep⟩ := removeInvalidAndDuplicateEntries_spec owner list hv hsane
    refine ⟨_, _, rfl, hvalid, fun r hr => ?_, fun r hr hfree => ?_, ?_⟩
    · rw [hrange hvalid] at hr
      exact (mem_append.mp hr).imp (hsub r) (by simp)
    · exact mem_append_left _ (hkeep r hr hfree)
    · simp [hrange hvalid]
  · refine ⟨_, _, rfl, hv, fun r hr => ?_, fun r hr hfree => ?_, ?_⟩
    · rw [hrange hv] at hr
      exact (mem_append.mp hr).imp_right (by simp)
    · exact mem_append_left _ hr
    · simp [hrange hv]

end FreeList

/-! ## All lists of an owner -/

theorem Taken.refl (valid : Range → Prop) (list : List Range) : Taken valid list list none :=
  ⟨fun _ hr => hr, fun _ hr _ => .inl hr, by simp⟩

theorem Taken.append {valid : Range → Prop} {b1 b2 a1 a2 : List Range} {t1 t2 : Option Range}
    (h1 : Taken valid b1 a1 t1) (h2 : Taken valid b2 a2 t2) (hone : t1 = none ∨ t2 = none) :
    Taken valid (b1 ++ b2) (a1 ++ a2) (t1.or t2) := by
  refine ⟨fun r hr => ?_, fun r hr hvalid => ?_, fun r hr => ?_⟩
  · rcases mem_append.mp hr with hr | hr
    · exact mem_append_left _ (h1.sub r hr)
    · exact mem_append_right _ (h2.sub r hr)
  · rcases mem_append.mp hr with hr | hr
    · rcases h1.keep r hr hvalid with hr | rfl
      · exact .inl (mem_append_left _ hr)
      · exact .inr rfl
    · rcases h2.keep r hr hvalid with hr | rfl
      · exact .inl (mem_append_right _ hr)
      · rcases hone with rfl | hone
        · exact .inr rfl
        · simp at hone
  · cases t1 with
    | none =>
      obtain ⟨hmem, hvalid⟩ := h2.valid r (by simpa using hr)
      exact ⟨mem_append_right _ hmem, hvalid⟩
    | some t =>
      obtain ⟨hmem, hvalid⟩ := h1.valid r (by simpa using hr)
      exact ⟨mem_append_left _ hmem, hvalid⟩

namespace SegregatedFreeList

/-- The entries of all lists. -/
def entriesOf (freeLists : List FreeList) : List Range := freeLists.flatMap (·.vector)

def entries (lists : SegregatedFreeList) : List Range := entriesOf lists.freeLists

theorem entriesOf_cons (list : FreeList) (lists : List FreeList) :
    entriesOf (list :: lists) = list.vector ++ entriesOf lists :=
  flatMap_cons

theorem mem_entries_of_getElem? {freeLists : List FreeList} {list : FreeList}
    (hget : freeLists[i]? = some list) (hr : r ∈ list.vector) : r ∈ entriesOf freeLists :=
  mem_flatMap.mpr ⟨list, mem_of_getElem? hget, hr⟩

theorem select_lt {size : Nat} (hsize : size < 2 ^ 24) : select size < freeListCount := by
  simp only [select, freeListCount]
  split
  · omega
  · rename_i hne
    have hlt : Nat.log2 ((size - largeMin) / largeAlignment) < 18 := by
      rw [Nat.log2_lt hne]
      simp only [largeMin, mediumMax, largeAlignment]
      omega
    omega

variable {test : Tags → LargeObject → Bool}

theorem takeLoop_spec (tags : Tags) (owner : Owner) (test : Tags → LargeObject → Bool)
    (skip : Nat) (freeLists : List FreeList) :
    ∃ taken, (takeLoop tags owner test skip freeLists).1 =
        taken.map (fun range : Range => get tags range.begin) ∧
      Taken (fun r => isValid tags owner r = true) (entriesOf freeLists)
        (entriesOf (takeLoop tags owner test skip freeLists).2) taken ∧
      (takeLoop tags owner test skip freeLists).2.length = freeLists.length ∧
      (∀ r ∈ taken, test tags (get tags r.begin) = true) ∧
      (taken = none → ∀ i list, skip ≤ i → freeLists[i]? = some list →
        ∀ r ∈ list.vector.getLast?, isValid tags owner r = true →
          test tags (get tags r.begin) = false) := by
  induction freeLists generalizing skip with
  | nil =>
    exact ⟨none, rfl, Taken.refl _ _, rfl, by simp, by simp⟩
  | cons list lists ih =>
    cases skip with
    | succ skip =>
      obtain ⟨taken, hobj, htaken, hlen, htest, hnone⟩ := ih skip
      rw [takeLoop]
      refine ⟨taken, hobj, ?_, by simp [hlen], htest, ?_⟩
      · simp only [entriesOf_cons]
        simpa using (Taken.refl _ list.vector).append htaken (.inl rfl)
      · intro h i list' hi hget
        cases i with
        | zero => omega
        | succ i => exact hnone h i list' (by omega) (by simpa using hget)
    | zero =>
      obtain ⟨taken, hobj, htaken, htest, hnone⟩ := take_spec list tags owner test
      rw [takeLoop]
      cases taken with
      | some range =>
        rw [if_pos (by rw [hobj]; rfl)]
        refine ⟨some range, hobj, ?_, by simp, htest, by simp⟩
        simp only [entriesOf_cons]
        simpa using htaken.append (Taken.refl _ (entriesOf lists)) (.inr rfl)
      | none =>
        obtain ⟨taken, hobj', htaken', hlen, htest', hnone'⟩ := ih 0
        rw [if_neg (by rw [hobj]; simp)]
        refine ⟨taken, hobj', ?_, by simp [hlen], htest', ?_⟩
        · simp only [entriesOf_cons]
          simpa using htaken.append htaken' (.inl rfl)
        · intro h i list' _ hget
          cases i with
          | zero =>
            obtain rfl : list = list' := by simpa using hget
            exact hnone rfl
          | succ i => exact hnone' h i list' (Nat.zero_le _) (by simpa using hget)

theorem take_spec (lists : SegregatedFreeList) (tags : Tags) (size : Nat)
    (test : Tags → LargeObject → Bool) :
    ∃ taken lists', lists.take tags size test =
        (taken.map (fun range : Range => get tags range.begin), lists') ∧
      Taken (fun r => isValid tags lists.owner r = true) lists.entries lists'.entries taken ∧
      lists'.owner = lists.owner ∧ lists'.freeLists.length = lists.freeLists.length ∧
      (∀ r ∈ taken, test tags (get tags r.begin) = true) ∧
      (taken = none → ∀ i list, select size ≤ i → lists.freeLists[i]? = some list →
        ∀ r ∈ list.vector.getLast?, isValid tags lists.owner r = true →
          test tags (get tags r.begin) = false) := by
  obtain ⟨taken, hobj, htaken, hlen, htest, hnone⟩ :=
    takeLoop_spec tags lists.owner test (select size) lists.freeLists
  exact ⟨taken, ⟨lists.owner, _⟩, by rw [take, ← hobj], htaken, rfl, hlen, htest, hnone⟩

theorem takeGreedyLoop_spec (tags : Tags) (owner : Owner) (freeLists : List FreeList) :
    ∃ taken, (takeGreedyLoop tags owner freeLists).1 =
        taken.map (fun range : Range => get tags range.begin) ∧
      Taken (fun r => isValid tags owner r = true) (entriesOf freeLists)
        (entriesOf (takeGreedyLoop tags owner freeLists).2) taken ∧
      (takeGreedyLoop tags owner freeLists).2.length = freeLists.length := by
  induction freeLists with
  | nil =>
    exact ⟨none, rfl, Taken.refl _ _, rfl⟩
  | cons list lists ih =>
    obtain ⟨taken, hobj, htaken, hlen⟩ := ih
    rw [takeGreedyLoop]
    cases taken with
    | some range =>
      rw [if_pos (by rw [hobj]; rfl)]
      refine ⟨some range, hobj, ?_, by simp [hlen]⟩
      simp only [entriesOf_cons]
      simpa using (Taken.refl _ list.vector).append htaken (.inl rfl)
    | none =>
      obtain ⟨taken, hobj', htaken'⟩ := takeGreedy_spec list tags owner
      rw [if_neg (by rw [hobj]; simp)]
      refine ⟨taken, hobj', ?_, by simp [hlen]⟩
      simp only [entriesOf_cons]
      simpa using htaken'.append htaken (.inr rfl)

theorem takeGreedy_spec (lists : SegregatedFreeList) (tags : Tags) :
    ∃ taken lists', lists.takeGreedy tags =
        (taken.map (fun range : Range => get tags range.begin), lists') ∧
      Taken (fun r => isValid tags lists.owner r = true) lists.entries lists'.entries taken ∧
      lists'.owner = lists.owner ∧ lists'.freeLists.length = lists.freeLists.length := by
  obtain ⟨taken, hobj, htaken, hlen⟩ := takeGreedyLoop_spec tags lists.owner lists.freeLists
  exact ⟨taken, ⟨lists.owner, _⟩, by rw [takeGreedy, ← hobj], htaken, rfl, hlen⟩

theorem mem_entriesOf_set {freeLists : List FreeList} {list list' : FreeList}
    (hget : freeLists[i]? = some list) :
    (r ∈ entriesOf (freeLists.set i list') → r ∈ entriesOf freeLists ∨ r ∈ list'.vector) ∧
      (r ∈ entriesOf freeLists → r ∈ entriesOf (freeLists.set i list') ∨ r ∈ list.vector) := by
  obtain ⟨hi, rfl⟩ := List.getElem?_eq_some_iff.mp hget
  constructor
  · intro hr
    obtain ⟨l, hl, hr⟩ := mem_flatMap.mp hr
    rcases mem_or_eq_of_mem_set hl with hl | heq
    · exact .inl (mem_flatMap.mpr ⟨l, hl, hr⟩)
    · exact .inr (heq ▸ hr)
  · intro hr
    obtain ⟨l, hl, hr⟩ := mem_flatMap.mp hr
    obtain ⟨j, hj, rfl⟩ := mem_iff_getElem.mp hl
    by_cases heq : i = j
    · subst heq
      exact .inr hr
    · refine .inl (mem_entries_of_getElem? (i := j) ?_ hr)
      rw [List.getElem?_set_ne heq, List.getElem?_eq_getElem hj]

theorem insert_spec (lists : SegregatedFreeList) (hv : layout.Valid tags chunks)
    (hcount : lists.freeLists.length = freeListCount)
    (hsane : ∀ r ∈ lists.entries, Sane chunks r) {a : Nat} {x : Block}
    (hx : layout.Has chunks a x) :
    ∃ tags' lists', lists.insert tags (LargeObject.handle a x.size) = (tags', lists') ∧
      layout.Valid tags' chunks ∧ lists'.owner = lists.owner ∧
      lists'.freeLists.length = freeListCount ∧
      (∀ r ∈ lists'.entries, r ∈ lists.entries ∨ r = ⟨a, x.size⟩) ∧
      (∀ r ∈ lists.entries, IsFreeRange layout chunks lists.owner r → r ∈ lists'.entries) ∧
      (⟨a, x.size⟩ : Range) ∈ lists'.entries ∧
      ∃ list, lists'.freeLists[select x.size]? = some list ∧
        list.vector.getLast? = some ⟨a, x.size⟩ := by
  have hselect := select_lt (hv.size_lt hx)
  have hlt : select x.size < lists.freeLists.length := hcount ▸ hselect
  have hget : lists.freeLists[select x.size]? = some lists.freeLists[select x.size] :=
    getElem?_eq_getElem hlt
  have hsize : (LargeObject.handle a x.size).size tags = x.size := by
    obtain ⟨isMarked, hbegin⟩ := (hv.tagged hx).begin_tag
    simp [LargeObject.size, LargeObject.handle, hbegin, Block.tag]
  obtain ⟨tags', list', hpush, hvalid, hsub, hkeep, hlast⟩ :=
    FreeList.push_spec lists.owner lists.freeLists[select x.size] hv
      (fun r hr => hsane r (mem_entries_of_getElem? hget hr)) hx
  have hset : (lists.freeLists.set (select x.size) list')[select x.size]? = some list' := by
    rw [getElem?_set_self hlt]
  have hnew : (⟨a, x.size⟩ : Range) ∈ list'.vector := mem_of_getLast? hlast
  refine ⟨tags', ⟨lists.owner, lists.freeLists.set (select x.size) list'⟩,
    by simp only [insert, hsize, hget, hpush], hvalid, rfl, by simpa using hcount,
    fun r hr => ?_, fun r hr hfree => ?_, mem_entries_of_getElem? hset hnew, list', hset, hlast⟩
  · rcases (mem_entriesOf_set hget).1 hr with hr | hr
    · exact .inl hr
    · exact (hsub r hr).imp_left (mem_entries_of_getElem? hget)
  · rcases (mem_entriesOf_set hget).2 hr with hr | hr
    · exact hr
    · exact mem_entries_of_getElem? hset (hkeep r hr hfree)

end SegregatedFreeList

end WebKit.Bmalloc
