import WebKit.Platform.SharedBuffer
import Mathlib.Data.List.Count
import Mathlib.Algebra.Order.Ring.Int

/-!
# A `SharedBuffer` is a byte string

The vector of a buffer and then its segments hold the string (`Represents`), and every buffer has
a `DataBuffer` of its own (`Represent`), so an operation on one buffer leaves the others alone
(`OnlyChanges`).
-/

namespace WebKit.Platform

open Blocks Function List SharedBuffers DataBuffer

theorem toUnsigned_natCast {n : ℕ} (h : n < 2 ^ 32) : toUnsigned n = n := by
  rw [toUnsigned]
  omega

theorem offsetInSegment_eq (position : ℕ) : offsetInSegment position = position % segmentSize :=
  Nat.and_two_pow_sub_one_eq_mod position 12

theorem length_allocateSegment : allocateSegment.length = segmentSize := length_replicate

theorem segmentSize_pos : 0 < segmentSize := by
  unfold segmentSize
  omega

namespace DataBuffer

variable (fastMallocGoodSize : ℕ → ℕ) (buffer : DataBuffer)

@[simp]
theorem data_reserveInitialCapacity (n : ℕ) :
    (buffer.reserveInitialCapacity fastMallocGoodSize n).data = buffer.data := by
  unfold reserveInitialCapacity
  split <;> rfl

@[simp]
theorem data_reserveCapacity (n : ℕ) :
    (buffer.reserveCapacity fastMallocGoodSize n).data = buffer.data := by
  unfold reserveCapacity
  split <;> rfl

@[simp]
theorem data_expandCapacity (n : ℕ) :
    (buffer.expandCapacity fastMallocGoodSize n).data = buffer.data :=
  data_reserveCapacity _ _ _

@[simp]
theorem data_append (data : List Cell) :
    (buffer.append fastMallocGoodSize data).data = buffer.data ++ data := by
  unfold append
  dsimp only
  split
  · rw [data_expandCapacity]
  · rfl

theorem data_resize {size : ℕ} (h : buffer.data.length < size) :
    (buffer.resize fastMallocGoodSize size).data =
      buffer.data ++ replicate (size - buffer.data.length) none := by
  unfold resize
  rw [if_neg (Nat.not_le.mpr h)]
  dsimp only
  split
  · rw [data_expandCapacity]
  · rfl

end DataBuffer

namespace SharedBuffers

variable {fastMallocGoodSize : ℕ → ℕ} {s t u : SharedBuffers} {i : ℕ} {l data : List UInt8}

/-! ## One buffer -/

/-- The vector and the segments hold the string, and there are fewer than 2^20 segments. -/
structure Represents (s : SharedBuffers) (i : ℕ) (l : List UInt8) : Prop where
  size_eq : (s.sharedBuffers i).size = l.length
  length_lt : l.length < 2 ^ 32
  contents : ∃ content, (s.dataBuffer i).data ++ content = l.map some ∧
    Holds segmentSize (s.sharedBuffers i).segments content
  segmented : (s.sharedBuffers i).segments ≠ [] → segmentSize < l.length
  bounded : l.length ≤ (s.dataBuffer i).data.length + (2 ^ 32 - segmentSize)

/-- The buffer and its `DataBuffer` may change, and nothing else. -/
structure OnlyChanges (s t : SharedBuffers) (i : ℕ) : Prop where
  sharedBufferCount_eq : t.sharedBufferCount = s.sharedBufferCount
  dataBufferCount_eq : t.dataBufferCount = s.dataBufferCount
  buffer_eq : ∀ k, (t.sharedBuffers k).buffer = (s.sharedBuffers k).buffer
  sharedBuffers_eq : ∀ k, k ≠ i → t.sharedBuffers k = s.sharedBuffers k
  dataBuffers_eq : ∀ r, r ≠ (s.sharedBuffers i).buffer → t.dataBuffers r = s.dataBuffers r

namespace OnlyChanges

theorem refl (s : SharedBuffers) (i : ℕ) : s.OnlyChanges s i :=
  ⟨rfl, rfl, fun _ => rfl, fun _ _ => rfl, fun _ _ => rfl⟩

theorem trans (h : s.OnlyChanges t i) (h' : t.OnlyChanges u i) : s.OnlyChanges u i where
  sharedBufferCount_eq := h'.sharedBufferCount_eq.trans h.sharedBufferCount_eq
  dataBufferCount_eq := h'.dataBufferCount_eq.trans h.dataBufferCount_eq
  buffer_eq k := (h'.buffer_eq k).trans (h.buffer_eq k)
  sharedBuffers_eq k hk := (h'.sharedBuffers_eq k hk).trans (h.sharedBuffers_eq k hk)
  dataBuffers_eq r hr := (h'.dataBuffers_eq r (h.buffer_eq i ▸ hr)).trans (h.dataBuffers_eq r hr)

theorem setSharedBuffer (sharedBuffer : SharedBuffer)
    (hbuf : sharedBuffer.buffer = (s.sharedBuffers i).buffer) :
    s.OnlyChanges (s.setSharedBuffer i sharedBuffer) i where
  sharedBufferCount_eq := rfl
  dataBufferCount_eq := rfl
  buffer_eq k := by
    by_cases hk : k = i
    · subst hk
      exact (congrArg SharedBuffer.buffer (update_self _ _ _)).trans hbuf
    · exact congrArg SharedBuffer.buffer (update_of_ne hk _ _)
  sharedBuffers_eq k hk := update_of_ne hk _ _
  dataBuffers_eq _ _ := rfl

theorem setDataBuffer (dataBuffer : DataBuffer) :
    s.OnlyChanges (s.setDataBuffer i dataBuffer) i where
  sharedBufferCount_eq := rfl
  dataBufferCount_eq := rfl
  buffer_eq _ := rfl
  sharedBuffers_eq _ _ := rfl
  dataBuffers_eq _ hr := update_of_ne hr _ _

theorem hasOneRef_eq (h : s.OnlyChanges t i) (k : ℕ) : t.hasOneRef k = s.hasOneRef k := by
  unfold hasOneRef
  simp only [h.sharedBufferCount_eq, h.buffer_eq]

end OnlyChanges

@[simp]
theorem dataBuffer_setDataBuffer (dataBuffer : DataBuffer) :
    (s.setDataBuffer i dataBuffer).dataBuffer i = dataBuffer :=
  update_self _ _ _

@[simp]
theorem sharedBuffers_setDataBuffer (dataBuffer : DataBuffer) (k : ℕ) :
    (s.setDataBuffer i dataBuffer).sharedBuffers k = s.sharedBuffers k := rfl

@[simp]
theorem sharedBuffers_setSharedBuffer (sharedBuffer : SharedBuffer) :
    (s.setSharedBuffer i sharedBuffer).sharedBuffers i = sharedBuffer :=
  update_self _ _ _

theorem dataBuffer_setSharedBuffer {sharedBuffer : SharedBuffer}
    (hbuf : sharedBuffer.buffer = (s.sharedBuffers i).buffer) :
    (s.setSharedBuffer i sharedBuffer).dataBuffer i = s.dataBuffer i := by
  rw [dataBuffer, sharedBuffers_setSharedBuffer, hbuf]
  rfl

theorem duplicateDataBufferIfNecessary_eq (hone : s.hasOneRef i = true) :
    s.duplicateDataBufferIfNecessary fastMallocGoodSize i = s := by
  unfold duplicateDataBufferIfNecessary
  rw [hone]
  rfl

theorem appendToDataBuffer_eq (hone : s.hasOneRef i = true) (data : List Cell) :
    s.appendToDataBuffer fastMallocGoodSize i data =
      s.setDataBuffer i ((s.dataBuffer i).append fastMallocGoodSize data) := by
  unfold appendToDataBuffer
  rw [duplicateDataBufferIfNecessary_eq hone]

variable {segments : List (List Cell)} {content : List Cell}

theorem holds_appendSegments
    (data : List Cell) (h : Holds segmentSize segments content) (hfull : segmentSize ∣ content.length) :
    Holds segmentSize (segments ++ appendSegments data) (content ++ data) := by
  induction hn : data.length using Nat.strong_induction_on generalizing data segments content with
  | _ n ih =>
    rw [appendSegments]
    split
    · rename_i hnil
      rw [hnil, append_nil, append_nil]
      exact h
    · rename_i hne
      have hpos := length_pos_iff.mpr hne
      have hsize := segmentSize_pos
      dsimp only
      have htake : (data.take (min data.length segmentSize)).length = min data.length segmentSize := by
        rw [length_take]
        omega
      have hblock : (overwrite allocateSegment 0
          (data.take (min data.length segmentSize))).length = segmentSize := by
        rw [length_overwrite, length_allocateSegment]
        rw [htake, length_allocateSegment]
        omega
      have hfirst := h.append_block hfull (data.take (min data.length segmentSize)) hblock
        (by rw [overwrite_zero]; exact prefix_append _ _)
        (by rw [← length_pos_iff, htake]; omega)
      rcases lt_or_ge segmentSize data.length with hlt | hge
      · -- the segment is full, and so are those before it
        have hrest := ih (data.drop (min data.length segmentSize)).length
          (by rw [length_drop]; omega) _ hfirst
          (by
            rw [length_append, htake, min_eq_right (le_of_lt hlt)]
            exact Nat.dvd_add hfull (Nat.dvd_refl _))
          rfl
        rw [append_assoc, singleton_append, append_assoc, take_append_drop]
          at hrest
        exact hrest
      · rw [min_eq_left hge] at hfirst ⊢
        rw [take_length] at hfirst ⊢
        rw [drop_length, appendSegments, if_pos rfl]
        exact hfirst

variable (fastMallocGoodSize) in
/-- The small size is recorded, and the memory of an empty vector is reserved. -/
theorem reserve_small (s : SharedBuffers) (i size length : ℕ) :
    ∃ u : SharedBuffers, s.OnlyChanges u i ∧ u.sharedBuffers i = { s.sharedBuffers i with size } ∧
      (u.dataBuffer i).data = (s.dataBuffer i).data ∧
      (let s := s.setSharedBuffer i { s.sharedBuffers i with size }
      if (s.dataBuffer i).data = [] then
        s.setDataBuffer i ((s.dataBuffer i).reserveInitialCapacity fastMallocGoodSize length)
      else s) = u := by
  have hset : s.OnlyChanges (s.setSharedBuffer i { s.sharedBuffers i with size }) i :=
    .setSharedBuffer _ rfl
  have hdata : (s.setSharedBuffer i { s.sharedBuffers i with size }).dataBuffer i =
      s.dataBuffer i := dataBuffer_setSharedBuffer rfl
  dsimp only
  split
  · refine ⟨_, hset.trans (.setDataBuffer _), sharedBuffers_setSharedBuffer _, ?_, rfl⟩
    rw [dataBuffer_setDataBuffer, data_reserveInitialCapacity, hdata]
  · refine ⟨_, hset, sharedBuffers_setSharedBuffer _, ?_, rfl⟩
    rw [hdata]

theorem Represents.append_vector (h : s.Represents i l) (hone : s.hasOneRef i = true)
    (hsmall : (l ++ data).length ≤ segmentSize) (hu : s.OnlyChanges u i)
    (hbuf : u.sharedBuffers i = { s.sharedBuffers i with size := (l ++ data).length })
    (hdata : (u.dataBuffer i).data = (s.dataBuffer i).data) :
    s.OnlyChanges (u.appendToDataBuffer fastMallocGoodSize i (data.map some)) i ∧
      (u.appendToDataBuffer fastMallocGoodSize i (data.map some)).Represents i (l ++ data) ∧
      (s.dataBuffer i).data.length ≤
        ((u.appendToDataBuffer fastMallocGoodSize i (data.map some)).dataBuffer i).data.length := by
  obtain ⟨content, hcont, hholds⟩ := h.contents
  have hlens : (l ++ data).length = l.length + data.length := length_append
  have hsegs : (s.sharedBuffers i).segments = [] := by
    by_contra hsegs
    have hlarge := h.segmented hsegs
    omega
  have hnil : content = [] := Holds.content_eq_nil (hsegs ▸ hholds)
  rw [hnil, append_nil] at hcont
  rw [appendToDataBuffer_eq (hu.hasOneRef_eq i ▸ hone)]
  have hfinal : ((u.setDataBuffer i ((u.dataBuffer i).append fastMallocGoodSize
      (data.map some))).dataBuffer i).data = (l ++ data).map some := by
    rw [dataBuffer_setDataBuffer, data_append, hdata, hcont, map_append]
  refine ⟨hu.trans (.setDataBuffer _), ⟨?_, ?_, ⟨[], ?_, ?_⟩, ?_, ?_⟩, ?_⟩
  · rw [sharedBuffers_setDataBuffer, hbuf]
  · exact lt_of_le_of_lt hsmall (by unfold segmentSize; omega)
  · rw [append_nil, hfinal]
  · rw [sharedBuffers_setDataBuffer, hbuf, hsegs]
    exact .nil segmentSize_pos
  · rw [sharedBuffers_setDataBuffer, hbuf, hsegs]
    exact fun hne => absurd rfl hne
  · rw [hfinal, length_map]
    exact Nat.le_add_right _ _
  · rw [hfinal, length_map, hcont, length_map, hlens]
    exact Nat.le_add_right _ _

theorem Represents.setSegments (h : s.Represents i l) (hlarge : segmentSize < (l ++ data).length)
    (hlt : (l ++ data).length < 2 ^ 32)
    (hbounded : (l ++ data).length ≤ (s.dataBuffer i).data.length + (2 ^ 32 - segmentSize))
    (hholds : ∀ content, (s.dataBuffer i).data ++ content = l.map some →
      Holds segmentSize (s.sharedBuffers i).segments content →
      Holds segmentSize segments (content ++ data.map some)) :
    (s.setSharedBuffer i { s.sharedBuffers i with size := (l ++ data).length, segments }).Represents
        i (l ++ data) ∧
      (s.dataBuffer i).data.length ≤ ((s.setSharedBuffer i { s.sharedBuffers i with
        size := (l ++ data).length, segments }).dataBuffer i).data.length := by
  obtain ⟨content, hcont, hold⟩ := h.contents
  have hdata : (s.setSharedBuffer i { s.sharedBuffers i with
      size := (l ++ data).length, segments }).dataBuffer i = s.dataBuffer i :=
    dataBuffer_setSharedBuffer rfl
  refine ⟨⟨?_, hlt, ⟨content ++ data.map some, ?_, ?_⟩, ?_, ?_⟩, ?_⟩
  · rw [sharedBuffers_setSharedBuffer]
  · rw [hdata, ← append_assoc, hcont, map_append]
  · rw [sharedBuffers_setSharedBuffer]
    exact hholds content hcont hold
  · intro _
    exact hlarge
  · rw [hdata]
    exact hbounded
  · rw [hdata]

/-- The last segment is filled up, and other segments follow. -/
theorem holds_fill_last {segment content data : List Cell}
    (h : Holds segmentSize (segments ++ [segment]) content)
    (hpart : ¬ content.length % segmentSize = 0) :
    Holds segmentSize (segments ++ [overwrite segment (content.length % segmentSize)
        (data.take (min data.length (segmentSize - content.length % segmentSize)))] ++
      appendSegments (data.drop (min data.length (segmentSize - content.length % segmentSize))))
      (content ++ data) := by
  have hmod := Nat.mod_lt content.length segmentSize_pos
  have hfill := h.fill_last (fun hdvd => hpart (Nat.mod_eq_zero_of_dvd hdvd))
    (data.take (min data.length (segmentSize - content.length % segmentSize)))
    (by rw [length_take]; omega)
  rcases lt_or_ge (segmentSize - content.length % segmentSize) data.length with hmore | hfits
  · have hdvd : segmentSize ∣ (content ++ data.take (min data.length
        (segmentSize - content.length % segmentSize))).length := by
      rw [length_append, length_take, min_eq_right (le_of_lt hmore), min_eq_left (le_of_lt hmore)]
      have hdiv := Nat.div_add_mod content.length segmentSize
      exact ⟨content.length / segmentSize + 1, by rw [Nat.mul_succ]; omega⟩
    have hall := holds_appendSegments
      (data.drop (min data.length (segmentSize - content.length % segmentSize))) hfill hdvd
    rw [append_assoc content, take_append_drop] at hall
    exact hall
  · rw [min_eq_left hfits, take_length] at hfill ⊢
    rw [drop_length, appendSegments, if_pos rfl, append_nil]
    exact hfill

variable (fastMallocGoodSize) in
section

variable (h : s.Represents i l)
include h

theorem Represents.append (hone : s.hasOneRef i = true)
    (hlt : l.length + data.length < 2 ^ 32)
    (hbounded : l.length + data.length ≤ (s.dataBuffer i).data.length + (2 ^ 32 - segmentSize)) :
    ∃ t, s.append fastMallocGoodSize i (data.map some) = some t ∧ s.OnlyChanges t i ∧
      t.Represents i (l ++ data) ∧
      (s.dataBuffer i).data.length ≤ (t.dataBuffer i).data.length := by
  obtain ⟨content, hcont, hholds⟩ := h.contents
  have hlen := congrArg length hcont
  rw [length_append, length_map] at hlen
  unfold SharedBuffers.append
  split
  · rename_i hnil
    rw [map_eq_nil_iff] at hnil
    rw [hnil, append_nil]
    exact ⟨s, rfl, .refl s i, h, le_refl _⟩
  · rename_i hne
    rw [map_eq_nil_iff] at hne
    rw [← length_append] at hlt hbounded
    have hsize : toUnsigned (((s.sharedBuffers i).size : ℤ) + (data.map some).length) =
        (l ++ data).length := by
      rw [h.size_eq, length_map, ← Nat.cast_add, ← length_append]
      exact toUnsigned_natCast hlt
    have hpos : offsetInSegment (toUnsigned (((s.sharedBuffers i).size : ℤ) -
        (s.dataBuffer i).data.length)) = content.length % segmentSize := by
      have heq : (((s.sharedBuffers i).size : ℤ) - (s.dataBuffer i).data.length) =
          content.length := by
        rw [h.size_eq]
        omega
      have hle : l.length ≤ (l ++ data).length := by
        rw [length_append]
        exact Nat.le_add_right _ _
      rw [heq, toUnsigned_natCast (by omega), offsetInSegment_eq]
    dsimp only
    rw [hsize, hpos]
    split
    · rename_i hsmall
      obtain ⟨u, hu, hbuf, hdata, heq⟩ := reserve_small fastMallocGoodSize s i (l ++ data).length
          (data.map some).length
      dsimp only at heq
      rw [heq]
      exact ⟨_, rfl, h.append_vector hone hsmall hu hbuf hdata⟩
    · rename_i hlarge
      have hlarge' := Nat.not_le.mp hlarge
      split
      · rename_i hzero
        refine ⟨_, rfl, .setSharedBuffer _ rfl, h.setSegments hlarge' hlt hbounded ?_⟩
        intro content' hcont' _
        obtain rfl := append_cancel_left (hcont'.trans hcont.symm)
        have hsegs := holds_appendSegments (data.map some) hholds (Nat.dvd_of_mod_eq_zero hzero)
        rw [appendSegments, if_neg (by rwa [map_eq_nil_iff])] at hsegs
        rw [hzero, Nat.sub_zero, append_assoc, singleton_append]
        exact hsegs
      · rename_i hpart
        have hlast : ∃ segments segment, (s.sharedBuffers i).segments = segments ++ [segment] := by
          rcases eq_nil_or_concat' (s.sharedBuffers i).segments with hnil | hconcat
          · have hnone : content = [] := Holds.content_eq_nil (hnil ▸ hholds)
            rw [hnone] at hpart
            exact absurd rfl hpart
          · exact hconcat
        obtain ⟨segments, segment, hsegs⟩ := hlast
        rw [hsegs, getLast?_concat, Option.map_some, dropLast_concat]
        refine ⟨_, rfl, .setSharedBuffer _ rfl, h.setSegments hlarge' hlt hbounded ?_⟩
        intro content' hcont' _
        obtain rfl := append_cancel_left (hcont'.trans hcont.symm)
        rw [hsegs] at hholds
        exact holds_fill_last hholds hpart

/-- The number of segments does not overflow when it is multiplied by their size. -/
theorem Represents.segments_lt (hcont : (s.dataBuffer i).data ++ content = l.map some)
    (hholds : Holds segmentSize (s.sharedBuffers i).segments content) :
    (s.sharedBuffers i).segments.length * segmentSize < 2 ^ 32 := by
  have hlen := congrArg length hcont
  rw [length_append, length_map] at hlen
  have hbounded := h.bounded
  have hlt := hholds.no_empty
  unfold segmentSize at *
  omega

/-- `getSomeData` gives a run of bytes of the string, until its end. -/
theorem Represents.getSomeData {position : ℕ} (hlt : position < l.length) :
    ∃ pointer length, s.getSomeData i position = (pointer, length) ∧ 0 < length ∧
      position + length ≤ l.length ∧
      s.read i pointer length = some (((l.drop position).take length).map some) := by
  obtain ⟨content, hcont, hholds⟩ := h.contents
  have hlength := congrArg length hcont
  rw [length_append, length_map] at hlength
  have hl := h.length_lt
  have hconsecutive : toUnsigned ((s.dataBuffer i).data.length : ℤ) =
      (s.dataBuffer i).data.length := toUnsigned_natCast (by omega)
  unfold SharedBuffers.getSomeData
  dsimp only
  rw [hconsecutive, h.size_eq, if_neg (Nat.not_le.mpr hlt)]
  split
  · refine ⟨_, _, rfl, by omega, by omega, ?_⟩
    rw [read, if_pos (by omega), map_take, map_drop, ← hcont,
      drop_append_of_le_length (by omega), take_append_of_le_length]
    rw [length_drop]
  · have hsize := segmentSize_pos
    have hoffset : position - (s.dataBuffer i).data.length < content.length := by omega
    have hmul := h.segments_lt hcont hholds
    have hcount : (s.sharedBuffers i).segments.length < 2 ^ 32 :=
      lt_of_le_of_lt (Nat.le_mul_of_pos_right _ hsize) hmul
    have hle := hholds.length_le
    have hno := hholds.no_empty
    rw [mul_comm] at hle hno
    rw [toUnsigned_natCast hcount, ← Nat.cast_mul, toUnsigned_natCast hmul, segmentIndex,
      offsetInSegment_eq]
    have hindex : (position - (s.dataBuffer i).data.length) / segmentSize <
        (s.sharedBuffers i).segments.length :=
      Nat.div_lt_of_lt_mul (by rw [mul_comm]; omega)
    have hleft : toUnsigned ((l.length : ℤ) - (s.dataBuffer i).data.length) = content.length := by
      have heq : (l.length : ℤ) - (s.dataBuffer i).data.length = content.length := by omega
      rw [heq, toUnsigned_natCast (by omega)]
    have hdivmod := Nat.div_add_mod (position - (s.dataBuffer i).data.length) segmentSize
    have hmod := Nat.mod_lt (position - (s.dataBuffer i).data.length) hsize
    rw [if_pos hindex, hleft, min_eq_right hle]
    generalize hP : position - (s.dataBuffer i).data.length = offset at *
    have hrun : ∃ m, (if offset / segmentSize = (s.sharedBuffers i).segments.length - 1 then
        toUnsigned ((content.length : ℤ) - offset) else segmentSize - offset % segmentSize) = m ∧
        0 < m ∧ offset % segmentSize + m ≤ segmentSize ∧ offset + m ≤ content.length := by
      refine ⟨_, rfl, ?_⟩
      split
      · -- the last segment ends with the string
        have hcountEq : (s.sharedBuffers i).segments.length = offset / segmentSize + 1 := by omega
        rw [hcountEq, mul_comm, Nat.mul_succ] at hle
        have heq : (content.length : ℤ) - offset = (content.length - offset : ℕ) := by omega
        rw [heq, toUnsigned_natCast (by omega)]
        omega
      · have htwo : offset / segmentSize + 2 ≤ (s.sharedBuffers i).segments.length := by
          generalize offset / segmentSize = index at *
          omega
        have hmore := Nat.mul_le_mul_left segmentSize htwo
        rw [mul_add, mul_comm segmentSize (s.sharedBuffers i).segments.length] at hmore
        omega
    obtain ⟨m, hm, hpos, hfits, hend⟩ := hrun
    obtain ⟨block, hblock, hlen, hread⟩ := hholds.read hoffset hfits hend
    have hnil : (s.dataBuffer i).data.drop position = [] := drop_eq_nil_of_le (by omega)
    refine ⟨_, m, by rw [hm], hpos, by omega, ?_⟩
    rw [read, hblock]
    dsimp only
    rw [if_pos (hlen ▸ hfits), hread, map_take, map_drop, ← hcont, drop_append,
      hnil, nil_append, hP]

theorem Represents.getSomeData_end :
    s.getSomeData i l.length = (.null, 0) := by
  unfold SharedBuffers.getSomeData
  rw [h.size_eq, if_pos le_rfl]

/-- The loop over `getSomeData` comes to every byte from a position on, and ends. -/
theorem Represents.someData {position fuel : ℕ} (hle : position ≤ l.length)
    (hfuel : l.length - position < fuel) :
    ∃ runs, s.someData i position fuel = some runs ∧ runs.flatten = (l.drop position).map some := by
  induction fuel generalizing position with
  | zero => cases hfuel
  | succ fuel ih =>
    rcases lt_or_eq_of_le hle with hlt | heq
    · obtain ⟨pointer, length, hsome, hpos, hend, hread⟩ := h.getSomeData hlt
      have hposition : toUnsigned ((position : ℤ) + length) = position + length := by
        have hl := h.length_lt
        exact toUnsigned_natCast (n := position + length) (by omega)
      obtain ⟨runs, hruns, hflatten⟩ := ih hend (by omega)
      refine ⟨((l.drop position).take length).map some :: runs, ?_, ?_⟩
      · rw [SharedBuffers.someData, hsome]
        dsimp only
        rw [if_neg (Nat.pos_iff_ne_zero.mp hpos), hread, hposition, hruns]
      · rw [flatten_cons, hflatten, ← map_append, ← drop_drop, take_append_drop]
    · refine ⟨[], ?_, ?_⟩
      · rw [SharedBuffers.someData, heq, h.getSomeData_end]
        rfl
      · rw [heq, drop_length]
        rfl

end

theorem Represents.clear (hone : s.hasOneRef i = true) :
    s.OnlyChanges (s.clear i) i ∧ (s.clear i).Represents i [] := by
  have hset : s.OnlyChanges (s.setSharedBuffer i
      { s.sharedBuffers i with size := 0, segments := [] }) i := .setSharedBuffer _ rfl
  unfold SharedBuffers.clear clearDataBuffer
  rw [hset.hasOneRef_eq, hone]
  refine ⟨hset.trans (.setDataBuffer _), ⟨?_, Nat.two_pow_pos 32, ⟨[], ?_, ?_⟩, ?_, ?_⟩⟩
  · exact congrArg SharedBuffer.size (sharedBuffers_setSharedBuffer _)
  · exact congrArg (fun b : DataBuffer => b.data ++ []) (dataBuffer_setDataBuffer _)
  · rw [Bool.not_true, if_neg Bool.false_ne_true, sharedBuffers_setDataBuffer,
      sharedBuffers_setSharedBuffer]
    exact .nil segmentSize_pos
  · rw [Bool.not_true, if_neg Bool.false_ne_true, sharedBuffers_setDataBuffer,
      sharedBuffers_setSharedBuffer]
    exact fun hne => absurd rfl hne
  · exact Nat.zero_le _

/-- Segments that are full are appended to the vector of the clone. -/
theorem data_foldl_append (segments : List (List Cell)) (buffer : DataBuffer)
    (h : ∀ segment ∈ segments, segment.length = segmentSize) :
    (segments.foldl (fun buffer segment =>
      buffer.append fastMallocGoodSize (segment.take segmentSize)) buffer).data =
      buffer.data ++ segments.flatten := by
  induction segments generalizing buffer with
  | nil => exact (append_nil _).symm
  | cons segment segments ih =>
    rw [foldl_cons, ih _ fun segment hmem => h segment (mem_cons_of_mem _ hmem),
      data_append, ← h segment mem_cons_self, take_length,
      flatten_cons, append_assoc]

theorem copyBufferAndClear_eq (h : Holds segmentSize segments content) (before rest : List Cell)
    (hrest : rest.length = content.length) :
    copyBufferAndClear (before ++ rest) before.length content.length segments =
      before ++ content := by
  induction segments generalizing before content rest with
  | nil =>
    have hnil : content = [] := h.content_eq_nil
    subst hnil
    rw [eq_nil_of_length_eq_zero hrest]
    rfl
  | cons segment segments ih =>
    have hhead := h.head
    have hlen : (content.take segmentSize).length = min content.length segmentSize := by
      rw [length_take]
      omega
    have hwrite : overwrite (before ++ rest) before.length (content.take segmentSize) =
        before ++ content.take segmentSize ++ rest.drop (min content.length segmentSize) := by
      rw [overwrite, take_left, hlen, drop_append, drop_eq_nil_of_le (by omega),
        nil_append, Nat.add_sub_cancel_left]
    rw [copyBufferAndClear, hhead, hwrite]
    rcases Nat.le_or_ge content.length segmentSize with hle | hge
    · have hnil := h.eq_nil_of_length_le hle
      rw [hnil, copyBufferAndClear, take_of_length_le hle, min_eq_left hle, ← hrest,
        drop_length, append_nil]
    · have htail := ih (h.tail hge) (before ++ content.take segmentSize)
        (rest.drop (min content.length segmentSize)) (by
          rw [length_drop, length_drop]
          omega)
      rw [length_append, hlen, length_drop, append_assoc before _
        (content.drop segmentSize), take_append_drop, min_eq_right hge] at htail
      rw [min_eq_right hge]
      exact htail

variable (fastMallocGoodSize) in
theorem Represents.buffer (h : s.Represents i l) (hone : s.hasOneRef i = true) :
    s.OnlyChanges (s.buffer fastMallocGoodSize i) i ∧
      (s.buffer fastMallocGoodSize i).Represents i l ∧
      ((s.buffer fastMallocGoodSize i).dataBuffer i).data = l.map some := by
  obtain ⟨content, hcont, hholds⟩ := h.contents
  have hlen := congrArg length hcont
  rw [length_append, length_map] at hlen
  have hl := h.length_lt
  have hsize : toUnsigned ((s.dataBuffer i).data.length : ℤ) = (s.dataBuffer i).data.length :=
    toUnsigned_natCast (by omega)
  unfold SharedBuffers.buffer
  dsimp only
  rw [hsize, h.size_eq]
  split
  · rename_i hlt
    rw [duplicateDataBufferIfNecessary_eq hone, data_resize _ _ hlt]
    have heq : l.length - (s.dataBuffer i).data.length = content.length := by omega
    rw [heq, copyBufferAndClear_eq hholds _ _ length_replicate, hcont]
    generalize (s.dataBuffer i).resize fastMallocGoodSize l.length = resized
    have hdata : (((s.setDataBuffer i { resized with data := l.map some }).setSharedBuffer i
        { s.sharedBuffers i with segments := [] }).dataBuffer i).data = l.map some := by
      rw [dataBuffer_setSharedBuffer, dataBuffer_setDataBuffer]
      rw [sharedBuffers_setDataBuffer]
    refine ⟨OnlyChanges.trans (.setDataBuffer _) (.setSharedBuffer _ rfl),
      ⟨?_, hl, ⟨[], ?_, ?_⟩, ?_, ?_⟩, hdata⟩
    · rw [sharedBuffers_setSharedBuffer]
      exact h.size_eq
    · rw [append_nil, hdata]
    · rw [sharedBuffers_setSharedBuffer]
      exact .nil segmentSize_pos
    · rw [sharedBuffers_setSharedBuffer]
      exact fun hne => absurd rfl hne
    · rw [hdata, length_map]
      exact Nat.le_add_right _ _
  · rename_i hge
    have hnil : content = [] := eq_nil_of_length_eq_zero (by omega)
    rw [hnil, append_nil] at hcont
    exact ⟨.refl s i, h, hcont⟩

end SharedBuffers

end WebKit.Platform
