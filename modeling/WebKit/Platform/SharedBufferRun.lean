import WebKit.Platform.SharedBufferSpec
import WebKit.Transition.Run
import Mathlib.Data.List.Nodup

/-!
# Programs with shared buffers

Every operation does to the strings what it says, as long as `copy` finds the last segment full
and no buffer gets 2^20 segments (`Safe`). In other words the vector of a clone is longer than the
string (`data_copy`), and the number of bytes in the segments overflows.
-/

open List Function

namespace WebKit.Platform

open Blocks Transition SharedBuffers

/-- What the buffers of a program should hold. -/
structure ByteStrings where
  strings : ℕ → List UInt8
  count : ℕ

namespace SharedBufferOperation

/-- Other buffers than itself are appended to a buffer, and the strings stay short enough for
their size. -/
def Legal (b : ByteStrings) : SharedBufferOperation → Prop
  | .create => True
  | .adoptVector vector _ => vector.length < 2 ^ 32
  | .append i bytes => i < b.count ∧ (b.strings i).length + bytes.length < 2 ^ 32
  | .appendSharedBuffer i j => i < b.count ∧ j < b.count ∧ i ≠ j ∧
    (b.strings i).length + (b.strings j).length < 2 ^ 32
  | .copy i => i < b.count
  | .clear i => i < b.count
  | .data i => i < b.count

def apply (b : ByteStrings) : SharedBufferOperation → ByteStrings
  | .create => ⟨update b.strings b.count [], b.count + 1⟩
  | .adoptVector vector _ => ⟨update b.strings b.count vector, b.count + 1⟩
  | .append i bytes => { b with strings := update b.strings i (b.strings i ++ bytes) }
  | .appendSharedBuffer i j =>
    { b with strings := update b.strings i (b.strings i ++ b.strings j) }
  | .copy i => ⟨update b.strings b.count (b.strings i), b.count + 1⟩
  | .clear i => { b with strings := update b.strings i [] }
  | .data _ => b

/-- The segments of a buffer that is copied are full, and an `append` leaves fewer than 2^20
segments. -/
def Safe (s : SharedBuffers) : SharedBufferOperation → Prop
  | .append i bytes => (s.sharedBuffers i).size + bytes.length ≤
    (s.dataBuffer i).data.length + (2 ^ 32 - segmentSize)
  | .appendSharedBuffer i j => (s.sharedBuffers i).size + (s.sharedBuffers j).size ≤
    (s.dataBuffer i).data.length + (2 ^ 32 - segmentSize)
  | .copy i => segmentSize ∣ (s.sharedBuffers i).size - (s.dataBuffer i).data.length
  | _ => True

end SharedBufferOperation

namespace SharedBuffers

variable {fastMallocGoodSize : ℕ → ℕ} {s t : SharedBuffers} {b : ByteStrings} {i j : ℕ}
  {l : List UInt8}

/-- The buffers hold the strings, and do not share memory. -/
structure Represent (s : SharedBuffers) (b : ByteStrings) : Prop where
  count_eq : s.sharedBufferCount = b.count
  represents : ∀ i < b.count, s.Represents i (b.strings i)
  buffer_inj : ∀ i < b.count, ∀ j < b.count,
    (s.sharedBuffers i).buffer = (s.sharedBuffers j).buffer → i = j
  buffer_lt : ∀ i < b.count, (s.sharedBuffers i).buffer < s.dataBufferCount

theorem represent_initial : initial.Represent ⟨fun _ => [], 0⟩ where
  count_eq := rfl
  represents i hi := absurd hi (Nat.not_lt_zero i)
  buffer_inj i hi := absurd hi (Nat.not_lt_zero i)
  buffer_lt i hi := absurd hi (Nat.not_lt_zero i)

namespace Represent

theorem hasOneRef (h : s.Represent b) (hi : i < b.count) : s.hasOneRef i = true := by
  have heq : (range s.sharedBufferCount).countP
      (fun k => (s.sharedBuffers k).buffer = (s.sharedBuffers i).buffer) =
      (range s.sharedBufferCount).count i := by
    apply countP_congr
    intro k hk
    rw [mem_range, h.count_eq] at hk
    rw [decide_eq_true_eq, beq_iff_eq]
    exact ⟨h.buffer_inj k hk i hi, fun heq => by rw [heq]⟩
  unfold SharedBuffers.hasOneRef
  rw [heq, count_eq_one_of_mem nodup_range (mem_range.mpr (h.count_eq ▸ hi))]
  rfl

theorem represents_of_ne (h : s.Represent b) (hc : s.OnlyChanges t i) (hi : i < b.count)
    (hj : j < b.count) (hne : j ≠ i) : t.Represents j (b.strings j) := by
  have hbuf : (s.sharedBuffers j).buffer ≠ (s.sharedBuffers i).buffer :=
    fun heq => hne (h.buffer_inj j hj i hi heq)
  have hdata : t.dataBuffer j = s.dataBuffer j := by
    rw [dataBuffer, hc.buffer_eq, hc.dataBuffers_eq _ hbuf]
    rfl
  have hold := h.represents j hj
  exact {
    size_eq := by rw [hc.sharedBuffers_eq j hne, hold.size_eq]
    length_lt := hold.length_lt
    contents := by
      rw [hdata, hc.sharedBuffers_eq j hne]
      exact hold.contents
    segmented := by
      rw [hc.sharedBuffers_eq j hne]
      exact hold.segmented
    bounded := by
      rw [hdata]
      exact hold.bounded }

theorem update (h : s.Represent b) (hi : i < b.count) (hc : s.OnlyChanges t i)
    (ht : t.Represents i l) :
    t.Represent { b with strings := update b.strings i l } where
  count_eq := hc.sharedBufferCount_eq.trans h.count_eq
  represents := by
    intro j hj
    by_cases hne : j = i
    · subst hne
      dsimp only
      rw [update_self]
      exact ht
    · dsimp only
      rw [update_of_ne hne]
      exact h.represents_of_ne hc hi hj hne
  buffer_inj j hj k hk := by
    rw [hc.buffer_eq, hc.buffer_eq]
    exact h.buffer_inj j hj k hk
  buffer_lt j hj := by
    rw [hc.buffer_eq, hc.dataBufferCount_eq]
    exact h.buffer_lt j hj

theorem adopt (h : s.Represent b) (hl : l.length < 2 ^ 32) {buffer : DataBuffer}
    (hbuf : buffer.data = l.map some) :
    (s.adopt l.length buffer).Represent ⟨Function.update b.strings b.count l, b.count + 1⟩ := by
  have hold : ∀ k < b.count, (s.adopt l.length buffer).sharedBuffers k = s.sharedBuffers k := by
    intro k hk
    exact update_of_ne (ne_of_lt (h.count_eq ▸ hk)) _ _
  have hnew : (s.adopt l.length buffer).sharedBuffers b.count =
      ⟨l.length, s.dataBufferCount, []⟩ := by
    rw [← h.count_eq]
    exact update_self _ _ _
  have hdata : ∀ k < b.count, (s.adopt l.length buffer).dataBuffer k = s.dataBuffer k := by
    intro k hk
    rw [dataBuffer, hold k hk]
    exact update_of_ne (ne_of_lt (h.buffer_lt k hk)) _ _
  have hdata' : ((s.adopt l.length buffer).dataBuffer b.count).data = l.map some := by
    rw [dataBuffer, hnew, ← hbuf]
    exact congrArg DataBuffer.data (update_self _ _ _)
  constructor
  · exact congrArg (· + 1) h.count_eq
  · intro k hk
    rcases Nat.lt_succ_iff_lt_or_eq.mp hk with hlt | rfl
    · dsimp only
      rw [update_of_ne (ne_of_lt hlt)]
      have hk := h.represents k hlt
      exact {
        size_eq := by rw [hold k hlt, hk.size_eq]
        length_lt := hk.length_lt
        contents := by
          rw [hdata k hlt, hold k hlt]
          exact hk.contents
        segmented := by
          rw [hold k hlt]
          exact hk.segmented
        bounded := by
          rw [hdata k hlt]
          exact hk.bounded }
    · dsimp only
      rw [update_self]
      refine ⟨by rw [hnew], hl, ⟨[], ?_, ?_⟩, ?_, ?_⟩
      · rw [append_nil, hdata']
      · rw [hnew]
        exact .nil segmentSize_pos
      · rw [hnew]
        exact fun hne => absurd rfl hne
      · rw [hdata', length_map]
        exact Nat.le_add_right _ _
  · intro k hk m hm
    rcases Nat.lt_succ_iff_lt_or_eq.mp hk with hk | rfl <;>
      rcases Nat.lt_succ_iff_lt_or_eq.mp hm with hm | rfl
    · rw [hold k hk, hold m hm]
      exact h.buffer_inj k hk m hm
    · rw [hold k hk, hnew]
      exact fun heq => absurd heq (ne_of_lt (h.buffer_lt k hk))
    · rw [hold m hm, hnew]
      exact fun heq => absurd heq.symm (ne_of_lt (h.buffer_lt m hm))
    · exact fun _ => rfl
  · intro k hk
    rcases Nat.lt_succ_iff_lt_or_eq.mp hk with hk | rfl
    · rw [hold k hk]
      exact Nat.lt_succ_of_lt (h.buffer_lt k hk)
    · rw [hnew]
      exact Nat.lt_succ_self _

variable (fastMallocGoodSize) in
theorem append (h : s.Represent b) (hi : i < b.count) (data : List UInt8)
    (hlt : (b.strings i).length + data.length < 2 ^ 32)
    (hbounded : (b.strings i).length + data.length ≤
      (s.dataBuffer i).data.length + (2 ^ 32 - segmentSize)) :
    ∃ t, s.append fastMallocGoodSize i (data.map some) = some t ∧
      t.Represent { b with strings := Function.update b.strings i (b.strings i ++ data) } ∧
      (s.dataBuffer i).data.length ≤ (t.dataBuffer i).data.length := by
  obtain ⟨t, heq, hc, ht, hle⟩ := (h.represents i hi).append
    fastMallocGoodSize (h.hasOneRef hi) hlt hbounded
  exact ⟨t, heq, h.update hi hc ht, hle⟩

theorem appendFrom (h : s.Represent b) (hi : i < b.count) (hj : j < b.count) (hne : i ≠ j)
    {position fuel : ℕ} (hle : position ≤ (b.strings j).length)
    (hfuel : (b.strings j).length - position < fuel)
    (hlt : (b.strings i).length + ((b.strings j).length - position) < 2 ^ 32)
    (hbounded : (b.strings i).length + ((b.strings j).length - position) ≤
      (s.dataBuffer i).data.length + (2 ^ 32 - segmentSize)) :
    ∃ t, appendFrom fastMallocGoodSize i j position fuel s = some t ∧
      t.Represent { b with
        strings := Function.update b.strings i (b.strings i ++ (b.strings j).drop position) } := by
  induction fuel generalizing position s b with
  | zero => cases hfuel
  | succ fuel ih =>
    have hother := h.represents j hj
    rcases lt_or_eq_of_le hle with hlt' | heq
    · obtain ⟨pointer, length, hsome, hpos, hend, hread⟩ := hother.getSomeData hlt'
      have htake : (((b.strings j).drop position).take length).length = length := by
        rw [length_take, length_drop]
        omega
      have hposition : toUnsigned ((position : ℤ) + length) = position + length := by
        have hl := hother.length_lt
        exact toUnsigned_natCast (n := position + length) (by omega)
      obtain ⟨t, happ, ht, hmore⟩ := h.append fastMallocGoodSize hi
        (((b.strings j).drop position).take length)
        (by rw [htake]; omega) (by rw [htake]; omega)
      have hend' : position + length ≤ (Function.update b.strings i (b.strings i ++
          ((b.strings j).drop position).take length) j).length := by
        rw [Function.update_of_ne hne.symm]
        exact hend
      obtain ⟨u, hu, hrepresent⟩ := ih ht hi hj hend'
        (by dsimp only; rw [Function.update_of_ne hne.symm]; omega)
        (by
          dsimp only
          rw [Function.update_self, Function.update_of_ne hne.symm, length_append, htake]
          omega)
        (by
          dsimp only
          rw [Function.update_self, Function.update_of_ne hne.symm, length_append, htake]
          omega)
      refine ⟨u, ?_, ?_⟩
      · rw [appendFrom, hsome]
        dsimp only
        rw [if_neg (Nat.pos_iff_ne_zero.mp hpos), hread]
        dsimp only
        rw [happ]
        dsimp only
        rw [hposition, hu]
      · dsimp only at hrepresent
        rw [Function.update_idem, Function.update_self, Function.update_of_ne hne.symm,
          append_assoc, ← drop_drop, take_append_drop] at hrepresent
        exact hrepresent
    · refine ⟨s, ?_, ?_⟩
      · rw [appendFrom, heq, hother.getSomeData_end]
        rfl
      · rw [heq, drop_length, append_nil, Function.update_eq_self]
        exact h

theorem appendSharedBuffer (h : s.Represent b) (hi : i < b.count) (hj : j < b.count) (hne : i ≠ j)
    (hlt : (b.strings i).length + (b.strings j).length < 2 ^ 32)
    (hbounded : (b.strings i).length + (b.strings j).length ≤
      (s.dataBuffer i).data.length + (2 ^ 32 - segmentSize)) :
    ∃ t, s.appendSharedBuffer fastMallocGoodSize i j = some t ∧
      t.Represent { b with
        strings := Function.update b.strings i (b.strings i ++ b.strings j) } := by
  unfold SharedBuffers.appendSharedBuffer
  rw [(h.represents j hj).size_eq]
  exact h.appendFrom hi hj hne (Nat.zero_le _) (Nat.lt_succ_self _) hlt hbounded

end Represent

variable (fastMallocGoodSize) in
theorem Represents.data_copy (h : s.Represents i l) :
    ((s.copy fastMallocGoodSize i).dataBuffer s.sharedBufferCount).data =
      (s.dataBuffer i).data ++ (s.sharedBuffers i).segments.flatten := by
  obtain ⟨content, -, hholds⟩ := h.contents
  rw [dataBuffer, copy]
  dsimp only [adopt]
  rw [update_self]
  dsimp only
  rw [update_self, data_foldl_append _ _ hholds.length_eq, DataBuffer.data_append,
    DataBuffer.data_reserveCapacity]
  rfl

variable (fastMallocGoodSize) in
theorem Represents.data_copy_eq_iff (h : s.Represents i l) :
    ((s.copy fastMallocGoodSize i).dataBuffer s.sharedBufferCount).data = l.map some ↔
      segmentSize ∣ (s.sharedBuffers i).size - (s.dataBuffer i).data.length := by
  obtain ⟨content, hcont, hholds⟩ := h.contents
  have hlen := congrArg length hcont
  rw [length_append, length_map] at hlen
  have heq : (s.sharedBuffers i).size - (s.dataBuffer i).data.length = content.length := by
    rw [h.size_eq]
    omega
  rw [h.data_copy fastMallocGoodSize, ← hcont, append_cancel_left_eq, heq]
  constructor
  · intro hflatten
    rw [← hflatten, length_flatten hholds.length_eq]
    exact Nat.dvd_mul_right _ _
  · intro hdvd
    exact (hholds.eq_flatten hdvd).symm

namespace Represent

theorem copy (h : s.Represent b) (hi : i < b.count)
    (hfull : segmentSize ∣ (s.sharedBuffers i).size - (s.dataBuffer i).data.length) :
    (s.copy fastMallocGoodSize i).Represent
      ⟨Function.update b.strings b.count (b.strings i), b.count + 1⟩ := by
  have hrep := h.represents i hi
  have hdata := (hrep.data_copy_eq_iff fastMallocGoodSize).mpr hfull
  rw [dataBuffer, SharedBuffers.copy] at hdata
  dsimp only [SharedBuffers.adopt] at hdata
  rw [update_self] at hdata
  rw [update_self] at hdata
  rw [SharedBuffers.copy, hrep.size_eq]
  rw [hrep.size_eq] at hdata
  exact h.adopt hrep.length_lt hdata

variable (fastMallocGoodSize) in
theorem execute (h : s.Represent b) {operation : SharedBufferOperation} (hlegal : operation.Legal b)
    (hsafe : operation.Safe s) :
    ∃ t, s.execute fastMallocGoodSize operation = some t ∧ t.Represent (operation.apply b) := by
  cases operation with
  | create => exact ⟨_, rfl, h.adopt (l := []) (Nat.two_pow_pos 32) rfl⟩
  | adoptVector vector capacity =>
    refine ⟨_, rfl, ?_⟩
    have hsize : toUnsigned ((vector.map some).length : ℤ) = vector.length := by
      rw [length_map]
      exact toUnsigned_natCast hlegal
    rw [adoptVector, hsize]
    exact h.adopt hlegal rfl
  | append i data =>
    obtain ⟨hi, hlt⟩ := hlegal
    rw [SharedBufferOperation.Safe, (h.represents i hi).size_eq] at hsafe
    obtain ⟨t, heq, ht, -⟩ := h.append fastMallocGoodSize hi _ hlt hsafe
    exact ⟨t, heq, ht⟩
  | appendSharedBuffer i j =>
    obtain ⟨hi, hj, hne, hlt⟩ := hlegal
    rw [SharedBufferOperation.Safe, (h.represents i hi).size_eq, (h.represents j hj).size_eq]
      at hsafe
    exact h.appendSharedBuffer hi hj hne hlt hsafe
  | copy i => exact ⟨_, rfl, h.copy hlegal hsafe⟩
  | clear i =>
    obtain ⟨hc, ht⟩ := Represents.clear (h.hasOneRef hlegal)
    exact ⟨_, rfl, h.update hlegal hc ht⟩
  | data i =>
    obtain ⟨hc, ht, -⟩ := (h.represents i hlegal).buffer fastMallocGoodSize (h.hasOneRef hlegal)
    have hupd := h.update hlegal hc ht
    rw [update_eq_self] at hupd
    exact ⟨_, rfl, hupd⟩

end Represent

/-! ## Runs -/

/-- The buffer is the string, as far as its users can see. -/
structure Agrees (fastMallocGoodSize : ℕ → ℕ) (s : SharedBuffers) (i : ℕ) (l : List UInt8) :
    Prop where
  size_eq : (s.sharedBuffers i).size = l.length
  buffer_eq : ((s.buffer fastMallocGoodSize i).dataBuffer i).data = l.map some
  someData_eq : ∃ runs, s.someData i 0 ((s.sharedBuffers i).size + 1) = some runs ∧
    runs.flatten = l.map some

theorem Represent.agrees (h : s.Represent b) (hi : i < b.count) :
    s.Agrees fastMallocGoodSize i (b.strings i) where
  size_eq := (h.represents i hi).size_eq
  buffer_eq := ((h.represents i hi).buffer fastMallocGoodSize (h.hasOneRef hi)).2.2
  someData_eq := by
    rw [(h.represents i hi).size_eq]
    exact (h.represents i hi).someData (Nat.zero_le _) (Nat.lt_succ_self _)

end SharedBuffers

/-- The buffers of a program and what they should hold. -/
structure SharedBufferState where
  buffers : SharedBuffers
  byteStrings : ByteStrings

namespace SharedBufferState

def start : SharedBufferState := ⟨.initial, ⟨fun _ => [], 0⟩⟩

structure Step (fastMallocGoodSize : ℕ → ℕ) (state : SharedBufferState)
    (operation : SharedBufferOperation) (state' : SharedBufferState) : Prop where
  legal : operation.Legal state.byteStrings
  execute : state.buffers.execute fastMallocGoodSize operation = some state'.buffers
  apply : state'.byteStrings = operation.apply state.byteStrings

def Safe (state : SharedBufferState) (operation : SharedBufferOperation) : Prop :=
  operation.Safe state.buffers

variable {fastMallocGoodSize : ℕ → ℕ} {state : SharedBufferState}
  {operations : List SharedBufferOperation}

theorem represent_of_run
    (hrun : Run (guarded (Step fastMallocGoodSize) Safe) start operations state) :
    state.buffers.Represent state.byteStrings := by
  refine hrun.preserves (I := fun state => state.buffers.Represent state.byteStrings) ?_
    represent_initial
  intro s operation t h ⟨hsafe, hstep⟩
  obtain ⟨u, heq, hu⟩ := h.execute fastMallocGoodSize hstep.legal hsafe
  rw [hstep.apply, ← Option.some.inj (heq.symm.trans hstep.execute)]
  exact hu

theorem data_append_of_create {bytes : List UInt8} (hlen : bytes.length = 5000) :
    ∃ s : SharedBuffers, (initial.adopt 0 .create).append id 0 (bytes.map some) = some s ∧
        (s.dataBuffer 0).data = [] := by
  have hmap : (bytes.map some).length = 5000 := by rw [length_map, hlen]
  have hne : ¬ bytes.map some = [] := by
    rw [← length_eq_zero_iff, hmap]
    omega
  have hsize : toUnsigned (((initial.adopt 0 .create).sharedBuffers 0).size +
      (5000 : ℕ)) = 5000 := by decide
  unfold append
  rw [if_neg hne, hmap]
  dsimp only
  rw [hsize, if_neg (by unfold segmentSize; omega)]
  exact ⟨_, if_pos rfl, rfl⟩

theorem not_agrees_copy {s : SharedBuffers} {bytes : List UInt8} (hlen : bytes.length = 5000)
    (h : s.Represents 0 bytes) (hcount : s.sharedBufferCount = 1)
    (hdata : (s.dataBuffer 0).data = []) : ¬ (s.copy id 0).Agrees id 1 bytes := by
  intro hagrees
  have hvector := h.data_copy id
  obtain ⟨content, hcont, hholds⟩ := h.contents
  have htotal := congrArg length hcont
  rw [hdata, nil_append, length_map, hlen] at htotal
  have hle := hholds.length_le
  have hlt := hholds.no_empty
  rw [hdata, nil_append, hcount] at hvector
  have hclone := congrArg length hvector
  rw [length_flatten hholds.length_eq] at hclone
  have hbuf : (s.copy id 0).buffer id 1 = s.copy id 0 := by
    have hunsigned : toUnsigned (((s.copy id 0).dataBuffer 1).data.length : ℤ) =
        ((s.copy id 0).dataBuffer 1).data.length := by
      apply toUnsigned_natCast
      unfold segmentSize at *
      omega
    have hsize : ((s.copy id 0).sharedBuffers 1).size = 5000 := by
      rw [← hcount, copy]
      dsimp only [adopt]
      rw [update_self, ← hlen]
      exact h.size_eq
    unfold buffer
    rw [hunsigned, hsize, if_neg]
    omega
  have hexact := hagrees.buffer_eq
  rw [hbuf] at hexact
  have hlast := congrArg length hexact
  rw [hclone, length_map, hlen] at hlast
  unfold segmentSize at *
  omega

end SharedBufferState

end WebKit.Platform
