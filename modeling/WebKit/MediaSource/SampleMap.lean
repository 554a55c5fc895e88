import Mathlib.Algebra.BigOperators.Group.List.Basic
import Mathlib.Data.Prod.Lex
import Mathlib.Data.UInt
import WebKit.Ordered.Map
import WebKit.Transition.Run

/-!
# The map of media samples

The model of `SampleMap` of `Modules/mediasource/SampleMap.cpp`: one map of the samples in
presentation order, one in decode order, and the total size. A time is its place in the order
of the media times, and what their sum and difference are is left open. An insertion that finds
its key present changes nothing, but the total size grows all the same: the two maps agree as
long as no sample comes at the presentation time of another one (`sampleMap_sound`).
-/

namespace WebKit.MediaSource

open List Ordered Transition Map

/-- The flags of a sample; no implementation of `flags()` combines two of them. -/
inductive SampleFlags
  | none
  | isSync
  | nonDisplaying
deriving DecidableEq

/-- A sample; the address tells samples with equal data apart. -/
structure MediaSample (Time : Type) where
  address : ℕ
  presentationTime : Time
  decodeTime : Time
  sizeInBytes : UInt64
  flags : SampleFlags
deriving DecidableEq

namespace MediaSample

variable {Time : Type} (sample : MediaSample Time)

def decodeKey : Time ×ₗ Time := toLex (sample.decodeTime, sample.presentationTime)

/-- `SampleIsRandomAccess`. -/
def isRandomAccess : Bool := sample.flags = .isSync

end MediaSample

open MediaSample

/-- The maps in both orders and the total size. -/
structure SampleMap (Time : Type) [LinearOrder Time] where
  presentationOrder : Map (@presentationTime Time)
  decodeOrder : Map (@decodeKey Time)
  totalSize : UInt64

namespace SampleMap

variable {Time : Type} [LinearOrder Time]

def clear : SampleMap Time := ⟨.empty, .empty, 0⟩

variable (m : SampleMap Time) (sample : MediaSample Time) (time threshold : Time)

def addSample : SampleMap Time where
  presentationOrder := m.presentationOrder.insert sample
  decodeOrder := m.decodeOrder.insert sample
  totalSize := m.totalSize + sample.sizeInBytes

def removeSample : SampleMap Time where
  presentationOrder := m.presentationOrder.erase sample.presentationTime
  decodeOrder := m.decodeOrder.erase sample.decodeKey
  totalSize := m.totalSize - sample.sizeInBytes

/-!
## Queries

A reverse iterator is the list of the samples from its place back to the first one, and the
empty list is the end of either direction.
-/

def findSampleOnOrAfterPresentationTime : List (MediaSample Time) :=
  m.presentationOrder.entries.dropWhile (·.presentationTime < time)

def reverseFindSampleBeforePresentationTime : List (MediaSample Time) :=
  m.presentationOrder.entries.reverse.dropWhile (time < ·.presentationTime)

/-- The reverse iterator made of an iterator is behind its sample; one step leads to it. -/
def reverseFindSampleWithDecodeKey (key : Time ×ₗ Time) : List (MediaSample Time) :=
  match m.decodeOrder.find key with
  | [] => []
  | found :: rest =>
    found :: (m.decodeOrder.entries.take (m.decodeOrder.entries.length - (rest.length + 1))).reverse

def findSyncSamplePriorToDecodeIterator (iterator : List (MediaSample Time)) :
    List (MediaSample Time) :=
  iterator.dropWhile (!isRandomAccess ·)

def findSyncSamplePriorToPresentationTime (sub : Time → Time → Time) : List (MediaSample Time) :=
  match m.reverseFindSampleBeforePresentationTime time with
  | [] => []
  | sample :: _ =>
    match findSyncSamplePriorToDecodeIterator
        (m.reverseFindSampleWithDecodeKey sample.decodeKey) with
    | [] => []
    | found :: rest => if found.presentationTime < sub time threshold then [] else found :: rest

def findSyncSampleAfterPresentationTime (add : Time → Time → Time) : List (MediaSample Time) :=
  match m.findSampleOnOrAfterPresentationTime time with
  | [] => []
  | sample :: _ =>
    match (m.decodeOrder.find sample.decodeKey).dropWhile (!isRandomAccess ·) with
    | [] => []
    | found :: rest => if add time threshold < found.presentationTime then [] else found :: rest

def findDependentSamples : List (MediaSample Time) × List (MediaSample Time) :=
  let currentDecodeIter := m.reverseFindSampleWithDecodeKey sample.decodeKey
  (currentDecodeIter, findSyncSamplePriorToDecodeIterator currentDecodeIter)

/-!
## Runs
-/

/-- The calls that change the map. -/
inductive Call (Time : Type)
  | addSample (sample : MediaSample Time)
  | removeSample (sample : MediaSample Time)
  | clear

/-- The samples that are removed are in the map. -/
inductive Step : SampleMap Time → Call Time → SampleMap Time → Prop
  | addSample (m : SampleMap Time) (sample : MediaSample Time) :
      Step m (.addSample sample) (m.addSample sample)
  | removeSample (m : SampleMap Time) (sample : MediaSample Time) :
      sample ∈ m.presentationOrder.entries ∨ sample ∈ m.decodeOrder.entries →
      Step m (.removeSample sample) (m.removeSample sample)
  | clear (m : SampleMap Time) : Step m .clear clear

/-- No other sample has the presentation time of an added one, unless the sample is without any
size and its key in decode order is present as well. -/
def Fits (m : SampleMap Time) : Call Time → Prop
  | .addSample sample =>
    (∀ y ∈ m.presentationOrder.entries, y.presentationTime ≠ sample.presentationTime) ∨
      (∃ y ∈ m.decodeOrder.entries, y.decodeKey = sample.decodeKey) ∧ sample.sizeInBytes = 0
  | _ => True

/-- The maps hold the same samples, and the total is the sum of their sizes. -/
structure Sound : Prop where
  perm : m.presentationOrder.entries.Perm m.decodeOrder.entries
  total : m.totalSize = (m.decodeOrder.entries.map sizeInBytes).sum

section

variable {m sample}

theorem Sound.addSample (h : m.Sound) (hfits : m.Fits (.addSample sample)) :
    (m.addSample sample).Sound := by
  rcases hfits with hfresh | ⟨⟨y, hy, hkey⟩, hsize⟩
  · have hdec : ∀ y ∈ m.decodeOrder.entries, y.decodeKey ≠ sample.decodeKey :=
      fun y hy heq => hfresh y (h.perm.mem_iff.mpr hy) (congrArg (ofLex · |>.2) heq)
    have hperm := insert_perm hdec
    refine ⟨((insert_perm hfresh).trans (h.perm.cons _)).trans hperm.symm, ?_⟩
    change m.totalSize + _ = ((m.decodeOrder.insert sample).entries.map _).sum
    rw [(hperm.map _).sum_eq, map_cons, sum_cons, h.total, add_comm]
  · refine ⟨?_, ?_⟩
    · change (m.presentationOrder.insert sample).entries.Perm (m.decodeOrder.insert sample).entries
      rw [insert_of_mem ⟨y, h.perm.mem_iff.mpr hy, congrArg (ofLex · |>.2) hkey⟩,
        insert_of_mem ⟨y, hy, hkey⟩]
      exact h.perm
    · change m.totalSize + _ = ((m.decodeOrder.insert sample).entries.map _).sum
      rw [insert_of_mem ⟨y, hy, hkey⟩, hsize, add_zero, h.total]

theorem Sound.removeSample (h : m.Sound) (hsample : sample ∈ m.decodeOrder.entries) :
    (m.removeSample sample).Sound := by
  have hdec := perm_erase hsample
  have hpres := perm_erase (h.perm.mem_iff.mpr hsample)
  refine ⟨((hpres.symm.trans h.perm).trans hdec).cons_inv, ?_⟩
  change m.totalSize - _ = _
  rw [h.total, (hdec.map _).sum_eq, map_cons, sum_cons, add_sub_cancel_left]
  rfl

theorem Sound.of_run {calls : List (Call Time)} (hrun : Run (guarded Step Fits) clear calls m) :
    m.Sound := by
  refine hrun.preserves (I := Sound) ?_ ⟨.nil, rfl⟩
  rintro m call _ h ⟨hfits, hstep⟩
  cases hstep with
  | addSample => exact h.addSample hfits
  | removeSample _ hmem => exact h.removeSample (hmem.elim h.perm.mem_iff.mp id)
  | clear => exact ⟨.nil, rfl⟩

end

/-!
## The samples that the queries find

A scan of the decode order names the samples that the queries are to find: the orders of the
times and of the keys are read in either direction.
-/

/-- The sync sample at or before, in decode order, the last sample that is presented at or
before a time. -/
def IsSyncPrior (s : MediaSample Time) : Prop :=
  ∃ sample, IsFirst (fun a b => b.presentationTime < a.presentationTime) m.decodeOrder.entries
      (·.presentationTime ≤ time) sample ∧
    IsFirst (fun a b => b.decodeKey < a.decodeKey) m.decodeOrder.entries
      (fun z => z.isRandomAccess = true ∧ z.decodeKey ≤ sample.decodeKey) s

/-- The sync sample at or after, in decode order, the first sample that is presented at or
after a time. -/
def IsSyncAfter (s : MediaSample Time) : Prop :=
  ∃ sample, IsFirst (fun a b => a.presentationTime < b.presentationTime) m.decodeOrder.entries
      (time ≤ ·.presentationTime) sample ∧
    IsFirst (fun a b => a.decodeKey < b.decodeKey) m.decodeOrder.entries
      (fun z => z.isRandomAccess = true ∧ sample.decodeKey ≤ z.decodeKey) s

/-- The queries give iterators of the decode order, to the samples of the scans. A sample
depends on those before it, in decode order, that no sync sample is behind. -/
structure Answers (add sub : Time → Time → Time) : Prop where
  prior : ∀ time threshold,
    m.findSyncSamplePriorToPresentationTime time threshold sub <:+ m.decodeOrder.entries.reverse ∧
    ∀ s, (m.findSyncSamplePriorToPresentationTime time threshold sub).head? = some s ↔
      m.IsSyncPrior time s ∧ ¬ s.presentationTime < sub time threshold
  after : ∀ time threshold,
    m.findSyncSampleAfterPresentationTime time threshold add <:+ m.decodeOrder.entries ∧
    ∀ s, (m.findSyncSampleAfterPresentationTime time threshold add).head? = some s ↔
      m.IsSyncAfter time s ∧ ¬ add time threshold < s.presentationTime
  dependent : ∀ sample ∈ m.decodeOrder.entries, ∃ dependent,
    (m.findDependentSamples sample).1 = dependent ++ (m.findDependentSamples sample).2 ∧
    (m.findDependentSamples sample).1 <:+ m.decodeOrder.entries.reverse ∧
    ∀ y, y ∈ dependent ↔ y ∈ m.decodeOrder.entries ∧ y.decodeKey ≤ sample.decodeKey ∧
      ∀ z ∈ m.decodeOrder.entries, z.isRandomAccess = true →
        ¬ (y.decodeKey ≤ z.decodeKey ∧ z.decodeKey ≤ sample.decodeKey)
  unknown : ∀ sample, (∀ y ∈ m.decodeOrder.entries, y.decodeKey ≠ sample.decodeKey) →
    m.findDependentSamples sample = ([], [])

section

variable {m sample time threshold} {s : MediaSample Time} {add sub : Time → Time → Time}

instance {K : Type} [LinearOrder K] {α : Type} (key : α → K) :
    Std.Asymm (fun a b => key a < key b) := ⟨fun _ _ => lt_asymm⟩

instance {K : Type} [LinearOrder K] {α : Type} (key : α → K) :
    Std.Asymm (fun a b => key b < key a) := ⟨fun _ _ => lt_asymm⟩

theorem reverseFindSampleBeforePresentationTime_head (h : m.Sound) :
    (m.reverseFindSampleBeforePresentationTime time).head? = some sample ↔
      IsFirst (fun a b => b.presentationTime < a.presentationTime) m.decodeOrder.entries
        (·.presentationTime ≤ time) sample := by
  have hdrop : m.reverseFindSampleBeforePresentationTime time =
      m.presentationOrder.entries.reverse.dropWhile
        fun y => !(y.presentationTime ≤ time : Bool) := by
    simp [reverseFindSampleBeforePresentationTime, ← not_le]
  rw [hdrop, head?_dropWhile_eq_some (pairwise_reverse.mpr m.presentationOrder.sorted)]
  constructor <;> refine (·.congr fun y => ?_) <;> simp [h.perm.mem_iff]

theorem findSampleOnOrAfterPresentationTime_head (h : m.Sound) :
    (m.findSampleOnOrAfterPresentationTime time).head? = some sample ↔
      IsFirst (fun a b => a.presentationTime < b.presentationTime) m.decodeOrder.entries
        (time ≤ ·.presentationTime) sample := by
  have hdrop : m.findSampleOnOrAfterPresentationTime time =
      m.presentationOrder.entries.dropWhile fun y => !(time ≤ y.presentationTime : Bool) := by
    simp [findSampleOnOrAfterPresentationTime, ← not_le]
  rw [hdrop, head?_dropWhile_eq_some m.presentationOrder.sorted]
  constructor <;> refine (·.congr fun y => ?_) <;> simp [h.perm.mem_iff]

theorem reverseFindSampleWithDecodeKey_suffix (key : Time ×ₗ Time) :
    m.reverseFindSampleWithDecodeKey key <:+ m.decodeOrder.entries.reverse := by
  unfold reverseFindSampleWithDecodeKey
  split
  · exact nil_suffix
  · rename_i found rest hfind
    obtain ⟨before, h⟩ := m.decodeOrder.find_suffix key
    rw [hfind] at h
    refine ⟨rest.reverse, ?_⟩
    simp [← h]

section

variable (hsample : sample ∈ m.decodeOrder.entries)
include hsample

theorem mem_reverseFindSampleWithDecodeKey :
    s ∈ m.reverseFindSampleWithDecodeKey sample.decodeKey ↔
      s ∈ m.decodeOrder.entries ∧ s.decodeKey ≤ sample.decodeKey := by
  obtain ⟨before, after, h, hbef, hafter⟩ := exists_split hsample
  rw [reverseFindSampleWithDecodeKey, find_of_split h hbef, h]
  have hlen : (before ++ sample :: after).length - (after.length + 1) = before.length := by simp
  simp only [hlen, take_left, mem_cons, mem_reverse, mem_append]
  grind

theorem findSyncSamplePriorToDecodeIterator_head :
    (findSyncSamplePriorToDecodeIterator
        (m.reverseFindSampleWithDecodeKey sample.decodeKey)).head? = some s ↔
      IsFirst (fun a b => b.decodeKey < a.decodeKey) m.decodeOrder.entries
        (fun z => z.isRandomAccess = true ∧ z.decodeKey ≤ sample.decodeKey) s := by
  have hsorted := (pairwise_reverse.mpr m.decodeOrder.sorted).sublist
    (reverseFindSampleWithDecodeKey_suffix sample.decodeKey).sublist
  rw [findSyncSamplePriorToDecodeIterator, head?_dropWhile_eq_some hsorted]
  constructor <;> refine (·.congr fun y => ?_) <;>
    rw [mem_reverseFindSampleWithDecodeKey hsample] <;> tauto

theorem find_dropWhile_head :
    ((m.decodeOrder.find sample.decodeKey).dropWhile (!isRandomAccess ·)).head? = some s ↔
      IsFirst (fun a b => a.decodeKey < b.decodeKey) m.decodeOrder.entries
        (fun z => z.isRandomAccess = true ∧ sample.decodeKey ≤ z.decodeKey) s := by
  have hsorted := m.decodeOrder.sorted.sublist (m.decodeOrder.find_suffix sample.decodeKey).sublist
  rw [head?_dropWhile_eq_some hsorted]
  constructor <;> refine (·.congr fun y => ?_) <;> rw [mem_find hsample] <;> tauto

end

theorem Sound.prior (h : m.Sound) (time threshold : Time) :
    m.findSyncSamplePriorToPresentationTime time threshold sub <:+ m.decodeOrder.entries.reverse ∧
    ∀ s, (m.findSyncSamplePriorToPresentationTime time threshold sub).head? = some s ↔
      m.IsSyncPrior time s ∧ ¬ s.presentationTime < sub time threshold := by
  have hfirst : ∀ x, (m.reverseFindSampleBeforePresentationTime time).head? = some x ↔ _ :=
    fun x => reverseFindSampleBeforePresentationTime_head h
  simp only [IsSyncPrior, ← hfirst]
  unfold findSyncSamplePriorToPresentationTime
  split
  · rename_i hnil
    simp [hnil]
  · rename_i sample rest hcons
    rw [hcons] at hfirst ⊢
    have hsync := fun s =>
      findSyncSamplePriorToDecodeIterator_head (s := s) ((hfirst sample).mp rfl).mem
    have hsuf := (dropWhile_suffix (!isRandomAccess ·)).trans
      (m.reverseFindSampleWithDecodeKey_suffix sample.decodeKey)
    rw [← findSyncSamplePriorToDecodeIterator] at hsuf
    simp only [head?_cons, Option.some_inj, exists_eq_left', ← hsync]
    split
    · rename_i hnil
      simp [hnil]
    · split <;> grind

theorem Sound.after (h : m.Sound) (time threshold : Time) :
    m.findSyncSampleAfterPresentationTime time threshold add <:+ m.decodeOrder.entries ∧
    ∀ s, (m.findSyncSampleAfterPresentationTime time threshold add).head? = some s ↔
      m.IsSyncAfter time s ∧ ¬ add time threshold < s.presentationTime := by
  have hfirst : ∀ x, (m.findSampleOnOrAfterPresentationTime time).head? = some x ↔ _ :=
    fun x => findSampleOnOrAfterPresentationTime_head h
  simp only [IsSyncAfter, ← hfirst]
  unfold findSyncSampleAfterPresentationTime
  split
  · rename_i hnil
    simp [hnil]
  · rename_i sample rest hcons
    rw [hcons] at hfirst ⊢
    have hsync := fun s => find_dropWhile_head (s := s) ((hfirst sample).mp rfl).mem
    have hsuf := (dropWhile_suffix (!isRandomAccess ·)).trans
      (m.decodeOrder.find_suffix sample.decodeKey)
    simp only [head?_cons, Option.some_inj, exists_eq_left', ← hsync]
    split
    · rename_i hnil
      simp [hnil]
    · split <;> grind

theorem Sound.answers (h : m.Sound) (add sub : Time → Time → Time) : m.Answers add sub where
  prior := h.prior
  after := h.after
  dependent sample hsample := by
    have hsuf := m.reverseFindSampleWithDecodeKey_suffix sample.decodeKey
    refine ⟨(m.reverseFindSampleWithDecodeKey sample.decodeKey).takeWhile (!isRandomAccess ·),
      takeWhile_append_dropWhile.symm, hsuf, fun y => ?_⟩
    rw [mem_takeWhile_iff ((pairwise_reverse.mpr m.decodeOrder.sorted).sublist hsuf.sublist),
      mem_reverseFindSampleWithDecodeKey hsample, and_assoc]
    refine and_congr_right fun hy => and_congr_right fun hle => ?_
    simp only [mem_reverseFindSampleWithDecodeKey hsample]
    constructor
    · intro hall z hz hsync hbetween
      have := hall z ⟨hz, hbetween.2⟩
      rcases hbetween.1.eq_or_lt with heq | hlt
      · grind [this (.inl (eq_of_key hz hy heq.symm))]
      · grind [this (.inr hlt)]
    · rintro hall z ⟨hz, hle⟩ hzy
      grind
  unknown sample hsample := by
    have hfind : m.decodeOrder.find sample.decodeKey = [] :=
      dropWhile_eq_nil_iff.mpr (by simpa using hsample)
    have hreverse : m.reverseFindSampleWithDecodeKey sample.decodeKey = [] := by
      rw [reverseFindSampleWithDecodeKey, hfind]
    rw [findDependentSamples, hreverse]
    rfl

/-- As long as no sample comes at the presentation time of another one, both maps hold the same
samples, the total is the sum of their sizes, and the queries answer as scans do. -/
theorem sampleMap_sound {calls : List (Call Time)} (hrun : Run (guarded Step Fits) clear calls m)
    (add sub : Time → Time → Time) : m.Sound ∧ m.Answers add sub :=
  ⟨Sound.of_run hrun, (Sound.of_run hrun).answers add sub⟩

end

/-- The theorem at two samples, of which the first is removed. -/
theorem sampleMap_sound_removed : ∃ m : SampleMap ℕ,
    (m.Sound ∧ m.Answers (· + ·) (· - ·)) ∧ m.totalSize = 3 ∧
      (m.findSyncSamplePriorToPresentationTime 2 2 (· - ·)).map (·.address) = [1] :=
  have hrun : Run (guarded Step Fits) (@clear ℕ _) [.addSample ⟨0, 5, 0, 2, .none⟩,
      .addSample ⟨1, 1, 4, 3, .isSync⟩, .removeSample ⟨0, 5, 0, 2, .none⟩] _ :=
    .cons ⟨.inl (by decide), .addSample _ _⟩ (.cons ⟨.inl (by decide), .addSample _ _⟩
      (.cons ⟨trivial, .removeSample _ _ (.inr (by decide))⟩ (.nil _)))
  ⟨_, sampleMap_sound hrun _ _, by decide, by decide⟩

/-- Two samples at one presentation time: the second one is in the decode order only. -/
theorem not_sampleMap_sound : ¬ ∀ (calls : List (Call ℕ)) (m : SampleMap ℕ),
    Run Step clear calls m → m.Sound ∧ m.Answers (· + ·) (· - ·) := by
  intro hall
  have hrun : Run Step (@clear ℕ _)
      [.addSample ⟨0, 0, 0, 1, .isSync⟩, .addSample ⟨1, 0, 1, 1, .none⟩] _ :=
    .cons (.addSample _ _) (.cons (.addSample _ _) (.nil _))
  exact absurd (hall _ _ hrun).1.perm.length_eq (by decide)

end SampleMap

end WebKit.MediaSource
