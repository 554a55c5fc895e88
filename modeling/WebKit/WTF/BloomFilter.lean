import Mathlib
import WebKit.Counting.Saturating

/-!
# `BloomFilter`

The filter with two bits for each hash, for hashes that are digests. A filter is given by
the positions of its set bits. It may claim to contain what was never added, but never the
other way round, and it only grows.
-/

open List

namespace WebKit.WTF

/-- An MD5 digest. -/
abbrev Digest := BitVec 128

/-- `BloomFilter<keyBits>`. -/
structure BloomFilter (keyBits : ℕ) where
  setBits : Finset ℕ := ∅
  deriving DecidableEq

namespace BloomFilter

variable {keyBits : ℕ}

/-- The first two `unsigned` of the digest. -/
def keysFromHash (hash : Digest) : ℕ × ℕ :=
  (hash.toNat % 2 ^ 32, hash.toNat / 2 ^ 32 % 2 ^ 32)

def isBitSet (filter : BloomFilter keyBits) (key : ℕ) : Bool :=
  key % 2 ^ keyBits ∈ filter.setBits

def setBit (filter : BloomFilter keyBits) (key : ℕ) : BloomFilter keyBits :=
  ⟨insert (key % 2 ^ keyBits) filter.setBits⟩

def mayContain (filter : BloomFilter keyBits) (hash : Digest) : Bool :=
  filter.isBitSet (keysFromHash hash).1 && filter.isBitSet (keysFromHash hash).2

def add (filter : BloomFilter keyBits) (hash : Digest) : BloomFilter keyBits :=
  (filter.setBit (keysFromHash hash).1).setBit (keysFromHash hash).2

/-- Adding the hashes of a list. -/
def addAll (filter : BloomFilter keyBits) (hashes : List Digest) : BloomFilter keyBits :=
  hashes.foldl add filter

variable {filter : BloomFilter keyBits} {hash other : Digest} {key key' : ℕ}
  {hashes : List Digest}

@[simp] theorem isBitSet_setBit : (filter.setBit key).isBitSet key' = true ↔
      key' % 2 ^ keyBits = key % 2 ^ keyBits ∨ filter.isBitSet key' = true := by
  simp [isBitSet, setBit]

theorem mayContain_add_self : (filter.add hash).mayContain hash = true := by
  simp [mayContain, add]

theorem mayContain_add (h : filter.mayContain hash = true) :
    (filter.add other).mayContain hash = true := by
  simp only [mayContain, Bool.and_eq_true] at h
  simp [mayContain, add, h]

theorem mayContain_addAll_of_mayContain (h : filter.mayContain hash = true) :
    (filter.addAll hashes).mayContain hash = true := by
  induction hashes generalizing filter with
  | nil => exact h
  | cons other hashes ih => exact ih (mayContain_add h)

theorem mayContain_addAll (h : hash ∈ hashes) : (filter.addAll hashes).mayContain hash = true := by
  induction hashes generalizing filter with
  | nil => exact absurd h not_mem_nil
  | cons other hashes ih =>
    rcases mem_cons.mp h with rfl | h
    · change ((filter.add hash).addAll hashes).mayContain hash = true
      exact mayContain_addAll_of_mayContain mayContain_add_self
    · exact ih h

end BloomFilter

/-!
## `CountingBloomFilter`

A hash has two buckets, which may be the same one, and buckets are shared. Each is a counter of
eight bits that stays at its maximum once it is there.
-/

open Counting

structure CountingBloomFilter (keyBits : ℕ) where
  buckets : ℕ → ℕ

namespace CountingBloomFilter

variable {keyBits : ℕ}

def maximumCount : ℕ := 255

/-- The position of `firstBucket`. -/
def firstKey (keyBits hash : ℕ) : ℕ := hash &&& (2 ^ keyBits - 1)

/-- The position of `secondBucket`. -/
def secondKey (keyBits hash : ℕ) : ℕ := (hash >>> 16) &&& (2 ^ keyBits - 1)

def create : CountingBloomFilter keyBits := ⟨fun _ => 0⟩

variable (filter : CountingBloomFilter keyBits) (hash : ℕ)

def add : CountingBloomFilter keyBits :=
  ⟨increment maximumCount (increment maximumCount filter.buckets (firstKey keyBits hash))
    (secondKey keyBits hash)⟩

def remove : CountingBloomFilter keyBits :=
  ⟨decrement maximumCount (decrement maximumCount filter.buckets (firstKey keyBits hash))
    (secondKey keyBits hash)⟩

def mayContain : Bool :=
  filter.buckets (firstKey keyBits hash) ≠ 0 && filter.buckets (secondKey keyBits hash) ≠ 0

/-- The buckets of the hashes in a list. -/
def keys (keyBits : ℕ) (hashes : List ℕ) : List ℕ :=
  hashes.flatMap fun hash => [firstKey keyBits hash, secondKey keyBits hash]

/-- The filter holds the hashes of the list. -/
def Holds (filter : CountingBloomFilter keyBits) (hashes : List ℕ) : Prop :=
  Tracks maximumCount filter.buckets (keys keyBits hashes)

variable {filter : CountingBloomFilter keyBits} {hash : ℕ} {hashes : List ℕ}

theorem maximumCount_pos : 0 < maximumCount := Nat.le_of_ble_eq_true rfl

theorem holds_create : (create : CountingBloomFilter keyBits).Holds [] :=
  Tracks.nil maximumCount_pos

theorem Holds.perm {hashes' : List ℕ} (h : filter.Holds hashes) (hperm : hashes.Perm hashes') :
    filter.Holds hashes' :=
  Tracks.perm h (hperm.flatMap_right _)

theorem Holds.add (h : filter.Holds hashes) (hash : ℕ) : (filter.add hash).Holds (hash :: hashes) :=
  ((Tracks.increment h (firstKey keyBits hash)).increment (secondKey keyBits hash)).perm
    (List.Perm.swap _ _ _)

theorem Holds.remove (h : filter.Holds (hash :: hashes)) : (filter.remove hash).Holds hashes := by
  have hkeys : Tracks maximumCount filter.buckets
      (firstKey keyBits hash :: secondKey keyBits hash :: keys keyBits hashes) := h
  exact hkeys.decrement.decrement

theorem Holds.mayContain (h : filter.Holds hashes) (hmem : hash ∈ hashes) :
    filter.mayContain hash = true := by
  have hkey : ∀ key ∈ [firstKey keyBits hash, secondKey keyBits hash], filter.buckets key ≠ 0 :=
    fun key hkey => Tracks.ne_zero h maximumCount_pos (mem_flatMap.mpr ⟨hash, hmem, hkey⟩)
  rw [CountingBloomFilter.mayContain, Bool.and_eq_true, decide_eq_true_eq, decide_eq_true_eq]
  exact ⟨hkey _ mem_cons_self, hkey _ (mem_cons_of_mem _ mem_cons_self)⟩

end CountingBloomFilter

end WebKit.WTF
