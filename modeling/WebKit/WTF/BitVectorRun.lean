import WebKit.Bits.Search
import WebKit.Transition.Run
import WebKit.WTF.BitVectorSpec

/-!
# What the queries of `BitVector` find

Counting, comparison, hashing and the searches see the set that a vector represents. Loops
that count in an `unsigned` need a vector that is short enough for it.
-/

open List Function

namespace WebKit.WTF

open Transition Bits BitVector

section Count

variable {words : List Word} {n : ℕ}

theorem bitCount32_eq (bits : BitVec 32) : bitCount32 bits = popcount 32 bits.toNat := by
  obtain ⟨hle, hpairs⟩ := sub_and_mask 16 bits.toNat bits.isLt
  have hnibbles := add_and_mask_two 8 bits.toNat
  have hbytes := add_and_mask_four 4 bits.toNat
  have hbound : counts 4 8 bits.toNat ≤ 0x44444444 := counts_le 4 8 bits.toNat
  have hfirst : (bits - ((bits >>> 1) &&& 0x55555555#32)).toNat = counts 2 16 bits.toNat := by
    have hand : ((bits >>> 1) &&& 0x55555555#32).toNat = bits.toNat / 2 &&& mask 1 4 16 := by
      rfl
    rw [BitVec.toNat_sub_of_le (by rw [BitVec.le_def, hand]; exact hle), hand]
    exact hpairs
  generalize hx : bits - ((bits >>> 1) &&& 0x55555555#32) = pairs at hfirst
  have hsnd : ((pairs &&& 0x33333333#32) + ((pairs >>> 2) &&& 0x33333333#32)).toNat =
      counts 4 8 bits.toNat := by
    rw [BitVec.toNat_add, BitVec.toNat_and, BitVec.toNat_and, BitVec.toNat_ushiftRight,
      Nat.shiftRight_eq_div_pow, hfirst]
    change ((counts 2 (2 * 8) bits.toNat &&& mask 3 16 8) +
      (counts 2 (2 * 8) bits.toNat / 4 &&& mask 3 16 8)) % 2 ^ 32 = _
    rw [hnibbles, Nat.mod_eq_of_lt (by omega)]
  generalize hy : (pairs &&& 0x33333333#32) + ((pairs >>> 2) &&& 0x33333333#32) = nibbles
    at hsnd
  have hthird : ((nibbles + (nibbles >>> 4)) &&& 0xF0F0F0F#32).toNat = counts 8 4 bits.toNat := by
    rw [BitVec.toNat_and, BitVec.toNat_add, BitVec.toNat_ushiftRight,
      Nat.shiftRight_eq_div_pow, hsnd, Nat.mod_eq_of_lt (by omega)]
    exact hbytes
  rw [bitCount32, hx, hy, BitVec.toNat_ushiftRight, BitVec.toNat_mul, hthird, Nat.shiftRight_eq_div_pow]
  exact mul_div_counts bits.toNat

theorem bitCount64_eq (word : Word) :
    bitCount64 word = ((Finset.range 64).filter fun i => word.getLsbD i).card := by
  have hsplit : popcount 64 word.toNat =
      popcount 32 word.toNat + popcount 32 (word.toNat / 2 ^ 32) :=
    popcount_add 32 32 word.toNat
  rw [bitCount64, bitCount32_eq, bitCount32_eq, BitVec.toNat_setWidth, BitVec.toNat_setWidth,
    popcount_mod le_rfl, popcount_mod le_rfl, BitVec.toNat_ushiftRight,
    Nat.shiftRight_eq_div_pow, ← hsplit, popcount_eq_card]
  rfl

theorem card_filter_bitAt (n : ℕ) : ((Finset.range (64 * n)).filter fun i => bitAt words i).card =
      ∑ i ∈ Finset.range n, bitCount64 (words.getD i 0) := by
  induction n with
  | zero => rfl
  | succ n ih =>
    have hword : (∑ i ∈ Finset.range 64, if bitAt words (64 * n + i) = true then 1 else 0) =
        bitCount64 (words.getD n 0) := by
      rw [bitCount64_eq, Finset.card_filter]
      refine Finset.sum_congr rfl fun i hi => ?_
      have hlt := Finset.mem_range.mp hi
      rw [bitAt, show (64 * n + i) / 64 = n by omega, show (64 * n + i) % 64 = i by omega]
    rw [Finset.card_filter] at ih ⊢
    rw [Nat.mul_succ, Finset.sum_range_add, hword, ih, Finset.sum_range_succ]

end Count

namespace BitVector

variable {vector other : BitVector} {words a b : List Word} {s t : Finset ℕ} {n : ℕ}

section Fold

variable {α : Type} {combine : α → Word → α} {result : α}

theorem foldWords_congr (ha : n ≤ a.length) (hb : n ≤ b.length)
    (h : ∀ i < n, a.getD i 0 = b.getD i 0) :
    foldWords combine a result n = foldWords combine b result n := by
  induction n generalizing result with
  | zero => rfl
  | succ n ih =>
    rw [foldWords, foldWords, load_getD ha, load_getD hb, h n (Nat.lt_succ_self n)]
    exact ih (Nat.le_of_succ_le ha) (Nat.le_of_succ_le hb) fun i hi => h i (Nat.lt_succ_of_lt hi)

theorem foldWords_add (hcomb : combine result 0 = result) {k : ℕ} (ha : n + k ≤ a.length)
    (hzero : ∀ i, n ≤ i → a.getD i 0 = 0) :
    foldWords combine a result (n + k) = foldWords combine a result n := by
  induction k with
  | zero => rfl
  | succ k ih =>
    rw [← add_assoc, foldWords, load_getD (by omega), hzero _ (Nat.le_add_right n k)]
    dsimp only [bind, Except.bind]
    rw [hcomb]
    exact ih (by omega)

theorem foldWords_ok (combine : Word → Word → Word) (result : Word) (ha : n ≤ a.length) :
    ∃ value, foldWords combine a result n = .ok value := by
  induction n generalizing result with
  | zero => exact ⟨result, rfl⟩
  | succ n ih =>
    rw [foldWords, load_getD ha]
    exact ih _ (Nat.le_of_succ_le ha)

end Fold

theorem foldWords_bitCount (ha : n ≤ a.length) (result : ℕ) :
    foldWords (fun result word => result + bitCount64 word) a result n =
      .ok (result + ∑ i ∈ Finset.range n, bitCount64 (a.getD i 0)) := by
  induction n generalizing result with
  | zero => rfl
  | succ n ih =>
    rw [foldWords, load_getD ha]
    dsimp only [bind, Except.bind]
    rw [ih (Nat.le_of_succ_le ha), Finset.sum_range_succ]
    congr 1
    omega

/-- Whether an `unsigned` can count the words. -/
def CountsWords (vector : BitVector) : Prop :=
  vector.isInline = true ∨ vector.bits.length < 2 ^ 32

theorem Represents.eq_filter (h : vector.Represents s) :
    s = (Finset.range (64 * vector.contents.length)).filter fun i => bitAt vector.contents i := by
  ext n
  rw [Finset.mem_filter, Finset.mem_range, ← h.mem_iff]
  refine ⟨fun hn => ⟨?_, hn⟩, And.right⟩
  by_contra hle
  rw [h.mem_iff, bitAt_of_le (not_lt.mp hle)] at hn
  cases hn

theorem Represents.bitCount (h : vector.Represents s) (hcounts : vector.CountsWords) :
    vector.bitCount = .ok s.card := by
  rw [h.eq_filter, card_filter_bitAt]
  cases vector with
  | inline bitsOrPointer =>
    rw [contents, bitCount, length_singleton, Finset.sum_range_one]
    rfl
  | outOfLine words =>
    have hlen : words.length < 2 ^ 32 := hcounts.resolve_left (by rintro ⟨⟩)
    rw [bitCount, unsigned, Nat.mod_eq_of_lt hlen, foldWords_bitCount le_rfl, zero_add]
    rfl

theorem Represents.getD_contents (h : vector.Represents s) (h' : other.Represents s) (i : ℕ) :
    vector.contents.getD i 0 = other.contents.getD i 0 :=
  getD_eq_of_bitAt (fun n => by rw [Bool.eq_iff_iff, ← h.mem_iff, h'.mem_iff]) i

theorem hashValue_eq (hcounts : vector.CountsWords) :
    vector.hashValue = foldWords (· ^^^ ·) vector.contents 0 vector.contents.length := by
  cases vector with
  | inline bitsOrPointer =>
    change _ = Except.ok (0 ^^^ cleanseInlineBits bitsOrPointer)
    rw [show (0 : Word) = 0#64 from rfl, BitVec.zero_xor]
    rfl
  | outOfLine words =>
    have hlen : words.length < 2 ^ 32 := hcounts.resolve_left nofun
    rw [hashValue, unsigned, Nat.mod_eq_of_lt hlen]
    rfl

theorem foldWords_xor_eq (hle : a.length ≤ b.length) (h : ∀ i, a.getD i 0 = b.getD i 0) :
    foldWords (· ^^^ ·) a 0 a.length = foldWords (· ^^^ ·) b 0 b.length := by
  have hzero : ∀ i, a.length ≤ i → b.getD i 0 = 0 := fun i hi => by
    rw [← h, getD_eq_default _ _ hi]
  obtain ⟨k, hk⟩ := Nat.exists_eq_add_of_le hle
  rw [foldWords_congr le_rfl hle fun i _ => h i, hk, foldWords_add BitVec.xor_zero hk.ge hzero]

theorem Represents.hash_eq (h : vector.Represents s) (h' : other.Represents s)
    (hcounts : vector.CountsWords) (hcounts' : other.CountsWords) :
    vector.hash = other.hash := by
  rw [hash, hash, hashValue_eq hcounts, hashValue_eq hcounts']
  rcases le_total vector.contents.length other.contents.length with hle | hle
  · rw [foldWords_xor_eq hle (h.getD_contents h')]
  · rw [foldWords_xor_eq hle (h'.getD_contents h)]

theorem hash_ok (hcounts : vector.CountsWords) : ∃ value, vector.hash = .ok value := by
  obtain ⟨value, heq⟩ := foldWords_ok (· ^^^ ·) 0 (le_refl vector.contents.length)
  exact ⟨intHash value, by rw [hash, hashValue_eq hcounts, heq]; rfl⟩

theorem Represents.equalBits (h : vector.Represents s) (h' : other.Represents t) (n : ℕ) :
    ∃ r, equalBits vector other n = .ok r ∧ (r = true ↔ ∀ i < n, i ∈ s ↔ i ∈ t) := by
  induction n with
  | zero => exact ⟨true, rfl, by simp⟩
  | succ n ih =>
    rw [BitVector.equalBits, h.get, h'.get]
    dsimp only [bind, Except.bind]
    by_cases hn : n ∈ s ↔ n ∈ t
    · obtain ⟨r, heq, hr⟩ := ih
      have hsame : decide (n ∈ s) = decide (n ∈ t) := decide_eq_decide.mpr hn
      refine ⟨r, ?_, ?_⟩
      · rw [hsame, if_neg (by simp)]
        exact heq
      · rw [hr, Nat.forall_lt_succ_right]
        exact (and_iff_left hn).symm
    · refine ⟨false, ?_, ?_⟩
      · rw [if_pos (by simpa using hn)]
        rfl
      · exact iff_of_false nofun fun hall => hn (hall n (Nat.lt_succ_self n))

theorem zeroWords_spec {i m : ℕ} (hm : m ≤ words.length) : ∃ r, zeroWords words i m = .ok r ∧
      (r = true ↔ ∀ j, i ≤ j → j < m → words.getD j 0 = 0) := by
  induction hd : m - i generalizing i with
  | zero =>
    refine ⟨true, ?_, ?_⟩
    · rw [zeroWords, if_neg (by omega)]
      rfl
    · exact iff_of_true rfl fun j hj hjm => by omega
  | succ d ih =>
    rw [zeroWords, if_pos (by omega), load_getD (by omega)]
    dsimp only [bind, Except.bind]
    by_cases hword : words.getD i 0 = 0
    · obtain ⟨r, heq, hr⟩ := ih (i := i + 1) (by omega)
      refine ⟨r, ?_, hr.trans ⟨fun hall j hj hjm => ?_, fun hall j hj hjm => hall j (by omega) hjm⟩⟩
      · rw [hword, if_neg (by simp)]
        exact heq
      · rcases eq_or_lt_of_le hj with rfl | hlt
        · exact hword
        · exact hall j hlt hjm
    · refine ⟨false, ?_, ?_⟩
      · rw [if_pos (bne_iff_ne.mpr hword)]
        rfl
      · exact iff_of_false nofun fun hall => hword (hall i le_rfl (by omega))

theorem equalWords_spec (ha : n ≤ a.length) (hb : n ≤ b.length) :
    ∃ r, equalWords a b n = .ok r ∧ (r = true ↔ ∀ i < n, a.getD i 0 = b.getD i 0) := by
  induction n with
  | zero => exact ⟨true, rfl, by simp⟩
  | succ n ih =>
    rw [equalWords, load_getD ha, load_getD hb]
    dsimp only [bind, Except.bind]
    by_cases hn : a.getD n 0 = b.getD n 0
    · obtain ⟨r, heq, hr⟩ := ih (by omega) (by omega)
      refine ⟨r, ?_, ?_⟩
      · rw [hn, if_neg (by simp)]
        exact heq
      · rw [hr, Nat.forall_lt_succ_right]
        exact (and_iff_left hn).symm
    · refine ⟨false, ?_, ?_⟩
      · rw [if_pos (bne_iff_ne.mpr hn)]
        rfl
      · exact iff_of_false nofun fun hall => hn (hall n (Nat.lt_succ_self n))

/-- Whether the loop of `equalsSlowCaseSimple` counts the bits right where it is used. -/
def ComparesAll (vector other : BitVector) : Prop :=
  vector.isInline = other.isInline ∨ max vector.size other.size < 2 ^ 32

section

variable (h : vector.Represents s) (h' : other.Represents t)
include h h'

theorem Represents.eq_iff :
    s = t ↔ ∀ i, vector.contents.getD i 0 = other.contents.getD i 0 := by
  refine ⟨?_, fun hall => ?_⟩
  · rintro rfl
    exact h.getD_contents h'
  · ext n
    rw [h.mem_iff, h'.mem_iff, bitAt, hall, bitAt]

theorem Represents.equalsSlowCaseSimple (hlt : max vector.size other.size < 2 ^ 32) :
    ∃ r, equalsSlowCaseSimple vector other = .ok r ∧ (r = true ↔ s = t) := by
  rw [BitVector.equalsSlowCaseSimple, unsigned, Nat.mod_eq_of_lt hlt]
  obtain ⟨r, heq, hr⟩ := h.equalBits h' (max vector.size other.size)
  refine ⟨r, heq, hr.trans ⟨fun hall => ?_, ?_⟩⟩
  · ext n
    refine ⟨fun hn => (hall n ?_).mp hn, fun hn => (hall n ?_).mpr hn⟩
    · exact lt_max_of_lt_left (h.lt_size hn)
    · exact lt_max_of_lt_right (h'.lt_size hn)
  · rintro rfl
    exact fun _ _ => Iff.rfl

theorem Represents.equals (hcompares : vector.ComparesAll other) :
    ∃ r, vector.equals other = .ok r ∧ (r = true ↔ s = t) := by
  rcases vector with mine | a <;> rcases other with others | b
  · refine ⟨mine == others, rfl, ?_⟩
    rw [beq_iff_eq]
    refine ⟨?_, fun hst => ?_⟩
    · rintro rfl
      ext n
      rw [h.mem_inline, h'.mem_inline]
    · refine BitVec.eq_of_getLsbD_eq fun k hk => ?_
      by_cases h63 : k = 63
      · have hmarker : mine.getLsbD 63 = true := h.valid
        have hmarker' : others.getLsbD 63 = true := h'.valid
        rw [h63, hmarker, hmarker']
      · have hk' : k < 63 := by omega
        have hmem := h.mem_inline (n := k)
        rw [hst, h'.mem_inline] at hmem
        simpa [hk'] using hmem.symm
  · exact h.equalsSlowCaseSimple h' (hcompares.resolve_left nofun)
  · exact h.equalsSlowCaseSimple h' (hcompares.resolve_left nofun)
  · have hlonger : max a.length b.length ≤ (if a.length < b.length then b else a).length := by
      split <;> omega
    have hgetD : ∀ i, min a.length b.length ≤ i →
        ((if a.length < b.length then b else a).getD i 0 = 0 ↔ a.getD i 0 = b.getD i 0) :=
      fun i hi => by
        split
        · rw [getD_eq_default a _ (by omega), eq_comm]
        · rw [getD_eq_default b _ (by omega)]
    obtain ⟨zero, hzero, hzero'⟩ := zeroWords_spec (i := min a.length b.length) hlonger
    obtain ⟨equal, hequal, hequal'⟩ :=
      equalWords_spec (min_le_left a.length b.length) (min_le_right a.length b.length)
    have hboth : (zero = true ∧ equal = true) ↔ s = t := by
      rw [h.eq_iff h', hzero', hequal']
      refine ⟨fun ⟨hz, he⟩ i => ?_, fun hall => ⟨fun j hj _ => ?_, fun i _ => hall i⟩⟩
      · rcases lt_or_ge i (min a.length b.length) with hi | hi
        · exact he i hi
        · rcases lt_or_ge i (max a.length b.length) with hi' | hi'
          · exact (hgetD i hi).mp (hz i hi hi')
          · rw [contents, contents, getD_eq_default a _ (by omega), getD_eq_default b _ (by omega)]
      · exact (hgetD j hj).mpr (hall j)
    change ∃ r, (zeroWords _ _ _ >>= fun zero => _) = _ ∧ _
    rw [hzero]
    cases zero with
    | false => exact ⟨false, rfl, by simpa using hboth⟩
    | true => exact ⟨equal, hequal, by simpa using hboth⟩

end

/-! ## Searching -/

theorem and_one_eq {word : Word} {value : Bool} :
    (word &&& 1#64) = (if value then 1#64 else 0#64) ↔ word.getLsbD 0 = value := by
  rw [BitVec.getLsbD, Nat.testBit_zero, ← BitVec.toNat_inj, BitVec.toNat_and]
  rcases Nat.mod_two_eq_zero_or_one word.toNat with hmod | hmod <;> cases value <;> simp [hmod]

theorem findBitInWordLoop_eq (word : Word) (index endIndex : ℕ) (value : Bool) :
    findBitInWordLoop (word >>> index) index endIndex value =
      (decide (firstFrom (fun i => word.getLsbD i = value) index endIndex < endIndex),
        firstFrom (fun i => word.getLsbD i = value) index endIndex) := by
  induction hd : endIndex - index generalizing index with
  | zero =>
    rw [findBitInWordLoop, if_neg (by omega), firstFrom_of_le (by omega),
      decide_eq_false (lt_irrefl _)]
  | succ d ih =>
    have hlt : index < endIndex := by omega
    have hbit : (word >>> index).getLsbD 0 = word.getLsbD index := BitVec.getLsbD_ushiftRight ..
    rw [findBitInWordLoop, if_pos hlt]
    by_cases hfound : word.getLsbD index = value
    · rw [if_pos (and_one_eq.mpr (hbit.trans hfound)), firstFrom_of_pos hlt hfound,
        decide_eq_true hlt]
    · rw [if_neg fun heq => hfound (hbit.symm.trans (and_one_eq.mp heq)),
        ← BitVec.shiftRight_add, ih (index + 1) (by omega),
        ← firstFrom_of_neg (p := fun i => word.getLsbD i = value) hfound]

theorem findBitInWords_eq (words : List Word) {wordIndex startIndexInWord : ℕ} (value : Bool)
    (hstart : startIndexInWord < 64) :
    findBitInWords words wordIndex startIndexInWord value =
      .ok (firstFrom (fun i => bitAt words i = value) (64 * wordIndex + startIndexInWord)
        (64 * words.length)) := by
  induction hd : words.length - wordIndex generalizing wordIndex startIndexInWord with
  | zero =>
    rw [findBitInWords, if_neg (by omega), firstFrom_of_le (by omega)]
    rfl
  | succ d ih =>
    have hlt : wordIndex < words.length := by omega
    have hword : firstFrom (fun i => bitAt words i = value)
        (64 * wordIndex + startIndexInWord) (64 * wordIndex + 64) = 64 * wordIndex +
          firstFrom (fun i => (words.getD wordIndex 0).getLsbD i = value) startIndexInWord 64 := by
      rw [firstFrom_add]
      congr 1
      refine firstFrom_congr fun i hi hi64 => ?_
      rw [bitAt, show (64 * wordIndex + i) / 64 = wordIndex by omega,
        show (64 * wordIndex + i) % 64 = i by omega]
    rw [findBitInWords, if_pos hlt, load_getD hlt]
    dsimp only [bind, Except.bind]
    rw [findBitInWord, bitsInPointer, findBitInWordLoop_eq,
      firstFrom_split (show 64 * wordIndex + startIndexInWord ≤ 64 * wordIndex + 64 by omega)
        (show 64 * wordIndex + 64 ≤ 64 * words.length by omega), hword]
    have hskip : words.getD wordIndex 0 = (if value then 0 else BitVec.allOnes 64) →
        firstFrom (fun i => (words.getD wordIndex 0).getLsbD i = value)
          startIndexInWord 64 = 64 := fun heq => by
      refine firstFrom_eq_bound fun i _ hi hbit => ?_
      rw [heq] at hbit
      cases value with
      | true => exact absurd hbit (by simp)
      | false =>
        rw [if_neg (by decide), BitVec.getLsbD_allOnes, decide_eq_true hi] at hbit
        cases hbit
    generalize firstFrom (fun i => (words.getD wordIndex 0).getLsbD i = value)
      startIndexInWord 64 = found at hskip ⊢
    by_cases hfound : found < 64
    · have hne : words.getD wordIndex 0 ≠ (if value then 0 else BitVec.allOnes 64) :=
        fun heq => absurd (hskip heq) (ne_of_lt hfound)
      rw [if_pos ⟨hne, decide_eq_true hfound⟩, if_pos (by omega), mul_comm]
      rfl
    · rw [if_neg fun h => hfound (decide_eq_true_iff.mp h.2), if_neg (by omega),
        ih (by decide) (by omega)]
      rfl

section

variable (h : vector.Represents s)
include h

theorem Represents.findBitSimple (index : ℕ) (value : Bool) :
    vector.findBitSimple index value =
      .ok (Bits.firstFrom (fun i => decide (i ∈ s) = value) index vector.size) := by
  induction hd : vector.size - index generalizing index with
  | zero =>
    rw [BitVector.findBitSimple, if_neg (by omega), Bits.firstFrom_of_le (by omega)]
    rfl
  | succ d ih =>
    have hlt : index < vector.size := by omega
    rw [BitVector.findBitSimple, if_pos hlt, h.get]
    dsimp only [bind, Except.bind]
    by_cases hbit : decide (index ∈ s) = value
    · rw [if_pos hbit, firstFrom_of_pos hlt hbit]
      rfl
    · rw [if_neg hbit, firstFrom_of_neg hbit]
      exact ih (index + 1) (by omega)

theorem Represents.findBit (index : ℕ) (value : Bool) :
    vector.findBit index value =
      .ok (Bits.firstFrom (fun i => decide (i ∈ s) = value) index vector.size) := by
  rw [BitVector.findBit, findBitFast.eq_def]
  cases vector with
  | inline bitsOrPointer =>
    dsimp only
    rw [findBitInWord, findBitInWordLoop_eq]
    refine congrArg Except.ok (firstFrom_congr fun i _ hi => ?_)
    have hi' : i < 63 := hi
    have hmem := h.mem_inline (n := i)
    rw [and_iff_right hi'] at hmem
    have hsame : decide (i ∈ s) = bitsOrPointer.getLsbD i := by
      rw [Bool.eq_iff_iff, decide_eq_true_iff, hmem]
    rw [hsame]
  | outOfLine words =>
    dsimp only
    rw [findBitInWords_eq words value (by rw [bitsInPointer]; omega), bitsInPointer,
      show 64 * (index / 64) + (index - index / 64 * 64) = index by omega]
    refine congrArg Except.ok (firstFrom_congr fun i _ _ => ?_)
    have hsame : decide (i ∈ s) = bitAt words i := by
      rw [Bool.eq_iff_iff, decide_eq_true_iff, h.mem_iff]
      rfl
    rw [hsame]

theorem Represents.setBitsFrom {index fuel : ℕ}
    (hindex : index ≤ vector.size) (hfuel : vector.size - index < fuel) :
    vector.setBitsFrom (firstFrom (fun i => decide (i ∈ s) = true) index vector.size) fuel =
      .ok ((range' index (vector.size - index)).filter (· ∈ s)) := by
  induction hd : vector.size - index generalizing index fuel with
  | zero =>
    obtain ⟨fuel, rfl⟩ : ∃ k, fuel = k + 1 := ⟨fuel - 1, by omega⟩
    rw [Bits.firstFrom_of_le (by omega), BitVector.setBitsFrom, if_pos rfl]
    rfl
  | succ d ih =>
    have hlt : index < vector.size := by omega
    rw [range'_succ, filter_cons]
    by_cases hmem : index ∈ s
    · obtain ⟨fuel, rfl⟩ : ∃ k, fuel = k + 1 := ⟨fuel - 1, by omega⟩
      rw [firstFrom_of_pos hlt (decide_eq_true hmem), if_pos (decide_eq_true hmem),
        BitVector.setBitsFrom, if_neg (ne_of_lt hlt), h.findBit]
      dsimp only [bind, Except.bind]
      rw [ih (by omega) (by omega) (by omega)]
      rfl
    · rw [Bits.firstFrom_of_neg (by simpa using hmem), if_neg (by simpa using hmem)]
      exact ih (by omega) (by omega) (by omega)

theorem Represents.setBits :
    vector.setBits = .ok ((List.range vector.size).filter (· ∈ s)) := by
  rw [BitVector.setBits, h.findBit]
  change vector.setBitsFrom _ _ = _
  rw [h.setBitsFrom (Nat.zero_le _) (by omega), Nat.sub_zero, range_eq_range']

end

end BitVector

/-!
## Runs of `BitVector` operations

A program runs operations of its bit vectors beside the operations of finite sets. As long as
the operations of whole vectors get to all words that they have to, and to no others, the
vectors are the sets.
-/

open Transition

variable {ι : Type} [DecidableEq ι]

/-- An operation of the vector that is named first. A copy construction is a construction
and an assignment. -/
inductive BitVectorOperation (ι : Type) where
  | construct (i : ι)
  | assign (i other : ι)
  | set (i : ι) (bit : ℕ)
  | clear (i : ι) (bit : ℕ)
  | ensureSize (i : ι) (numBits : ℕ)
  | clearAll (i : ι)
  | merge (i other : ι)
  | filter (i other : ι)
  | exclude (i other : ι)

/-- The vectors of a program, by name. -/
abbrev BitVectors (ι : Type) := ι → BitVector

namespace BitVectorOperation

/-- The sets after an operation, and the bit that it returns. -/
def apply (sets : ι → Finset ℕ) : BitVectorOperation ι → (ι → Finset ℕ) × Option Bool
  | .construct i | .clearAll i => (update sets i ∅, none)
  | .assign i other => (update sets i (sets other), none)
  | .set i bit => (update sets i (insert bit (sets i)), some (decide (bit ∈ sets i)))
  | .clear i bit => (update sets i ((sets i).erase bit), some (decide (bit ∈ sets i)))
  | .ensureSize _ _ => (sets, none)
  | .merge i other => (update sets i (sets i ∪ sets other), none)
  | .filter i other => (update sets i (sets i ∩ sets other), none)
  | .exclude i other => (update sets i (sets i \ sets other), none)

/-- The size that is asked for can be rounded up, and an operation of whole vectors gets to
the right words. -/
def GetsToWords (vectors : BitVectors ι) : BitVectorOperation ι → Prop
  | .set _ bit => bit + 64 < 2 ^ 64
  | .ensureSize _ numBits => numBits + 63 < 2 ^ 64
  | .merge i other => (vectors i).MergesInside (vectors other)
  | .filter i other => (vectors i).FiltersAll (vectors other)
  | .exclude i other => (vectors i).ExcludesAll (vectors other)
  | _ => True

end BitVectorOperation

namespace BitVectors

/-- The vectors after an operation, and the bit that it returns. -/
def execute (vectors : BitVectors ι) :
    BitVectorOperation ι → Except Failure (BitVectors ι × Option Bool)
  | .construct i => pure (update vectors i .create, none)
  | .assign i other => pure (update vectors i (vectors other).assign, none)
  | .set i bit => do
    let (vector, result) ← (vectors i).set bit
    pure (update vectors i vector, some result)
  | .clear i bit => do
    let (vector, result) ← (vectors i).clear bit
    pure (update vectors i vector, some result)
  | .ensureSize i numBits => do
    let vector ← (vectors i).ensureSize numBits
    pure (update vectors i vector, none)
  | .clearAll i => pure (update vectors i (vectors i).clearAll, none)
  | .merge i other => do
    let vector ← (vectors i).merge (vectors other)
    pure (update vectors i vector, none)
  | .filter i other => do
    let vector ← (vectors i).filter (vectors other)
    pure (update vectors i vector, none)
  | .exclude i other => do
    let vector ← (vectors i).exclude (vectors other)
    pure (update vectors i vector, none)

def Represent (vectors : BitVectors ι) (sets : ι → Finset ℕ) : Prop :=
  ∀ i, (vectors i).Represents (sets i)

variable {vectors : BitVectors ι} {sets : ι → Finset ℕ} {vector : BitVector} {s : Finset ℕ}
  {i : ι} {operation : BitVectorOperation ι}

theorem Represent.update (h : vectors.Represent sets) (hvector : vector.Represents s) :
    Represent (update vectors i vector) (update sets i s) := by
  intro j
  by_cases hj : j = i
  · subst hj
    rw [update_self, update_self]
    exact hvector
  · rw [update_of_ne hj, update_of_ne hj]
    exact h j

theorem Represent.execute (h : vectors.Represent sets) (hwords : operation.GetsToWords vectors) :
    Outcome (fun _ : Failure => False) (fun r => Represent r.1 (operation.apply sets).1 ∧
        r.2 = (operation.apply sets).2)
      (vectors.execute operation) := by
  cases operation with
  | construct i => exact .pure ⟨h.update represents_create, rfl⟩
  | assign i other => exact .pure ⟨h.update (h other).assign, rfl⟩
  | set i bit =>
    exact ((h i).set hwords).bind fun _ h' => .pure ⟨h.update h'.1, congrArg some h'.2⟩
  | clear i bit =>
    exact (h i).clear.bind fun _ h' => .pure ⟨h.update h'.1, congrArg some h'.2⟩
  | ensureSize i numBits =>
    refine ((h i).ensureSize hwords).bind fun vector h' => .pure ⟨?_, rfl⟩
    have hupd := h.update (i := i) h'.1
    rwa [update_eq_self] at hupd
  | clearAll i => exact .pure ⟨h.update (h i).clearAll, rfl⟩
  | merge i other =>
    exact ((h i).merge (h other) hwords).bind fun _ h' => .pure ⟨h.update h', rfl⟩
  | filter i other =>
    exact ((h i).filter (h other) hwords).bind fun _ h' => .pure ⟨h.update h', rfl⟩
  | exclude i other =>
    exact ((h i).exclude (h other) hwords).bind fun _ h' => .pure ⟨h.update h', rfl⟩

end BitVectors

/-- The queries of a vector see the set. -/
structure BitVector.Agrees (vector : BitVector) (s : Finset ℕ) : Prop where
  get_eq : ∀ n, vector.get n = .ok (decide (n ∈ s))
  bitCount_eq : vector.CountsWords → vector.bitCount = .ok s.card
  findBit_eq : ∀ index value, vector.findBit index value =
    .ok (firstFrom (fun i => decide (i ∈ s) = value) index vector.size)
  findBit_eq_findBitSimple : ∀ index value,
    vector.findBit index value = vector.findBitSimple index value
  setBits_eq : vector.setBits = .ok ((List.range vector.size).filter (· ∈ s))

/-- Two vectors compare as their sets do, and equal ones have equal hashes. -/
structure BitVector.Compare (vector other : BitVector) (s t : Finset ℕ) : Prop where
  equals_iff : vector.ComparesAll other →
    ∃ r, vector.equals other = .ok r ∧ (r = true ↔ s = t)
  hash_eq : s = t → vector.CountsWords → other.CountsWords →
    ∃ value, vector.hash = .ok value ∧ other.hash = .ok value

theorem BitVector.Represents.agrees {vector : BitVector} {s : Finset ℕ}
    (h : vector.Represents s) : vector.Agrees s :=
  ⟨fun _ => h.get, h.bitCount, h.findBit,
    fun index value => (h.findBit index value).trans (h.findBitSimple index value).symm,
    h.setBits⟩

theorem BitVector.Represents.compare {vector other : BitVector} {s t : Finset ℕ}
    (h : vector.Represents s) (h' : other.Represents t) : vector.Compare other s t := by
  refine ⟨h.equals h', fun hst hcounts hcounts' => ?_⟩
  subst hst
  obtain ⟨value, heq⟩ := hash_ok hcounts
  exact ⟨value, heq, (h.hash_eq h' hcounts hcounts').symm.trans heq⟩

/-- The vectors of a program and the sets they should be. -/
structure BitVectorState (ι : Type) where
  vectors : BitVectors ι
  sets : ι → Finset ℕ

namespace BitVectorState

variable {state : BitVectorState ι} {operations : List (BitVectorOperation ι)}

/-- All vectors are empty. -/
def start : BitVectorState ι := ⟨fun _ => .create, fun _ => ∅⟩

/-- An operation that does not fail. -/
structure Step (state : BitVectorState ι) (operation : BitVectorOperation ι)
    (state' : BitVectorState ι) : Prop where
  execute : ∃ r, state.vectors.execute operation = .ok (state'.vectors, r)
  apply : state'.sets = (operation.apply state.sets).1

def GetsToWords (state : BitVectorState ι) (operation : BitVectorOperation ι) : Prop :=
  operation.GetsToWords state.vectors

end BitVectorState

end WebKit.WTF
