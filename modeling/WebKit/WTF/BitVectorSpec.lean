import WebKit.Bits.Popcount
import WebKit.Transition.Outcome
import WebKit.WTF.BitVector

/-!
# What the operations of `BitVector` do

`vector.Represents s`: the bits that `get` finds are those of the finite set `s`, whatever
the representation.
-/

namespace WebKit.WTF

open Transition List

/-! ## Bits of words -/

section Word

variable {word : Word} {i j : ℕ}

theorem getLsbD_bitMask (h : i < 64) : (bitMask j).getLsbD i = decide (i = j) := by
  rw [bitMask, BitVec.getLsbD_shiftLeft, BitVec.getLsbD_one]
  by_cases hij : i = j
  · simp [hij, hij ▸ h]
  · by_cases hlt : i < j
    · simp [hij, hlt]
    · simp [hij, h]
      omega

theorem and_bitMask_ne_zero (h : i < 64) : ((word &&& bitMask i) != 0) = word.getLsbD i := by
  by_cases hbit : word.getLsbD i = true
  · rw [hbit, bne_iff_ne]
    intro heq
    have hzero := congrArg (BitVec.getLsbD · i) heq
    simp [getLsbD_bitMask h, hbit] at hzero
  · rw [Bool.not_eq_true] at hbit
    rw [hbit, bne_eq_false_iff_eq]
    refine BitVec.eq_of_getLsbD_eq fun k hk => ?_
    rw [BitVec.getLsbD_and, getLsbD_bitMask hk]
    by_cases hki : k = i
    · rw [hki, hbit]
      simp
    · simp [hki]

theorem getLsbD_or_bitMask (h : i < 64) :
    (word ||| bitMask j).getLsbD i = (word.getLsbD i || decide (i = j)) := by
  rw [BitVec.getLsbD_or, getLsbD_bitMask h]

theorem getLsbD_and_not (other : Word) (h : i < 64) :
    (word &&& ~~~other).getLsbD i = (word.getLsbD i && !other.getLsbD i) := by
  rw [BitVec.getLsbD_and, BitVec.getLsbD_not, decide_eq_true h, Bool.true_and]

theorem getLsbD_cleanseInlineBits (h : i < 64) :
    (cleanseInlineBits word).getLsbD i = (word.getLsbD i && !decide (i = 63)) := by
  rw [cleanseInlineBits, getLsbD_and_not _ h, getLsbD_bitMask h]
  rfl

theorem and_bitsInPointer_sub_one (bit : ℕ) : bit &&& (bitsInPointer - 1) = bit % 64 :=
  Nat.and_two_pow_sub_one_eq_mod bit 6

end Word

/-- The bit of a sequence of words, which is 0 behind its end. -/
def bitAt (words : List Word) (n : ℕ) : Bool := (words.getD (n / 64) 0).getLsbD (n % 64)

section Words

variable {words a b : List Word} {word : Word} {n m i : ℕ}

theorem bitAt_of_le (h : 64 * words.length ≤ n) : bitAt words n = false := by
  rw [bitAt, getD_eq_default _ _ (by omega)]
  exact BitVec.getLsbD_zero

theorem bitAt_cons : bitAt (word :: words) n = if n < 64 then word.getLsbD n else bitAt words (n - 64) := by
  rw [bitAt]
  split
  · next h => rw [Nat.div_eq_of_lt h, Nat.mod_eq_of_lt h, getD_cons_zero]
  · next h =>
    rw [bitAt, show n / 64 = (n - 64) / 64 + 1 by omega, getD_cons_succ,
      show n % 64 = (n - 64) % 64 by omega]

theorem getD_set (h : i < words.length) :
    (words.set i word).getD n 0 = if n = i then word else words.getD n 0 := by
  grind

theorem bitAt_set (h : i < words.length) :
    bitAt (words.set i word) n = if n / 64 = i then word.getLsbD (n % 64) else bitAt words n := by
  rw [bitAt, bitAt, getD_set h]
  split <;> rfl

theorem bitAt_or {c : List Word} (h : ∀ i, c.getD i 0 = a.getD i 0 ||| b.getD i 0) :
    bitAt c n = (bitAt a n || bitAt b n) := by
  rw [bitAt, h, BitVec.getLsbD_or]
  rfl

theorem bitAt_and {c : List Word} (h : ∀ i, c.getD i 0 = a.getD i 0 &&& b.getD i 0) :
    bitAt c n = (bitAt a n && bitAt b n) := by
  rw [bitAt, h, BitVec.getLsbD_and]
  rfl

theorem bitAt_and_not {c : List Word} (h : ∀ i, c.getD i 0 = a.getD i 0 &&& ~~~b.getD i 0) :
    bitAt c n = (bitAt a n && !bitAt b n) := by
  rw [bitAt, h, getLsbD_and_not _ (Nat.mod_lt n (by decide))]
  rfl

theorem and_not_zero : word &&& ~~~0 = word := by
  rw [show ~~~(0 : Word) = BitVec.allOnes 64 from rfl, BitVec.and_allOnes]

theorem getD_replicate_zero : (replicate m (0 : Word)).getD n 0 = 0 := by
  rw [getD_eq_getElem?_getD, getElem?_replicate]
  split <;> rfl

theorem bitAt_replicate : bitAt (replicate m 0) n = false := by
  rw [bitAt, getD_replicate_zero]
  exact BitVec.getLsbD_zero

theorem bitAt_append_replicate : bitAt (words ++ replicate m 0) n = bitAt words n := by
  rw [bitAt, bitAt]
  rcases lt_or_ge (n / 64) words.length with h | h
  · rw [getD_append _ _ _ _ h]
  · rw [getD_append_right _ _ _ _ h, getD_replicate_zero, getD_eq_default _ _ h]

theorem getD_eq_of_bitAt (h : ∀ n, bitAt a n = bitAt b n) (i : ℕ) : a.getD i 0 = b.getD i 0 := by
  refine BitVec.eq_of_getLsbD_eq fun k hk => ?_
  have hbit := h (64 * i + k)
  rwa [bitAt, bitAt, show (64 * i + k) / 64 = i by omega, show (64 * i + k) % 64 = k by omega]
    at hbit

theorem load_getD (h : i < words.length) : load words i = .ok (words.getD i 0) := by
  rw [load_eq h, getD_eq_getElem _ _ h]

end Words

namespace BitVector

variable {vector other : BitVector} {bitsOrPointer : Word} {words : List Word} {s t : Finset ℕ}
  {n bit : ℕ} {fails : Failure → Prop}

/-- The marker is there, or there are words, and their bits can be counted. -/
def Valid : BitVector → Prop
  | .inline bitsOrPointer => bitsOrPointer.getLsbD 63 = true
  | .outOfLine words => words ≠ [] ∧ 64 * words.length < 2 ^ 64

/-- The words with the bits of the vector only. -/
def contents : BitVector → List Word
  | .inline bitsOrPointer => [cleanseInlineBits bitsOrPointer]
  | .outOfLine words => words

structure Represents (vector : BitVector) (s : Finset ℕ) : Prop where
  valid : vector.Valid
  mem_iff : ∀ n, n ∈ s ↔ bitAt vector.contents n = true

theorem bitAt_singleton {word : Word} : bitAt [word] n = (decide (n < 64) && word.getLsbD n) := by
  rw [bitAt_cons]
  split
  · next h => simp [h]
  · next h =>
    rw [bitAt_of_le (Nat.zero_le _)]
    simp [h]

theorem bitAt_contents_inline :
    bitAt (contents (.inline bitsOrPointer)) n = (decide (n < 63) && bitsOrPointer.getLsbD n) := by
  rw [contents, bitAt_singleton]
  by_cases h : n < 64
  · rw [getLsbD_cleanseInlineBits h]
    by_cases h63 : n = 63
    · simp [h63]
    · simp [show n < 63 by omega, h, h63]
  · simp [h, show ¬n < 63 by omega]

theorem represents_inline (hmarker : bitsOrPointer.getLsbD 63 = true)
    (hs : ∀ n, n ∈ s ↔ n < 63 ∧ bitsOrPointer.getLsbD n = true) :
    (inline bitsOrPointer).Represents s := by
  refine ⟨hmarker, fun n => ?_⟩
  rw [hs, bitAt_contents_inline, Bool.and_eq_true, decide_eq_true_iff]

theorem Represents.mem_inline (h : (inline bitsOrPointer).Represents s) :
    n ∈ s ↔ n < 63 ∧ bitsOrPointer.getLsbD n = true := by
  rw [h.mem_iff, bitAt_contents_inline, Bool.and_eq_true, decide_eq_true_iff]

theorem Represents.lt_size (h : vector.Represents s) (hn : n ∈ s) : n < vector.size := by
  rw [h.mem_iff] at hn
  cases vector with
  | inline bitsOrPointer =>
    rw [bitAt_contents_inline, Bool.and_eq_true, decide_eq_true_iff] at hn
    exact hn.1
  | outOfLine words =>
    by_contra hle
    rw [contents, bitAt_of_le (not_lt.mp hle)] at hn
    cases hn

/-- Below the size, the words in memory have the bits of the vector. -/
theorem bitAt_bits (h : n < vector.size) : bitAt vector.bits n = bitAt vector.contents n := by
  cases vector with
  | inline bitsOrPointer =>
    have hn : n < 63 := h
    rw [bitAt_contents_inline, bits, bitAt_singleton]
    simp [hn, show n < 64 by omega]
  | outOfLine words => rfl

theorem div_lt_bits_length (hvalid : vector.Valid) (h : n < vector.size) :
    n / 64 < vector.bits.length := by
  cases vector with
  | inline bitsOrPointer =>
    have hn : n < 63 := h
    change n / 64 < 1
    omega
  | outOfLine words =>
    have hn : n < 64 * words.length := h
    change n / 64 < words.length
    omega

theorem represents_setBitsTo (hvalid : vector.Valid) (hlen : words.length = vector.bits.length)
    (hmarker : vector.isInline = true → bitAt words 63 = true)
    (hs : ∀ n, n ∈ s ↔ n < vector.size ∧ bitAt words n = true) :
    (vector.setBitsTo words).Represents s := by
  cases vector with
  | inline bitsOrPointer =>
    obtain ⟨word, rfl⟩ : ∃ word, words = [word] := length_eq_one_iff.mp hlen
    have hmarker' := hmarker rfl
    rw [bitAt_singleton] at hmarker'
    refine represents_inline (by simpa using hmarker') fun n => ?_
    rw [hs, bitAt_singleton]
    change n < 63 ∧ _ ↔ n < 63 ∧ word.getLsbD n = true
    refine and_congr_right fun hn => ?_
    simp [show n < 64 by omega]
  | outOfLine old =>
    have hlen' : words.length = old.length := hlen
    refine ⟨⟨?_, by rw [hlen']; exact hvalid.2⟩, fun n => ?_⟩
    · rw [← length_pos_iff_ne_nil, hlen']
      exact length_pos_of_ne_nil hvalid.1
    · rw [hs]
      change n < 64 * old.length ∧ _ ↔ bitAt words n = true
      refine ⟨And.right, fun hbit => ⟨?_, hbit⟩⟩
      by_contra hle
      rw [bitAt_of_le (by omega)] at hbit
      cases hbit

/-! ## Single bits -/

theorem Represents.load_bits (h : vector.Represents s) (hbit : bit < vector.size) :
    load vector.bits (bit / bitsInPointer) = .ok (vector.bits.getD (bit / 64) 0) :=
  load_getD (div_lt_bits_length h.valid hbit)

theorem Represents.bits_iff (h : vector.Represents s) (hn : n < vector.size) :
    (vector.bits.getD (n / 64) 0).getLsbD (n % 64) = decide (n ∈ s) := by
  rw [← bitAt, bitAt_bits hn, Bool.eq_iff_iff, decide_eq_true_iff, h.mem_iff]

theorem Represents.get (h : vector.Represents s) : vector.get n = .ok (decide (n ∈ s)) := by
  rw [BitVector.get]
  split
  · next hle =>
    have hn : n ∉ s := fun hn => absurd (h.lt_size hn) (not_lt.mpr hle)
    rw [decide_eq_false hn]
    rfl
  · next hlt =>
    rw [quickGet, h.load_bits (not_le.mp hlt), and_bitsInPointer_sub_one, ← h.bits_iff (not_le.mp hlt)]
    exact congrArg Except.ok (and_bitMask_ne_zero (Nat.mod_lt n (by decide)))

theorem marker (hvalid : vector.Valid) (hinline : vector.isInline = true) :
    bitAt vector.bits 63 = true := by
  cases vector with
  | inline bitsOrPointer =>
    have hmarker : bitsOrPointer.getLsbD 63 = true := hvalid
    rw [bits, bitAt_singleton, hmarker]
    rfl
  | outOfLine words => cases hinline

theorem Represents.quickSet (h : vector.Represents s) (hbit : bit < vector.size) :
    Outcome fails (fun r => r.1.Represents (insert bit s) ∧ r.2 = decide (bit ∈ s))
      (vector.quickSet bit) := by
  have hindex := div_lt_bits_length h.valid hbit
  have hset : ∀ n, bitAt (vector.bits.set (bit / 64)
      (vector.bits.getD (bit / 64) 0 ||| bitMask (bit % 64))) n =
        (bitAt vector.bits n || decide (n = bit)) := fun n => by
    rw [bitAt_set hindex]
    split
    · next hn =>
      rw [getLsbD_or_bitMask (Nat.mod_lt n (by decide)), bitAt, hn]
      congr 2
      exact propext (by omega)
    · next hn =>
      rw [decide_eq_false (by rintro rfl; exact hn rfl), Bool.or_false]
  rw [BitVector.quickSet, h.load_bits hbit, and_bitsInPointer_sub_one]
  dsimp only [bind, Except.bind]
  rw [bitsInPointer, store_eq hindex]
  refine .pure ⟨represents_setBitsTo h.valid (length_set ..) (fun hinline => ?_) fun n => ?_, ?_⟩
  · rw [hset, marker h.valid hinline, Bool.true_or]
  · rw [hset, Finset.mem_insert, Bool.or_eq_true, decide_eq_true_iff]
    by_cases hn : n < vector.size
    · rw [bitAt_bits hn, ← h.mem_iff]
      grind
    · have hn' : n ∉ s := fun hmem => hn (h.lt_size hmem)
      grind
  · exact (and_bitMask_ne_zero (Nat.mod_lt bit (by decide))).trans (h.bits_iff hbit)

theorem Represents.quickClear (h : vector.Represents s) (hbit : bit < vector.size) :
    Outcome fails (fun r => r.1.Represents (s.erase bit) ∧ r.2 = decide (bit ∈ s))
      (vector.quickClear bit) := by
  have hindex := div_lt_bits_length h.valid hbit
  have hset : ∀ n, bitAt (vector.bits.set (bit / 64)
      (vector.bits.getD (bit / 64) 0 &&& ~~~bitMask (bit % 64))) n =
        (bitAt vector.bits n && !decide (n = bit)) := fun n => by
    rw [bitAt_set hindex]
    split
    · next hn =>
      rw [getLsbD_and_not _ (Nat.mod_lt n (by decide)),
        getLsbD_bitMask (Nat.mod_lt n (by decide)), bitAt, hn]
      congr 3
      exact propext (by omega)
    · next hn =>
      rw [decide_eq_false (by rintro rfl; exact hn rfl), Bool.not_false, Bool.and_true]
  rw [BitVector.quickClear, h.load_bits hbit, and_bitsInPointer_sub_one]
  dsimp only [bind, Except.bind]
  rw [bitsInPointer, store_eq hindex]
  refine .pure ⟨represents_setBitsTo h.valid (length_set ..) (fun hinline => ?_) fun n => ?_, ?_⟩
  · have hsize : bit < 63 := by
      cases vector with
      | inline bitsOrPointer => exact hbit
      | outOfLine words => cases hinline
    rw [hset, marker h.valid hinline, decide_eq_false (by omega)]
    rfl
  · rw [hset, Finset.mem_erase, Bool.and_eq_true, Bool.not_eq_true', decide_eq_false_iff_not]
    by_cases hn : n < vector.size
    · rw [bitAt_bits hn, ← h.mem_iff]
      grind
    · have hn' : n ∉ s := fun hmem => hn (h.lt_size hmem)
      grind
  · exact (and_bitMask_ne_zero (Nat.mod_lt bit (by decide))).trans (h.bits_iff hbit)

theorem represents_create : create.Represents ∅ := by
  refine represents_inline (by decide) fun n => ?_
  refine iff_of_false (Finset.notMem_empty n) fun ⟨hlt, hbit⟩ => ?_
  rw [makeInlineBits, getLsbD_or_bitMask (by omega), show (0 : Word) = 0#64 from rfl,
    BitVec.getLsbD_zero, Bool.false_or, decide_eq_true_iff] at hbit
  exact absurd hbit (ne_of_lt hlt)

theorem outOfLineWords_eq (hn : n + 63 < 2 ^ 64) : outOfLineWords n = (n + 63) / 64 := by
  rw [outOfLineWords, bitsInPointer, Nat.add_sub_assoc (by decide), Nat.mod_eq_of_lt hn]

section

variable (h : vector.Represents s)
include h

/-- The same bits in a vector that is large enough, and no larger than asked for. -/
theorem Represents.ensureSize (hn : n + 63 < 2 ^ 64) :
    Outcome fails (fun vector' => vector'.Represents s ∧ n ≤ vector'.size ∧
        (vector' = vector ∨ vector'.isInline = false ∧ vector'.bits.length = (n + 63) / 64))
      (vector.ensureSize n) := by
  rw [BitVector.ensureSize]
  split
  · next hle => exact .pure ⟨h, hle, .inl rfl⟩
  · next hlt =>
    cases vector with
    | inline bitsOrPointer =>
      rw [resizeOutOfLine, outOfLineWords_eq hn, if_neg (by omega)]
      refine .pure ⟨⟨⟨cons_ne_nil _ _, ?_⟩, fun m => ?_⟩, ?_, .inr ⟨rfl, ?_⟩⟩
      · rw [length_cons, length_replicate]
        omega
      · rw [h.mem_iff, contents, contents]
        exact (congrArg (· = true) bitAt_append_replicate).symm.to_iff
      · rw [size, length_cons, length_replicate, bitsInPointer]
        omega
      · rw [bits, length_cons, length_replicate]
        omega
    | outOfLine words =>
      have hn' : bitsInPointer * words.length < n := not_le.mp hlt
      rw [resizeOutOfLine, outOfLineWords_eq hn, if_pos hn']
      rw [bitsInPointer] at hn'
      rw [if_neg (by omega)]
      refine .pure ⟨⟨⟨?_, ?_⟩, fun m => ?_⟩, ?_, .inr ⟨rfl, ?_⟩⟩
      · exact append_ne_nil_of_left_ne_nil h.valid.1 _
      · rw [length_append, length_replicate]
        omega
      · rw [h.mem_iff, contents, contents, bitAt_append_replicate]
      · rw [size, length_append, length_replicate, bitsInPointer]
        omega
      · rw [bits, length_append, length_replicate]
        omega

theorem Represents.set (hbit : bit + 64 < 2 ^ 64) :
    Outcome fails (fun r => r.1.Represents (insert bit s) ∧ r.2 = decide (bit ∈ s))
      (vector.set bit) := by
  rw [BitVector.set, Nat.mod_eq_of_lt (by omega)]
  refine (h.ensureSize (by omega)).bind fun vector' ⟨h', hsize, _⟩ => ?_
  exact h'.quickSet hsize

theorem Represents.clear :
    Outcome fails (fun r => r.1.Represents (s.erase bit) ∧ r.2 = decide (bit ∈ s))
      (vector.clear bit) := by
  rw [BitVector.clear]
  split
  · next hle =>
    have hbit : bit ∉ s := fun hbit => absurd (h.lt_size hbit) (not_lt.mpr hle)
    rw [Finset.erase_eq_of_notMem hbit]
    exact .pure ⟨h, (decide_eq_false hbit).symm⟩
  · next hlt => exact h.quickClear (not_le.mp hlt)

theorem Represents.clearAll : vector.clearAll.Represents ∅ := by
  cases vector with
  | inline bitsOrPointer => exact represents_create
  | outOfLine words =>
    refine ⟨⟨?_, ?_⟩, fun n => ?_⟩
    · have hpos := length_pos_of_ne_nil h.valid.1
      rw [← length_pos_iff_ne_nil, length_replicate]
      exact hpos
    · rw [length_replicate]
      exact h.valid.2
    · rw [BitVector.clearAll, contents, bitAt_replicate]
      simp

theorem Represents.assign : (assign vector).Represents s := by
  cases vector with
  | inline bitsOrPointer => exact h
  | outOfLine words =>
    have hvalid := h.valid.2
    have hwords : outOfLineWords (bitsInPointer * words.length) = words.length := by
      rw [bitsInPointer, outOfLineWords_eq (by omega)]
      omega
    rw [BitVector.assign, hwords, take_length]
    exact h

end

/-! ## Whole vectors -/

section Loops

variable {a b : List Word} {i : ℕ}

theorem combineWords_spec (combine : Word → Word → Word) (ha : n ≤ a.length) (hb : n ≤ b.length) :
    ∃ a', combineWords combine a b n = .ok a' ∧ a'.length = a.length ∧
      ∀ i, a'.getD i 0 = if i < n then combine (a.getD i 0) (b.getD i 0) else a.getD i 0 := by
  induction n generalizing a with
  | zero => exact ⟨a, rfl, rfl, fun i => rfl⟩
  | succ n ih =>
    obtain ⟨a', heq, hlen, hwords⟩ := ih (a := a.set n (combine (a.getD n 0) (b.getD n 0)))
      (by rw [length_set]; omega) (by omega)
    refine ⟨a', ?_, by rw [hlen, length_set], fun i => ?_⟩
    · rw [combineWords, load_getD (by omega : n < a.length), load_getD (by omega : n < b.length)]
      dsimp only [bind, Except.bind]
      rw [store_eq (by omega)]
      exact heq
    · rw [hwords, getD_set (by omega)]
      grind

theorem clearWords_of_le (hle : a.length ≤ i) {fuel : ℕ} :
    ∃ a', clearWords a i (fuel + 1) = .ok a' ∧ a'.length = a.length ∧
      ∀ j, a'.getD j 0 = if i ≤ j then 0 else a.getD j 0 := by
  refine ⟨a, ?_, rfl, fun j => ?_⟩
  · rw [clearWords, if_neg (not_lt.mpr hle)]
    rfl
  · split
    · exact getD_eq_default _ _ (by omega)
    · rfl

theorem clearWords_spec (fuel : ℕ) (hlen : a.length < 2 ^ 32) (hfuel : a.length ≤ i + fuel) :
    ∃ a', clearWords a i (fuel + 1) = .ok a' ∧ a'.length = a.length ∧
      ∀ j, a'.getD j 0 = if i ≤ j then 0 else a.getD j 0 := by
  induction fuel generalizing a i with
  | zero => exact clearWords_of_le hfuel
  | succ fuel ih =>
    rcases lt_or_ge i a.length with hi | hi
    · have hset : (a.set i 0).length = a.length := length_set ..
      obtain ⟨a', heq, hlen', hwords⟩ := ih (a := a.set i 0) (i := i + 1) (by omega) (by omega)
      refine ⟨a', ?_, by rw [hlen', hset], fun j => ?_⟩
      · rw [clearWords, if_pos hi, store_eq hi, unsigned, Nat.mod_eq_of_lt (by omega)]
        exact heq
      · grind
    · exact clearWords_of_le hi

end Loops

theorem represents_outOfLine {a : List Word} (hvalid : (outOfLine words).Valid)
    (hlen : a.length = words.length) (hs : ∀ n, n ∈ s ↔ bitAt a n = true) :
    (outOfLine a).Represents s := by
  refine ⟨⟨?_, by rw [hlen]; exact hvalid.2⟩, hs⟩
  rw [← length_pos_iff_ne_nil, hlen]
  exact length_pos_of_ne_nil hvalid.1

/-- The first word, combined with the bits of a vector inline, is all there is to combine when
the words behind it stay as they are. -/
theorem combineFirst_spec (combine : Word → Word → Word) (word : Word) (h : words ≠ [])
    (hrest : ∀ i, 0 < i → combine (words.getD i 0) 0 = words.getD i 0) :
    ∃ words', combineFirst combine words word = .ok words' ∧ words'.length = words.length ∧
      ∀ i, words'.getD i 0 = combine (words.getD i 0) ([word].getD i 0) := by
  have hpos := length_pos_of_ne_nil h
  refine ⟨words.set 0 (combine (words.getD 0 0) word), ?_, length_set .., fun i => ?_⟩
  · rw [combineFirst, load_getD hpos]
    exact store_eq hpos
  · rw [getD_set hpos]
    split
    · next hi =>
      rw [hi]
      rfl
    · next hi =>
      have hword : [word].getD i 0 = 0 := getD_eq_default _ _ (Nat.one_le_iff_ne_zero.mpr hi)
      rw [hword, hrest i (Nat.pos_of_ne_zero hi)]

/-- Where `mergeSlow` reads only words that the other vector has. -/
def MergesInside (vector other : BitVector) : Prop :=
  other.isInline = true ∨ other.bits.length < 2 ^ 32 ∧
    (vector.isInline = true ∨ vector.bits.length ≤ other.bits.length)

/-- Where `filterSlow` gets to all words: a vector inline has one word only. -/
def FiltersAll : BitVector → BitVector → Prop
  | .outOfLine words, .inline _ => ∀ word ∈ words.tail, word = 0
  | .outOfLine a, .outOfLine b => a.length < 2 ^ 32 ∧ b.length < 2 ^ 32
  | .inline _, _ => True

/-- Where the loop of `excludeSlow` counts its words right. -/
def ExcludesAll (vector other : BitVector) : Prop :=
  vector.isInline = true ∨ other.isInline = true ∨
    min vector.bits.length other.bits.length < 2 ^ 32

theorem Represents.mergeWords {a b : List Word} (h : (outOfLine a).Represents s)
    (h' : (outOfLine b).Represents t) (hlen : a.length = b.length) (hb : b.length < 2 ^ 32) :
    Outcome fails (fun vector' => vector'.Represents (s ∪ t)) (do
      let words ← combineWords (· ||| ·) a b (unsigned a.length)
      pure (outOfLine words)) := by
  obtain ⟨words', heq, hlen', hwords⟩ := combineWords_spec (· ||| ·) le_rfl hlen.le
  rw [unsigned, Nat.mod_eq_of_lt (by omega), heq]
  refine .pure (represents_outOfLine h.valid hlen' fun n => ?_)
  have hcomb : ∀ i, words'.getD i 0 = a.getD i 0 ||| b.getD i 0 := fun i => by
    rw [hwords]
    split
    · rfl
    · next hi =>
      rw [getD_eq_default b _ (by omega)]
      exact (BitVec.or_zero).symm
  rw [bitAt_or hcomb, Finset.mem_union, h.mem_iff, h'.mem_iff, Bool.or_eq_true]
  rfl

theorem Represents.merge (h : vector.Represents s) (h' : other.Represents t)
    (hinside : vector.MergesInside other) :
    Outcome fails (fun vector' => vector'.Represents (s ∪ t)) (vector.merge other) := by
  rcases other with others | b
  · rcases vector with mine | a
    · refine .pure (represents_inline ?_ fun n => ?_)
      · have hmarker : mine.getLsbD 63 = true := h.valid
        rw [BitVec.getLsbD_or, hmarker, Bool.true_or]
      · rw [Finset.mem_union, h.mem_inline, h'.mem_inline, BitVec.getLsbD_or, Bool.or_eq_true]
        grind
    · obtain ⟨words', heq, hlen, hwords⟩ := combineFirst_spec
        (· ||| ·) (cleanseInlineBits others) h.valid.1
        fun i _ => BitVec.or_zero
      change Outcome fails _ (combineFirst (· ||| ·) a (cleanseInlineBits others) >>= _)
      rw [heq]
      refine .pure (represents_outOfLine h.valid hlen fun n => ?_)
      rw [bitAt_or hwords, Finset.mem_union, h.mem_iff, h'.mem_iff, Bool.or_eq_true]
      rfl
  · have hb := h'.valid.2
    have hpos := length_pos_of_ne_nil h'.valid.1
    obtain ⟨hcount, hinside⟩ := hinside.resolve_left nofun
    have hslow : vector.merge (outOfLine b) = vector.mergeSlow (outOfLine b) := by
      cases vector <;> rfl
    rw [hslow, mergeSlow]
    refine (h.ensureSize (n := (outOfLine b).size) ?_).bind fun vector' ⟨hvector', hsize, hsame⟩ => ?_
    · rw [size, bitsInPointer]
      omega
    · rcases vector' with bitsOrPointer | a
      · have hle : 64 * b.length ≤ 63 := hsize
        omega
      · have hle : 64 * b.length ≤ 64 * a.length := hsize
        have hlen : a.length = b.length := by
          rcases hsame with rfl | ⟨-, hlen⟩
          · have hle' : a.length ≤ b.length := hinside.resolve_left nofun
            omega
          · have hlen' : a.length = (64 * b.length + 63) / 64 := hlen
            omega
        exact hvector'.mergeWords h' hlen hcount

theorem Represents.mem_first {b : List Word} (h : (outOfLine b).Represents t) (hn : n < 63) :
    (b.getD 0 0).getLsbD n = decide (n ∈ t) := by
  have hbit := h.mem_iff n
  rw [contents, bitAt, Nat.div_eq_of_lt (by omega), Nat.mod_eq_of_lt (by omega)] at hbit
  rw [Bool.eq_iff_iff, decide_eq_true_iff, hbit]

theorem represents_marked {word : Word} (hs : ∀ n, n ∈ s ↔ n < 63 ∧ word.getLsbD n = true) :
    (inline (word ||| bitMask maxInlineBits)).Represents s := by
  refine represents_inline ?_ fun n => ?_
  · rw [getLsbD_or_bitMask (by decide)]
    simp [maxInlineBits, bitsInPointer]
  · rw [hs]
    refine and_congr_right fun hn => ?_
    have hne : n ≠ maxInlineBits := ne_of_lt hn
    rw [getLsbD_or_bitMask (by omega), decide_eq_false hne, Bool.or_false]

theorem Represents.filter (h : vector.Represents s) (h' : other.Represents t)
    (hall : vector.FiltersAll other) :
    Outcome fails (fun vector' => vector'.Represents (s ∩ t)) (vector.filter other) := by
  rcases vector with mine | a <;> rcases other with others | b
  · refine .pure (represents_inline ?_ fun n => ?_)
    · have hmarker : mine.getLsbD 63 = true := h.valid
      have hmarker' : others.getLsbD 63 = true := h'.valid
      rw [BitVec.getLsbD_and, hmarker, hmarker', Bool.true_and]
    · rw [Finset.mem_inter, h.mem_inline, h'.mem_inline, BitVec.getLsbD_and, Bool.and_eq_true]
      grind
  · change Outcome fails _ (load b 0 >>= _)
    rw [load_getD (length_pos_of_ne_nil h'.valid.1)]
    refine .pure (represents_marked fun n => ?_)
    rw [Finset.mem_inter, h.mem_inline, and_assoc]
    refine and_congr_right fun hn => ?_
    rw [BitVec.getLsbD_and, Bool.and_eq_true, h'.mem_first hn, decide_eq_true_iff]
  · have hrest : ∀ i, 0 < i → a.getD i 0 &&& 0 = a.getD i 0 := fun i hi => by
      have hzero : a.getD i 0 = 0 := by
        rcases lt_or_ge i a.length with hlt | hge
        · rw [getD_eq_getElem _ _ hlt]
          refine hall _ ?_
          rw [mem_iff_getElem]
          exact ⟨i - 1, by rw [length_tail]; omega, by
            rw [getElem_tail]
            congr 1
            omega⟩
        · exact getD_eq_default _ _ hge
      rw [hzero]
      rfl
    obtain ⟨words', heq, hlen, hwords⟩ := combineFirst_spec
      (· &&& ·) (cleanseInlineBits others) h.valid.1 hrest
    change Outcome fails _ (combineFirst (· &&& ·) a (cleanseInlineBits others) >>= _)
    rw [heq]
    refine .pure (represents_outOfLine h.valid hlen fun n => ?_)
    rw [bitAt_and hwords, Finset.mem_inter, h.mem_iff, h'.mem_iff, Bool.and_eq_true]
    rfl
  · obtain ⟨ha, hb⟩ : a.length < 2 ^ 32 ∧ b.length < 2 ^ 32 := hall
    obtain ⟨common, heq, hlen, hcommon⟩ := combineWords_spec (· &&& ·)
      (min_le_left a.length b.length) (min_le_right a.length b.length)
    obtain ⟨words', heq', hlen', hwords⟩ := clearWords_spec (a := common) (i := b.length)
      a.length (by omega) (by omega)
    change Outcome fails _ (combineWords (· &&& ·) a b (unsigned (min a.length b.length)) >>= _)
    rw [unsigned, Nat.mod_eq_of_lt (by omega), heq]
    dsimp only [bind, Except.bind]
    rw [unsigned, Nat.mod_eq_of_lt hb, heq']
    refine .pure (represents_outOfLine h.valid (hlen'.trans hlen) fun n => ?_)
    have hcomb : ∀ i, words'.getD i 0 = a.getD i 0 &&& b.getD i 0 := fun i => by
      rw [hwords, hcommon]
      rcases lt_or_ge i b.length with hib | hib
      · rw [if_neg (not_le.mpr hib)]
        split
        · rfl
        · next hi =>
          rw [getD_eq_default a _ (by omega)]
          exact (BitVec.zero_and).symm
      · rw [if_pos hib, getD_eq_default b _ hib]
        exact (BitVec.and_zero).symm
    rw [bitAt_and hcomb, Finset.mem_inter, h.mem_iff, h'.mem_iff, Bool.and_eq_true]
    rfl

theorem Represents.exclude (h : vector.Represents s) (h' : other.Represents t)
    (hall : vector.ExcludesAll other) :
    Outcome fails (fun vector' => vector'.Represents (s \ t)) (vector.exclude other) := by
  rcases vector with mine | a <;> rcases other with others | b
  · refine .pure (represents_marked fun n => ?_)
    rw [Finset.mem_sdiff, h.mem_inline, h'.mem_inline]
    by_cases hn : n < 63
    · rw [getLsbD_and_not _ (by omega)]
      simp [hn]
    · simp [hn]
  · change Outcome fails _ (load b 0 >>= _)
    rw [load_getD (length_pos_of_ne_nil h'.valid.1)]
    refine .pure (represents_marked fun n => ?_)
    rw [Finset.mem_sdiff, h.mem_inline, and_assoc]
    refine and_congr_right fun hn => ?_
    rw [getLsbD_and_not _ (by omega), h'.mem_first hn]
    simp
  · obtain ⟨words', heq, hlen, hwords⟩ := combineFirst_spec
      (· &&& ~~~·) (cleanseInlineBits others) h.valid.1
      fun i _ => and_not_zero
    change Outcome fails _ (combineFirst (· &&& ~~~·) a (cleanseInlineBits others) >>= _)
    rw [heq]
    refine .pure (represents_outOfLine h.valid hlen fun n => ?_)
    rw [bitAt_and_not hwords, Finset.mem_sdiff, h.mem_iff, h'.mem_iff]
    simp [contents]
  · have hmin : min a.length b.length < 2 ^ 32 := (hall.resolve_left nofun).resolve_left nofun
    obtain ⟨words', heq, hlen, hwords⟩ := combineWords_spec (· &&& ~~~·)
      (min_le_left a.length b.length) (min_le_right a.length b.length)
    change Outcome fails _ (combineWords (· &&& ~~~·) a b (unsigned (min a.length b.length)) >>= _)
    rw [unsigned, Nat.mod_eq_of_lt hmin, heq]
    refine .pure (represents_outOfLine h.valid hlen fun n => ?_)
    have hcomb : ∀ i, words'.getD i 0 = a.getD i 0 &&& ~~~b.getD i 0 := fun i => by
      rw [hwords]
      split
      · rfl
      · next hi =>
        rcases lt_or_ge i a.length with hia | hia
        · rw [getD_eq_default b _ (by omega), and_not_zero]
        · rw [getD_eq_default a _ hia]
          exact BitVec.zero_and.symm
    rw [bitAt_and_not hcomb, Finset.mem_sdiff, h.mem_iff, h'.mem_iff]
    simp [contents]

end BitVector

end WebKit.WTF
