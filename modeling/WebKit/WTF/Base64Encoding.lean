import Mathlib.Data.Int.Notation
import WebKit.Bits.Streams
import WebKit.WTF.Base64

/-!
# What `base64Encode` writes

The characters that are written, without line feeds and padding, are those of the sextets of the
data (`base64EncodeInternal_spec`). The vector is large enough: a line feed is written after 19
groups at the earliest, also after the count of the characters has wrapped around
(`lineFeeds_succ_le`).
-/

namespace WebKit.WTF.Base64

open Bits List Int32

/-! ## Sextets -/

theorem testBit_byte (x i : ℕ) : (x % 256).testBit i = (decide (i < 8) && x.testBit i) :=
  Nat.testBit_mod_two_pow x 8 i

theorem testBit_077 (i : ℕ) : Nat.testBit 63 i = decide (i < 6) := Nat.testBit_two_pow_sub_one 6 i

theorem testBit_017 (i : ℕ) : Nat.testBit 15 i = decide (i < 4) := Nat.testBit_two_pow_sub_one 4 i

theorem testBit_03 (i : ℕ) : Nat.testBit 3 i = decide (i < 2) := Nat.testBit_two_pow_sub_one 2 i

/-- The numbers of the characters that the data is written as. -/
def sextets : List UInt8 → List UInt8
  | [] => []
  | [a] => [firstSextet a, (a <<< 4) &&& 0o77]
  | [a, b] => [firstSextet a, secondSextet a b, (b <<< 2) &&& 0o77]
  | a :: b :: c :: rest =>
    firstSextet a :: secondSextet a b :: thirdSextet b c :: fourthSextet c :: sextets rest

theorem length_sextets (data : List UInt8) : (sextets data).length = (4 * data.length + 2) / 3 := by
  fun_induction sextets data with
  | case1 => rfl
  | case2 | case3 => simp
  | case4 a b c rest ih =>
    simp only [length_cons, ih]
    omega

abbrev bytes (l : List UInt8) : List Bool := stream 8 (l.map UInt8.toNat)

abbrev digits (l : List UInt8) : List Bool := stream 6 (l.map UInt8.toNat)

theorem digits_group (a b c : UInt8) :
    digits [firstSextet a, secondSextet a b, thirdSextet b c, fourthSextet c] = bytes [a, b, c] := by
  simp [stream, msbFirst, firstSextet, secondSextet, thirdSextet, fourthSextet,
    Nat.testBit_shiftRight, testBit_byte, testBit_077, testBit_017, testBit_03]

theorem bytes_prefix_sextets (data : List UInt8) : bytes data <+: digits (sextets data) := by
  fun_induction sextets data with
  | case1 => exact prefix_refl []
  | case2 a =>
    refine ⟨replicate 4 false, ?_⟩
    simp [stream, msbFirst, firstSextet, Nat.testBit_shiftRight, testBit_byte, testBit_077]
  | case3 a b =>
    refine ⟨replicate 2 false, ?_⟩
    simp [stream, msbFirst, firstSextet, secondSextet, Nat.testBit_shiftRight, testBit_byte,
      testBit_077, testBit_017]
  | case4 a b c rest ih =>
    have hgroup := digits_group a b c
    have hbytes : bytes (a :: b :: c :: rest) = bytes [a, b, c] ++ bytes rest := by
      simp [bytes, append_assoc]
    have hdigits : digits (firstSextet a :: secondSextet a b :: thirdSextet b c ::
        fourthSextet c :: sextets rest) =
        digits [firstSextet a, secondSextet a b, thirdSextet b c, fourthSextet c] ++
          digits (sextets rest) := by
      simp [digits, append_assoc]
    rw [hbytes, hdigits, hgroup]
    exact (prefix_append_right_inj _).mpr ih

/-- `count` before a group. -/
def countAt (insertLFs : Bool) (g : ℕ) : Int32 := if insertLFs then ofNat (4 * g) else 0

theorem toInt_countAt {g : ℕ} (hg : g < 2 ^ 30) :
    (countAt true g).toInt = if g < 2 ^ 29 then 4 * (g : ℤ) else 4 * (g : ℤ) - 2 ^ 32 := by
  rw [countAt, if_pos rfl, toInt_ofNat', Int.bmod, size]
  split <;> split <;> omega

theorem mod_eq_zero_iff (count : Int32) : count % 76 = 0 ↔ (76 : ℤ) ∣ count.toInt := by
  rw [← toInt_inj, toInt_mod]
  exact Int.dvd_iff_tmod_eq_zero.symm

/-- A line ends after 19 groups; where the count wraps around, the next one ends after 30. -/
theorem endsLine_countAt {g : ℕ} (hg : g < 2 ^ 30) : endsLine (countAt true g) = true ↔
    g ≠ 0 ∧ if g < 2 ^ 29 then g % 19 = 0 else g % 19 = 11 := by
  have hcount := toInt_countAt hg
  rw [endsLine, Bool.and_eq_true, decide_eq_true_eq, decide_eq_true_eq, mod_eq_zero_iff, ne_eq,
    ← toInt_inj, hcount]
  change ¬ (if g < 2 ^ 29 then 4 * (g : ℤ) else 4 * (g : ℤ) - 2 ^ 32) = 0 ∧ _ ↔ _
  split <;> omega

/-- The line feeds before a group. -/
def lineFeedsAt (insertLFs : Bool) (g : ℕ) : ℕ :=
  if !insertLFs then 0
  else if g ≤ 2 ^ 29 then (g - 1) / 19
  else (2 ^ 29 - 1) / 19 + (g - 2 ^ 29 + 3) / 19

theorem lineFeedsAt_succ (insertLFs : Bool) {g : ℕ} (hg : g < 2 ^ 30) :
    lineFeedsAt insertLFs (g + 1) = lineFeedsAt insertLFs g +
      if insertLFs && endsLine (countAt insertLFs g) then 1 else 0 := by
  cases insertLFs with
  | false => rfl
  | true =>
    have hends := endsLine_countAt hg
    cases hend : endsLine (countAt true g) with
    | true =>
      obtain ⟨hne, hmod⟩ := hends.mp hend
      simp only [lineFeedsAt, Bool.not_true, Bool.false_eq_true, if_false, Bool.true_and, if_true]
      split at hmod <;> split <;> split <;> omega
    | false =>
      rw [hend] at hends
      have hmod : ¬ _ := fun h => Bool.false_ne_true (hends.mpr h)
      simp only [lineFeedsAt, Bool.not_true, Bool.false_eq_true, if_false, Bool.true_and]
      split at hmod <;> split <;> split <;> omega

theorem lineFeedsAt_succ_le (insertLFs : Bool) {g : ℕ} (hg : g < 2 ^ 30) :
    lineFeedsAt insertLFs (g + 1) ≤ g / 19 := by
  unfold lineFeedsAt
  split
  · exact Nat.zero_le _
  · split <;> omega

/-! ## What is written -/

/-- So many line feeds have been written, between the characters. -/
structure Emitted (size : ℕ) (chars : List UInt8) (lineFeeds : ℕ) (s : Output) : Prop where
  size_eq : s.out.length = size
  didx_eq : s.didx = chars.length + lineFeeds
  didx_le : s.didx ≤ size
  text_eq : (s.out.take s.didx).filter (· ≠ lineFeed) = chars

namespace Emitted

variable {size lineFeeds : ℕ} {chars : List UInt8} {s : Output} {c : UInt8}

theorem take_succ_set {l : List UInt8} {i : ℕ} (hi : i < l.length) :
    (l.set i c).take (i + 1) = l.take i ++ [c] := by
  rw [take_add_one, take_set_of_le (Nat.le_refl i), List.getElem?_set_self hi]
  rfl

section

variable (h : Emitted size chars lineFeeds s) (hlt : chars.length + lineFeeds < size)
include h hlt

theorem push_eq (c : UInt8) : s.push c = .ok ⟨s.out.set s.didx c, s.didx + 1⟩ ∧
      (s.out.set s.didx c).take (s.didx + 1) = s.out.take s.didx ++ [c] := by
  have hi : s.didx < s.out.length := by
    rw [h.didx_eq, h.size_eq]
    exact hlt
  refine ⟨?_, take_succ_set hi⟩
  rw [Output.push, store_eq hi]
  rfl

theorem push
    (hc : c ≠ lineFeed) : ∃ s', s.push c = .ok s' ∧ Emitted size (chars ++ [c]) lineFeeds s' := by
  obtain ⟨heq, htake⟩ := h.push_eq hlt c
  refine ⟨_, heq, ?_, ?_, ?_, ?_⟩
  · rw [length_set, h.size_eq]
  · change s.didx + 1 = _
    rw [h.didx_eq, length_append, length_singleton]
    omega
  · rw [h.didx_eq]
    exact hlt
  · rw [htake, filter_append, h.text_eq]
    simp [hc]

theorem pushLineFeed : ∃ s', s.push lineFeed = .ok s' ∧ Emitted size chars (lineFeeds + 1) s' := by
  obtain ⟨heq, htake⟩ := h.push_eq hlt lineFeed
  refine ⟨_, heq, ?_, ?_, ?_, ?_⟩
  · rw [length_set, h.size_eq]
  · change s.didx + 1 = _
    rw [h.didx_eq]
    omega
  · rw [h.didx_eq]
    exact hlt
  · rw [htake, filter_append, h.text_eq]
    simp

end

theorem take_eq (h : Emitted size chars 0 s) : s.out.take s.didx = chars := by
  have hlength : (s.out.take s.didx).length ≤ chars.length := by
    rw [length_take, h.didx_eq]
    exact Nat.min_le_left _ _
  have hsub := filter_sublist (p := (· ≠ lineFeed)) (l := s.out.take s.didx)
  rw [h.text_eq] at hsub
  exact (hsub.eq_of_length_le hlength).symm

end Emitted

section Encoder

variable {encodeMap data : List UInt8} {chars rest : List UInt8} {a b c : UInt8}
  {size lineFeeds sidx g : ℕ} {s : Output} {insertLFs : Bool}

variable (hmap : ∀ i, encodeCharacter encodeMap i ≠ lineFeed)
include hmap

theorem encodeGroup_spec (h : Emitted size chars lineFeeds s)
    (hdata : data.drop sidx = a :: b :: c :: rest) (hle : chars.length + lineFeeds + 4 ≤ size) :
    ∃ s', encodeGroup encodeMap data sidx s = .ok s' ∧
      Emitted size (chars ++ [firstSextet a, secondSextet a b, thirdSextet b c,
        fourthSextet c].map (encodeCharacter encodeMap)) lineFeeds s' := by
  have hb := drop_tail hdata
  have hc := drop_tail hb
  obtain ⟨s1, heq1, h1⟩ := h.push (by omega) (hmap (firstSextet a))
  obtain ⟨s2, heq2, h2⟩ := h1.push (by simp; omega) (hmap (secondSextet a b))
  obtain ⟨s3, heq3, h3⟩ := h2.push (by simp; omega) (hmap (thirdSextet b c))
  obtain ⟨s4, heq4, h4⟩ := h3.push (by simp; omega) (hmap (fourthSextet c))
  refine ⟨s4, ?_, by simpa using h4⟩
  rw [encodeGroup, load_eq_head hdata, load_eq_head hb, load_eq_head hc]
  dsimp only [bind, Except.bind]
  rw [heq1]
  dsimp only
  rw [heq2]
  dsimp only
  rw [heq3]
  exact heq4

/-- `outLength` of `base64EncodeInternal`. -/
def outLengthOf (data : List UInt8) (insertLFs : Bool) : ℕ :=
  let outLength := (data.length + 2) / 3 * 4
  if insertLFs then outLength + (outLength - 1) / 76 else outLength

omit hmap in
theorem le_outLengthOf (insertLFs : Bool) (hlen : data.length < 3 * 2 ^ 30)
    (hg : 3 * g < data.length) :
    4 * (g + 1) + lineFeedsAt insertLFs (g + 1) ≤ outLengthOf data insertLFs := by
  have hle := lineFeedsAt_succ_le insertLFs (g := g) (by omega)
  unfold outLengthOf
  cases insertLFs with
  | false =>
    change _ + 0 ≤ _
    simp only [Bool.false_eq_true, if_false]
    omega
  | true =>
    simp only [if_true]
    omega

/-- The state before a group: what was written and what is still to come are the sextets. -/
structure AtGroup (encodeMap data : List UInt8) (insertLFs : Bool) (g : ℕ) (s : Output) : Prop where
  le_length : 3 * g ≤ data.length
  emitted : ∃ chars,
    Emitted (outLengthOf data insertLFs) chars (lineFeedsAt insertLFs g) s ∧ chars.length = 4 * g ∧
    chars ++ (sextets (data.drop (3 * g))).map (encodeCharacter encodeMap) =
      (sextets data).map (encodeCharacter encodeMap)

omit hmap in
theorem drop_cases (hg : 3 * g ≤ data.length) :
    (∃ a b c rest, data.drop (3 * g) = a :: b :: c :: rest ∧ 3 * g < data.length - 2) ∨
      (data.drop (3 * g)).length < 3 ∧ ¬ 3 * g < data.length - 2 := by
  have hlength : (data.drop (3 * g)).length = data.length - 3 * g := length_drop
  match h : data.drop (3 * g) with
  | [] | [_] | [_, _] =>
    rw [h] at hlength
    simp only [length_cons, length_nil] at hlength ⊢
    omega
  | a :: b :: c :: rest =>
    rw [h] at hlength
    simp only [length_cons] at hlength
    exact .inl ⟨a, b, c, rest, rfl, by omega⟩

section

variable (hlen : data.length < 3 * 2 ^ 30) (h : AtGroup encodeMap data insertLFs g s)
include hlen h

theorem AtGroup.succ
    (hdata : data.drop (3 * g) = a :: b :: c :: rest) (hlt : 3 * g < data.length - 2) :
    ∃ s1 s2, (if insertLFs && endsLine (countAt insertLFs g) then s.push lineFeed else pure s) =
        .ok s1 ∧
      encodeGroup encodeMap data (3 * g) s1 = .ok s2 ∧
      AtGroup encodeMap data insertLFs (g + 1) s2 := by
  obtain ⟨chars, hemitted, hlength, htext⟩ := h.emitted
  have hroom := le_outLengthOf insertLFs hlen (g := g) (by omega)
  have hfeeds := lineFeedsAt_succ insertLFs (g := g) (by omega)
  obtain ⟨s1, heq1, h1⟩ : ∃ s1,
      (if insertLFs && endsLine (countAt insertLFs g) then s.push lineFeed else pure s) = .ok s1 ∧
      Emitted (outLengthOf data insertLFs) chars (lineFeedsAt insertLFs (g + 1)) s1 := by
    rw [hfeeds]
    split
    · exact hemitted.pushLineFeed (by omega)
    · exact ⟨s, rfl, hemitted⟩
  obtain ⟨s2, heq2, h2⟩ := encodeGroup_spec hmap h1 hdata (by omega)
  refine ⟨s1, s2, heq1, heq2, by omega, _, h2, ?_, ?_⟩
  · rw [length_append, length_map, hlength]
    rfl
  · have hrest : data.drop (3 * (g + 1)) = rest := by
      rw [Nat.mul_succ, ← drop_drop, hdata]
      rfl
    rw [← htext, hdata, hrest, sextets]
    simp

theorem encodeGroups_spec :
    ∃ s', encodeGroups encodeMap data data.length insertLFs (3 * g) (countAt insertLFs g) s =
        .ok (3 * (data.length / 3), countAt insertLFs (data.length / 3), s') ∧
      AtGroup encodeMap data insertLFs (data.length / 3) s' := by
  have hle := h.le_length
  induction hk : data.length / 3 - g generalizing g s with
  | zero =>
    obtain rfl : g = data.length / 3 := by omega
    refine ⟨s, ?_, h⟩
    rw [encodeGroups, if_neg (by omega)]
    rfl
  | succ k ih =>
    rcases drop_cases hle with ⟨a, b, c, rest, hdata, hlt⟩ | ⟨hshort, -⟩
    · obtain ⟨s1, s2, heq1, heq2, h2⟩ := h.succ hmap hlen hdata hlt
      obtain ⟨s', heq', h'⟩ := ih h2 h2.le_length (by omega)
      refine ⟨s', ?_, h'⟩
      rw [encodeGroups, if_pos hlt, heq1]
      dsimp only [bind, Except.bind]
      rw [heq2]
      have hcount : (if insertLFs then countAt insertLFs g + 4 else countAt insertLFs g) =
          countAt insertLFs (g + 1) := by
        cases insertLFs with
        | false => rfl
        | true =>
          exact (ofNat_add (4 * g) 4).symm
      rw [hcount]
      exact heq'
    · rw [length_drop] at hshort
      omega

/-- The bytes that are left are written, behind another line feed where the line is full. -/
theorem encodeRest_spec (hg : 3 * g < data.length) (hlast : ¬ 3 * g < data.length - 2) :
    ∃ lineFeeds s', (insertLFs = false → lineFeeds = 0) ∧
      encodeRest encodeMap data data.length insertLFs (3 * g) (countAt insertLFs g) s = .ok s' ∧
      Emitted (outLengthOf data insertLFs) ((sextets data).map (encodeCharacter encodeMap))
        lineFeeds s' := by
  obtain ⟨chars, hemitted, hlength, htext⟩ := h.emitted
  have hroom := le_outLengthOf insertLFs hlen hg
  have hfeeds := lineFeedsAt_succ insertLFs (g := g) (by omega)
  obtain ⟨lineFeeds, s1, hnone, hle, heq1, h1⟩ : ∃ lineFeeds s1,
      (insertLFs = false → lineFeeds = 0) ∧ lineFeeds ≤ lineFeedsAt insertLFs (g + 1) ∧
      (if insertLFs && (0 < countAt insertLFs g && countAt insertLFs g % 76 = 0) then
        s.push lineFeed else pure s) = .ok s1 ∧
      Emitted (outLengthOf data insertLFs) chars lineFeeds s1 := by
    split
    · rename_i hend
      rw [Bool.and_eq_true, Bool.and_eq_true, decide_eq_true_eq, decide_eq_true_eq] at hend
      obtain ⟨rfl, hpos, hmod⟩ := hend
      have hne : countAt true g ≠ 0 := fun hz => by
        rw [hz] at hpos
        exact absurd hpos (by decide)
      rw [if_pos (by simp [endsLine, hne, hmod])] at hfeeds
      obtain ⟨s1, heq1, h1⟩ := hemitted.pushLineFeed (by omega)
      exact ⟨_, s1, nofun, Nat.le_of_eq hfeeds.symm, heq1, h1⟩
    · refine ⟨_, s, fun hfalse => ?_, by omega, rfl, hemitted⟩
      rw [hfalse]
      rfl
  have hdrop : (data.drop (3 * g)).length = data.length - 3 * g := length_drop
  match hdata : data.drop (3 * g) with
  | [] =>
    rw [hdata, length_nil] at hdrop
    omega
  | _ :: _ :: _ :: _ =>
    rw [hdata] at hdrop
    simp only [length_cons] at hdrop
    omega
  | [a] =>
    rw [hdata, length_singleton] at hdrop
    rw [hdata] at htext
    obtain ⟨s2, heq2, h2⟩ := h1.push (by omega) (hmap (firstSextet a))
    obtain ⟨s3, heq3, h3⟩ := h2.push (by simp; omega) (hmap ((a <<< 4) &&& 0o77))
    refine ⟨lineFeeds, s3, hnone, ?_, ?_⟩
    · rw [encodeRest, heq1, load_eq_head hdata]
      dsimp only [bind, Except.bind]
      rw [heq2]
      dsimp only
      rw [if_neg (by omega)]
      exact heq3
    · rw [← htext]
      simpa [sextets] using h3
  | [a, b] =>
    rw [hdata] at htext hdrop
    simp only [length_cons, length_nil] at hdrop
    obtain ⟨s2, heq2, h2⟩ := h1.push (by omega) (hmap (firstSextet a))
    obtain ⟨s3, heq3, h3⟩ := h2.push (by simp; omega) (hmap (secondSextet a b))
    obtain ⟨s4, heq4, h4⟩ := h3.push (by simp; omega) (hmap ((b <<< 2) &&& 0o77))
    refine ⟨lineFeeds, s4, hnone, ?_, ?_⟩
    · rw [encodeRest, heq1, load_eq_head hdata]
      dsimp only [bind, Except.bind]
      rw [heq2]
      dsimp only
      rw [if_pos (by omega), load_eq_head (drop_tail hdata)]
      dsimp only
      rw [heq3]
      exact heq4
    · rw [← htext]
      simpa [sextets] using h4

end

omit hmap in
theorem addPadding_out (hle : s.didx ≤ s.out.length) : (addPadding s).out =
    s.out.take s.didx ++ replicate (s.out.length - s.didx) equalsSign := by
  induction hk : s.out.length - s.didx generalizing s with
  | zero =>
    rw [addPadding, if_neg (by omega), take_of_length_le (by omega), replicate_zero, append_nil]
  | succ k ih =>
    have hset : (s.out.set s.didx equalsSign).length = s.out.length := length_set
    have hrest := @ih ⟨s.out.set s.didx equalsSign, s.didx + 1⟩ (by dsimp only; omega)
      (by dsimp only; omega)
    rw [addPadding, if_pos (by omega), hrest, Emitted.take_succ_set (by omega), append_assoc]
    rfl

/-- The text without its line feeds is made of the characters of the sextets and of padding. -/
structure EncodedText (encodeMap data : List UInt8) (policy : EncodePolicy) (out : List UInt8) :
    Prop where
  text_eq : ∃ k, out.filter (· ≠ lineFeed) =
      (sextets data).map (encodeCharacter encodeMap) ++ List.replicate k equalsSign ∧
    (policy = .urlPolicy → k = 0) ∧
    (policy = .doNotInsertLFs → k ≤ 2 ∧ (k ≠ 0 → out.length % 4 = 0)) ∧ (data = [] → k = 0)
  not_mem : policy ≠ .insertLFs → lineFeed ∉ out

/-- `insertLFs` of `base64EncodeInternal`. -/
def insertsLFs (data : List UInt8) (policy : EncodePolicy) : Bool :=
  policy = .insertLFs && 76 < (data.length + 2) / 3 * 4

omit hmap in
theorem Emitted.encodedText {policy : EncodePolicy} {lineFeeds : ℕ}
    (h : Emitted (outLengthOf data (insertsLFs data policy))
      ((sextets data).map (encodeCharacter encodeMap)) lineFeeds s)
    (hfeeds : insertsLFs data policy = false → lineFeeds = 0) :
    EncodedText encodeMap data policy
      (if policy = .urlPolicy then s.out.take s.didx else (addPadding s).out) := by
  have hsize := h.size_eq
  have hdidx := h.didx_eq
  have hle : s.didx ≤ s.out.length := Nat.le_trans h.didx_le (Nat.le_of_eq hsize.symm)
  have hlength := length_sextets data
  rw [length_map, hlength] at hdidx
  have hpadding : ∀ k, (List.replicate k equalsSign).filter (· ≠ lineFeed) =
      List.replicate k equalsSign := by
    intro k
    simp [equalsSign, lineFeed]
  have hclean : policy ≠ .insertLFs → lineFeeds = 0 ∧ lineFeed ∉ s.out.take s.didx := by
    intro hpolicy
    obtain rfl := hfeeds (by simp [insertsLFs, hpolicy])
    refine ⟨rfl, ?_⟩
    have htext := h.text_eq
    rw [h.take_eq] at htext ⊢
    intro hmem
    rw [← htext, mem_filter, decide_eq_true_eq] at hmem
    exact hmem.2 rfl
  by_cases hurl : policy = .urlPolicy
  · rw [if_pos hurl]
    refine ⟨⟨0, ?_, fun _ => rfl, ?_, fun _ => rfl⟩, fun hne => (hclean hne).2⟩
    · rw [h.text_eq, replicate_zero, append_nil]
    · intro hnone
      rw [hurl] at hnone
      cases hnone
  · rw [if_neg hurl, addPadding_out hle]
    refine ⟨⟨s.out.length - s.didx, ?_, fun h => absurd h hurl, fun hnone => ?_, fun hnil => ?_⟩,
      fun hne => ?_⟩
    · rw [filter_append, h.text_eq, hpadding]
    · obtain ⟨rfl, -⟩ := hclean (by rw [hnone]; decide)
      have hout : outLengthOf data (insertsLFs data policy) = (data.length + 2) / 3 * 4 := by
        simp [outLengthOf, insertsLFs, hnone]
      rw [hout] at hsize
      refine ⟨by omega, fun _ => ?_⟩
      rw [length_append, length_take, length_replicate]
      omega
    · have hzero : outLengthOf data (insertsLFs data policy) = 0 := by
        rw [hnil]
        cases policy <;> rfl
      omega
    · rw [mem_append, not_or]
      refine ⟨(hclean hne).2, fun hmem => ?_⟩
      cases eq_of_mem_replicate hmem

theorem base64EncodeInternal_spec (uninitialized : ℕ → UInt8) (policy : EncodePolicy)
    (hlen : data.length ≤ maxInputBufferSize) :
    ∃ out, base64EncodeInternal encodeMap data uninitialized policy = .ok out ∧
      EncodedText encodeMap data policy out := by
  have hmax : data.length < 3 * 2 ^ 30 := by
    have hlt : maxInputBufferSize < 3 * 2 ^ 30 := by decide
    omega
  rw [base64EncodeInternal]
  by_cases hempty : data.length = 0
  · obtain rfl := eq_nil_of_length_eq_zero hempty
    exact ⟨[], rfl, ⟨0, rfl, fun _ => rfl, fun _ => ⟨by decide, fun h => absurd rfl h⟩,
      fun _ => rfl⟩, by simp⟩
  rw [if_neg hempty, if_neg (by omega)]
  obtain ⟨insertLFs, hins⟩ : ∃ insertLFs, insertLFs = insertsLFs data policy := ⟨_, rfl⟩
  let start : Output := ⟨grow uninitialized (outLengthOf data insertLFs), 0⟩
  let groups : Except Failure (ℕ × Int32 × Output) :=
    if 1 < data.length then encodeGroups encodeMap data data.length insertLFs 0 0 start
    else pure (0, 0, start)
  have hstart : AtGroup encodeMap data insertLFs 0 start := by
    refine ⟨Nat.zero_le _, [], ⟨?_, ?_, Nat.zero_le _, rfl⟩, rfl, rfl⟩
    · simp [start, grow]
    · cases insertLFs <;> rfl
  obtain ⟨s, hgroups, h⟩ : ∃ s, groups =
        .ok (3 * (data.length / 3), countAt insertLFs (data.length / 3), s) ∧
      AtGroup encodeMap data insertLFs (data.length / 3) s := by
    have hcount : countAt insertLFs 0 = 0 := by cases insertLFs <;> rfl
    by_cases hlong : 1 < data.length
    · obtain ⟨s, heq, hs⟩ := encodeGroups_spec hmap hmax hstart
      rw [hcount] at heq
      exact ⟨s, (if_pos hlong).trans heq, hs⟩
    · have hzero : data.length / 3 = 0 := by omega
      rw [hzero, hcount]
      exact ⟨start, if_neg hlong, hstart⟩
  obtain ⟨lineFeeds, s', hnone, hrest, h'⟩ : ∃ lineFeeds s', (insertLFs = false → lineFeeds = 0) ∧
      (if 3 * (data.length / 3) < data.length then
        encodeRest encodeMap data data.length insertLFs (3 * (data.length / 3))
          (countAt insertLFs (data.length / 3)) s
      else pure s) = .ok s' ∧
      Emitted (outLengthOf data insertLFs) ((sextets data).map (encodeCharacter encodeMap))
        lineFeeds s' := by
    split
    · exact encodeRest_spec hmap hmax h (by omega) (by omega)
    · obtain ⟨chars, hemitted, -, htext⟩ := h.emitted
      rw [drop_of_length_le (by omega), sextets, map_nil, append_nil] at htext
      rw [← htext]
      refine ⟨_, s, fun hfalse => ?_, rfl, hemitted⟩
      rw [hfalse]
      rfl
  subst hins
  change ∃ out, (groups >>= fun r =>
    (if r.1 < data.length then
      encodeRest encodeMap data data.length (insertsLFs data policy) r.1 r.2.1 r.2.2
    else pure r.2.2) >>= fun s =>
    pure (if policy = .urlPolicy then s.out.take s.didx else (addPadding s).out)) = .ok out ∧ _
  rw [hgroups]
  dsimp only [bind, Except.bind]
  rw [hrest]
  refine ⟨_, rfl, ?_⟩
  exact h'.encodedText hnone

end Encoder

end WebKit.WTF.Base64
