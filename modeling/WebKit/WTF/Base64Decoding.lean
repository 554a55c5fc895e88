import WebKit.WTF.Base64Encoding

/-!
# What `base64Decode` makes of a text

The characters that the policy does not ignore have to be those of an alphabet, followed by
padding (`IsBase64`). The conversion to bytes takes place in the vector that holds the values of the
characters: `Converted` says that it has not changed what it still has to read, and that no element
is read after it was written. Decoding what was encoded gives the data, because both are the first
bits of the same sextets.
-/

namespace WebKit.WTF.Base64

open Bits List

/-! ## Texts -/

section Texts

variable (isWhiteSpaceNeutral : UInt16 → Bool) (policy : DecodePolicy) (decodeMap : List UInt8)

def IsAlphabet (ch : UInt16) : Prop :=
  ch ≠ equalsSign.toUInt16 ∧ decodeCharacter decodeMap ch ≠ nonAlphabet

instance : DecidablePred (IsAlphabet decodeMap) := fun _ => inferInstanceAs (Decidable (_ ∧ _))

/-- The characters outside of the alphabet that the policy ignores. -/
def ignores (ch : UInt16) : Bool :=
  ch ≠ equalsSign.toUInt16 && decodeCharacter decodeMap ch = nonAlphabet &&
    (policy = .ignoreInvalidCharacters ||
      policy = .ignoreWhitespace && isSpaceOrNewline isWhiteSpaceNeutral ch)

/-- The padding that the policy allows in a text of some length. -/
def AllowsPadding (length k : ℕ) : Prop :=
  policy = .failOnInvalidCharacterOrExcessPadding → k = 0 ∨ length % 4 = 0 ∧ k ≤ 2

/-- Without what the policy ignores the text consists of characters of the alphabet and `k` equals
signs. -/
structure Splits (text chars : List UInt16) (k : ℕ) : Prop where
  text_eq : text.filter (fun ch => !ignores isWhiteSpaceNeutral policy decodeMap ch) =
    chars ++ List.replicate k equalsSign.toUInt16
  alphabet : ∀ ch ∈ chars, IsAlphabet decodeMap ch

structure IsBase64 (text chars : List UInt16) (k : ℕ) : Prop
    extends Splits isWhiteSpaceNeutral policy decodeMap text chars k where
  mod_ne : chars.length % 4 ≠ 1
  padding : AllowsPadding policy text.length k

end Texts

section Scanning

variable {isWhiteSpaceNeutral : UInt16 → Bool} {policy : DecodePolicy} {decodeMap : List UInt8}
  {ch : UInt16} {text rest chars chars' : List UInt16} {length k k' : ℕ} {s : Digits}

theorem not_rejects_iff (hne : ch ≠ equalsSign.toUInt16)
    (hchar : decodeCharacter decodeMap ch = nonAlphabet) :
    rejects isWhiteSpaceNeutral policy ch = false ↔
      ignores isWhiteSpaceNeutral policy decodeMap ch = true := by
  cases policy <;> simp [rejects, ignores, hne, hchar]

theorem not_ignores_of_alphabet (h : IsAlphabet decodeMap ch) :
    ignores isWhiteSpaceNeutral policy decodeMap ch = false := by
  simp [ignores, h.2]

theorem not_ignores_equalsSign :
    ignores isWhiteSpaceNeutral policy decodeMap equalsSign.toUInt16 = false := by
  simp [ignores]

namespace Splits

theorem nil : Splits isWhiteSpaceNeutral policy decodeMap [] [] 0 := ⟨rfl, by simp⟩

theorem takeWhile_eq (h : Splits isWhiteSpaceNeutral policy decodeMap text chars k) :
    (text.filter fun ch => !ignores isWhiteSpaceNeutral policy decodeMap ch).takeWhile
      (· ≠ equalsSign.toUInt16) = chars := by
  rw [h.text_eq, takeWhile_append_of_pos fun ch hch => by simpa using (h.alphabet ch hch).1]
  cases k with
  | zero => simp
  | succ k => simp [replicate_succ]

theorem unique (h : Splits isWhiteSpaceNeutral policy decodeMap text chars k)
    (h' : Splits isWhiteSpaceNeutral policy decodeMap text chars' k') :
    chars = chars' ∧ k = k' := by
  have hchars : chars = chars' := h.takeWhile_eq.symm.trans h'.takeWhile_eq
  subst hchars
  have hlen := congrArg length (h.text_eq.symm.trans h'.text_eq)
  simp only [length_append, length_replicate] at hlen
  exact ⟨rfl, by omega⟩

theorem ignored_iff (hch : ignores isWhiteSpaceNeutral policy decodeMap ch = true) :
    Splits isWhiteSpaceNeutral policy decodeMap (ch :: rest) chars k ↔
      Splits isWhiteSpaceNeutral policy decodeMap rest chars k := by
  constructor <;> rintro ⟨htext, halph⟩
  · rw [filter_cons_of_neg (by simp [hch])] at htext
    exact ⟨htext, halph⟩
  · refine ⟨?_, halph⟩
    rw [filter_cons_of_neg (by simp [hch])]
    exact htext

theorem cons (hch : IsAlphabet decodeMap ch)
    (h : Splits isWhiteSpaceNeutral policy decodeMap rest chars k) :
    Splits isWhiteSpaceNeutral policy decodeMap (ch :: rest) (ch :: chars) k := by
  refine ⟨?_, ?_⟩
  · rw [filter_cons_of_pos (by simp [not_ignores_of_alphabet hch]), h.text_eq]
    rfl
  · intro c hc
    rcases mem_cons.mp hc with rfl | hc
    · exact hch
    · exact h.alphabet c hc

theorem equalsSign (h : Splits isWhiteSpaceNeutral policy decodeMap rest [] k) :
    Splits isWhiteSpaceNeutral policy decodeMap (equalsSign.toUInt16 :: rest) [] (k + 1) := by
  refine ⟨?_, by simp⟩
  rw [filter_cons_of_pos (by simp [not_ignores_equalsSign]), h.text_eq]
  rfl

/-- The first character that is not ignored is the first of the alphabet or of the padding. -/
theorem of_cons (hch : ignores isWhiteSpaceNeutral policy decodeMap ch = false)
    (h : Splits isWhiteSpaceNeutral policy decodeMap (ch :: rest) chars k) :
    (∃ chars', chars = ch :: chars' ∧ IsAlphabet decodeMap ch ∧
        Splits isWhiteSpaceNeutral policy decodeMap rest chars' k) ∨
      ∃ k', chars = [] ∧ k = k' + 1 ∧ ch = Base64.equalsSign.toUInt16 ∧
        Splits isWhiteSpaceNeutral policy decodeMap rest [] k' := by
  have htext := h.text_eq
  rw [filter_cons_of_pos (by simp [hch])] at htext
  cases chars with
  | cons c chars' =>
    obtain ⟨rfl, hrest⟩ := cons.inj htext
    exact .inl ⟨chars', rfl, h.alphabet _ mem_cons_self, hrest,
      fun c hc => h.alphabet c (mem_cons_of_mem _ hc)⟩
  | nil =>
    cases k with
    | zero => cases htext
    | succ k' =>
      obtain ⟨rfl, hrest⟩ := cons.inj htext
      exact .inr ⟨k', rfl, rfl, rfl, hrest, by simp⟩

end Splits

/-- The division of the characters that are still to come, if the loop may go on with it. -/
structure Continues (isWhiteSpaceNeutral : UInt16 → Bool) (policy : DecodePolicy)
    (decodeMap : List UInt8) (length : ℕ) (s : Digits) (rest chars : List UInt16) (k : ℕ) : Prop
    extends Splits isWhiteSpaceNeutral policy decodeMap rest chars k where
  not_behind : s.equalsSignCount ≠ 0 → chars = []
  padding : policy = .failOnInvalidCharacterOrExcessPadding →
    k = 0 ∨ length % 4 = 0 ∧ s.equalsSignCount + k ≤ 2

/-- The values of the characters have been added to `out`. -/
structure Scanned (decodeMap : List UInt8) (s s' : Digits) (chars : List UInt16) (k : ℕ) :
    Prop where
  outLength_eq : s'.outLength = s.outLength + chars.length
  count_eq : s'.equalsSignCount = s.equalsSignCount + k
  length_eq : s'.out.length = s.out.length
  take_eq : s'.out.take s'.outLength =
    s.out.take s.outLength ++ chars.map (decodeCharacter decodeMap)

/-- The loop returns false unless there is a division. -/
def ScanResult (isWhiteSpaceNeutral : UInt16 → Bool) (policy : DecodePolicy)
    (decodeMap : List UInt8) (length : ℕ) (s : Digits) (rest : List UInt16) :
    Option Digits → Prop
  | none => ∀ chars k, ¬ Continues isWhiteSpaceNeutral policy decodeMap length s rest chars k
  | some s' => ∃ chars k, Continues isWhiteSpaceNeutral policy decodeMap length s rest chars k ∧
      Scanned decodeMap s s' chars k

theorem ScanResult.ignored {r : Option Digits}
    (hch : ignores isWhiteSpaceNeutral policy decodeMap ch = true)
    (h : ScanResult isWhiteSpaceNeutral policy decodeMap length s rest r) :
    ScanResult isWhiteSpaceNeutral policy decodeMap length s (ch :: rest) r := by
  cases r with
  | none =>
    exact fun chars k hcont => h chars k
      ⟨(Splits.ignored_iff hch).mp hcont.toSplits, hcont.not_behind, hcont.padding⟩
  | some s' =>
    obtain ⟨chars, k, hcont, hscanned⟩ := h
    exact ⟨chars, k, ⟨(Splits.ignored_iff hch).mpr hcont.toSplits, hcont.not_behind,
      hcont.padding⟩, hscanned⟩

theorem Splits.of_cons_equalsSign
    (h : Splits isWhiteSpaceNeutral policy decodeMap (Base64.equalsSign.toUInt16 :: rest) chars k) :
    ∃ k', chars = [] ∧ k = k' + 1 ∧ Splits isWhiteSpaceNeutral policy decodeMap rest [] k' := by
  rcases h.of_cons not_ignores_equalsSign with ⟨_, -, halph, -⟩ | ⟨k', hnil, hk, -, hrest⟩
  · exact absurd rfl halph.1
  · exact ⟨k', hnil, hk, hrest⟩

theorem Splits.of_cons_alphabet (hch : IsAlphabet decodeMap ch)
    (h : Splits isWhiteSpaceNeutral policy decodeMap (ch :: rest) chars k) :
    ∃ chars', chars = ch :: chars' ∧ Splits isWhiteSpaceNeutral policy decodeMap rest chars' k := by
  rcases h.of_cons (not_ignores_of_alphabet hch) with ⟨chars', hchars, -, hrest⟩ |
    ⟨_, -, -, hequals, -⟩
  · exact ⟨chars', hchars, hrest⟩
  · exact absurd hequals hch.1

theorem ScanResult.equalsSign {r : Option Digits}
    (hallowed : policy = .failOnInvalidCharacterOrExcessPadding →
      length % 4 = 0 ∧ s.equalsSignCount + 1 ≤ 2)
    (h : ScanResult isWhiteSpaceNeutral policy decodeMap length
      { s with equalsSignCount := s.equalsSignCount + 1 } rest r) :
    ScanResult isWhiteSpaceNeutral policy decodeMap length s
      (Base64.equalsSign.toUInt16 :: rest) r := by
  cases r with
  | none =>
    intro chars k hcont
    obtain ⟨k', rfl, rfl, hrest⟩ := hcont.toSplits.of_cons_equalsSign
    refine h [] k' ⟨hrest, fun _ => rfl, fun hpolicy => ?_⟩
    have hpadding := hcont.padding hpolicy
    dsimp only
    omega
  | some s' =>
    obtain ⟨chars, k, hcont, hscanned⟩ := h
    obtain rfl := hcont.not_behind (Nat.succ_ne_zero _)
    refine ⟨[], k + 1, ⟨hcont.toSplits.equalsSign, fun _ => rfl, fun hpolicy => ?_⟩,
      hscanned.outLength_eq, ?_, hscanned.length_eq, hscanned.take_eq⟩
    · have hpadding := hcont.padding hpolicy
      have hone := hallowed hpolicy
      dsimp only at hpadding
      omega
    · have hcount := hscanned.count_eq
      dsimp only at hcount
      omega

theorem ScanResult.alphabet {r : Option Digits} (hch : IsAlphabet decodeMap ch)
    (hfirst : s.equalsSignCount = 0) (hlt : s.outLength < s.out.length)
    (h : ScanResult isWhiteSpaceNeutral policy decodeMap length
      { s with
        out := s.out.set s.outLength (decodeCharacter decodeMap ch)
        outLength := s.outLength + 1 } rest r) :
    ScanResult isWhiteSpaceNeutral policy decodeMap length s (ch :: rest) r := by
  cases r with
  | none =>
    intro chars k hcont
    obtain ⟨chars', -, hrest⟩ := hcont.toSplits.of_cons_alphabet hch
    exact h chars' k ⟨hrest, fun hne => absurd hfirst hne, hcont.padding⟩
  | some s' =>
    obtain ⟨chars, k, hcont, hscanned⟩ := h
    refine ⟨ch :: chars, k, ⟨hcont.toSplits.cons hch, fun hne => absurd hfirst hne,
      hcont.padding⟩, ?_, hscanned.count_eq, ?_, ?_⟩
    · have hlen := hscanned.outLength_eq
      rw [length_cons]
      dsimp only at hlen
      omega
    · exact hscanned.length_eq.trans length_set
    · rw [hscanned.take_eq, Emitted.take_succ_set hlt, map_cons, append_assoc]
      rfl

theorem scanCharacters_spec (hroom : s.outLength + rest.length ≤ s.out.length) :
    ∃ r, scanCharacters isWhiteSpaceNeutral policy decodeMap length rest s = .ok r ∧
      ScanResult isWhiteSpaceNeutral policy decodeMap length s rest r := by
  induction rest generalizing s with
  | nil =>
    exact ⟨some s, rfl, [], 0, ⟨.nil, fun _ => rfl, fun _ => .inl rfl⟩, rfl, rfl, rfl, by simp⟩
  | cons ch rest ih =>
    rw [length_cons] at hroom
    rw [scanCharacters, scanCharacter]
    by_cases heq : ch = equalsSign.toUInt16
    · subst heq
      rw [if_pos rfl]
      split
      · rename_i hstrict
        simp only [Bool.and_eq_true, Bool.or_eq_true, decide_eq_true_eq] at hstrict
        refine ⟨none, rfl, fun chars k h => ?_⟩
        obtain ⟨k', -, rfl, -⟩ := h.toSplits.of_cons_equalsSign
        have hpadding := h.padding hstrict.1
        omega
      · rename_i hstrict
        simp only [Bool.and_eq_true, Bool.or_eq_true, decide_eq_true_eq, not_and, not_or,
          not_not, Nat.not_lt] at hstrict
        obtain ⟨r, hr, h⟩ :=
          @ih { s with equalsSignCount := s.equalsSignCount + 1 } (by dsimp only; omega)
        exact ⟨r, hr, h.equalsSign hstrict⟩
    rw [if_neg heq]
    by_cases hchar : decodeCharacter decodeMap ch = nonAlphabet
    · rw [if_neg (not_not.mpr hchar)]
      cases hrejects : rejects isWhiteSpaceNeutral policy ch with
      | true =>
        refine ⟨none, rfl, fun chars k h => ?_⟩
        have hkept : ignores isWhiteSpaceNeutral policy decodeMap ch = false := by
          rw [← Bool.not_eq_true, ← not_rejects_iff heq hchar, hrejects]
          exact Bool.false_ne_true.symm
        rcases h.toSplits.of_cons hkept with ⟨_, -, halph, -⟩ | ⟨_, -, -, hequals, -⟩
        · exact halph.2 hchar
        · exact heq hequals
      | false =>
        obtain ⟨r, hr, h⟩ := @ih s (by omega)
        exact ⟨r, hr, h.ignored ((not_rejects_iff heq hchar).mp hrejects)⟩
    · have halph : IsAlphabet decodeMap ch := ⟨heq, hchar⟩
      rw [if_pos hchar]
      by_cases hfirst : s.equalsSignCount = 0
      · have hlt : s.outLength < s.out.length := by omega
        rw [if_neg (not_not.mpr hfirst), store_eq hlt]
        obtain ⟨r, hr, h⟩ := @ih { s with
            out := s.out.set s.outLength (decodeCharacter decodeMap ch)
            outLength := s.outLength + 1 } (by
          dsimp only
          rw [length_set]
          omega)
        exact ⟨r, hr, h.alphabet halph hfirst hlt⟩
      · rw [if_pos hfirst]
        refine ⟨none, rfl, fun chars k h => ?_⟩
        obtain ⟨chars', rfl, -⟩ := h.toSplits.of_cons_alphabet halph
        cases h.not_behind hfirst

end Scanning

/-! ## The conversion -/

theorem testBit_255 (i : ℕ) : Nat.testBit 255 i = decide (i < 8) := Nat.testBit_two_pow_sub_one 8 i

/-- The bytes that sextets are converted to. -/
def convertedBytes : List UInt8 → List UInt8
  | [a, b] => [firstByte a b]
  | [a, b, c] => [firstByte a b, secondByte b c]
  | a :: b :: c :: d :: rest =>
    firstByte a b :: secondByte b c :: thirdByte c d :: convertedBytes rest
  | _ => []

theorem length_convertedBytes (l : List UInt8) : (convertedBytes l).length = 3 * l.length / 4 := by
  fun_induction convertedBytes l with
  | case1 | case2 => simp
  | case3 a b c d rest ih =>
    simp only [length_cons, ih]
    omega
  | case4 l h1 h2 h3 =>
    match l with
    | [] | [_] => simp
    | [a, b] => exact absurd rfl (h1 a b)
    | [a, b, c] => exact absurd rfl (h2 a b c)
    | a :: b :: c :: d :: rest => exact absurd rfl (h3 a b c d rest)

theorem bytes_group (a b c d : UInt8) :
    bytes [firstByte a b, secondByte b c, thirdByte c d] = digits [a, b, c, d] := by
  simp [stream, msbFirst, firstByte, secondByte, thirdByte, Nat.testBit_shiftRight, testBit_byte,
    testBit_077, testBit_017, testBit_03, testBit_255]

theorem bytes_convertedBytes (l : List UInt8) : bytes (convertedBytes l) <+: digits l := by
  fun_induction convertedBytes l with
  | case1 a b =>
    refine ⟨(msbFirst 6 b.toNat).drop 2, ?_⟩
    simp [stream, msbFirst, firstByte, Nat.testBit_shiftRight, testBit_byte, testBit_03,
      testBit_255]
  | case2 a b c =>
    refine ⟨(msbFirst 6 c.toNat).drop 4, ?_⟩
    simp [stream, msbFirst, firstByte, secondByte, Nat.testBit_shiftRight, testBit_byte,
      testBit_017, testBit_03, testBit_255]
  | case3 a b c d rest ih =>
    have hbytes : bytes (firstByte a b :: secondByte b c :: thirdByte c d :: convertedBytes rest) =
        bytes [firstByte a b, secondByte b c, thirdByte c d] ++ bytes (convertedBytes rest) := by
      simp [bytes, append_assoc]
    have hdigits : digits (a :: b :: c :: d :: rest) = digits [a, b, c, d] ++ digits rest := by
      simp [digits, append_assoc]
    rw [hbytes, hdigits, bytes_group]
    exact (prefix_append_right_inj _).mpr ih
  | case4 => exact nil_prefix

/-- Nothing is read after it was written. The last access comes first. -/
def ReadsUnwritten : List Access → Prop
  | [] => True
  | .read i :: before => .write i ∉ before ∧ ReadsUnwritten before
  | .write _ :: before => ReadsUnwritten before

/-- Some bytes have been written over the front of `out`, and nothing behind them. -/
structure Converted (out done : List UInt8) (s : Conversion) : Prop where
  length_eq : s.out.length = out.length
  take_eq : s.out.take done.length = done
  rest_eq : ∀ i, done.length ≤ i → s.out[i]? = out[i]?
  writes_lt : ∀ i, .write i ∈ s.accesses → i < done.length
  reads : ReadsUnwritten s.accesses

section Conversion

variable {out done rest rest' junk : List UInt8} {s : Conversion} {sidx i j : ℕ} {x y a b c d : UInt8}

theorem Converted.assign (h : Converted out done s) (hi : done.length ≤ i) (hj : done.length ≤ j)
    (hx : out[i]? = some x) (hy : out[j]? = some y) (f : UInt8 → UInt8 → UInt8) :
    ∃ s', s.assign done.length i j f = .ok s' ∧ Converted out (done ++ [f x y]) s' := by
  have hx' := (h.rest_eq i hi).trans hx
  have hy' := (h.rest_eq j hj).trans hy
  have hlt : done.length < s.out.length :=
    Nat.lt_of_le_of_lt hi (List.getElem?_eq_some_iff.mp hx').1
  have heq : s.assign done.length i j f =
      .ok ⟨s.out.set done.length (f x y), .write done.length :: .read j :: .read i ::
        s.accesses⟩ := by
    rw [Conversion.assign, load, hx', load, hy']
    dsimp only [bind, Except.bind, pure, Except.pure]
    rw [store_eq hlt]
  refine ⟨_, heq, ?_, ?_, ?_, ?_, ?_⟩
  · rw [length_set, h.length_eq]
  · rw [length_append, length_singleton, Emitted.take_succ_set hlt, h.take_eq]
  · intro k hk
    rw [length_append, length_singleton] at hk
    rw [List.getElem?_set_ne (by omega), h.rest_eq k (by omega)]
  · intro k hk
    rw [length_append, length_singleton]
    rcases mem_cons.mp hk with hk | hk
    · cases hk
      exact Nat.lt_succ_self _
    · have hlater : Access.write k ∈ s.accesses := by simpa using hk
      exact Nat.lt_succ_of_lt (h.writes_lt k hlater)
  · have hunwritten : ∀ k, done.length ≤ k → .write k ∉ s.accesses :=
      fun k hk hmem => absurd (h.writes_lt k hmem) (Nat.not_lt.mpr hk)
    refine ⟨?_, hunwritten i hi, h.reads⟩
    simpa using hunwritten j hj

theorem getElem?_of_drop (h : out.drop sidx = rest) (i : ℕ) : out[sidx + i]? = rest[i]? := by
  rw [← h, getElem?_drop]

theorem Converted.group (h : Converted out done s) (hle : done.length ≤ sidx)
    (hdrop : out.drop sidx = a :: b :: c :: d :: rest) :
    ∃ s', convertGroup sidx done.length s = .ok s' ∧
      Converted out (done ++ [firstByte a b, secondByte b c, thirdByte c d]) s' := by
  have ha := getElem?_of_drop hdrop 0
  have hb := getElem?_of_drop hdrop 1
  have hc := getElem?_of_drop hdrop 2
  have hd := getElem?_of_drop hdrop 3
  obtain ⟨s1, heq1, h1⟩ := h.assign (i := sidx) (j := sidx + 1) hle (by omega) ha hb firstByte
  obtain ⟨s2, heq2, h2⟩ := h1.assign (i := sidx + 1) (j := sidx + 2) (by simp; omega)
    (by simp; omega) hb hc secondByte
  obtain ⟨s3, heq3, h3⟩ := h2.assign (i := sidx + 2) (j := sidx + 3) (by simp; omega)
    (by simp; omega) hc hd thirdByte
  refine ⟨s3, ?_, by simpa using h3⟩
  have hlen1 : (done ++ [firstByte a b]).length = done.length + 1 := by simp
  have hlen2 : (done ++ [firstByte a b] ++ [secondByte b c]).length = done.length + 2 := by simp
  rw [hlen1] at heq2
  rw [hlen2] at heq3
  rw [convertGroup, heq1]
  dsimp only [bind, Except.bind]
  rw [heq2]
  exact heq3

/-- What the loop has reached: bytes for the groups before `sidx`, and the sextets behind it. -/
structure AtIndex (out sextets junk : List UInt8) (sidx didx : ℕ) (rest : List UInt8)
    (s : Conversion) : Prop where
  converted : ∃ done, Converted out done s ∧ done.length = didx ∧
    done ++ convertedBytes rest = convertedBytes sextets
  drop_eq : out.drop sidx = rest ++ junk
  index : ∃ g, didx = 3 * g ∧ sidx = 4 * g

theorem convertGroups_spec {sextets : List UInt8} {didx outLength : ℕ}
    (h : AtIndex out sextets junk sidx didx rest s) (hmod : rest.length % 4 ≠ 1)
    (hlen : outLength = didx + 3 * rest.length / 4) :
    ∃ sidx' didx' s' rest', convertGroups outLength sidx didx s = .ok (sidx', didx', s') ∧
      AtIndex out sextets junk sidx' didx' rest' s' ∧ rest'.length < 4 ∧ rest'.length % 4 ≠ 1 ∧
      outLength = didx' + 3 * rest'.length / 4 := by
  induction hn : rest.length / 4 generalizing rest sidx didx s with
  | zero =>
    refine ⟨sidx, didx, s, rest, ?_, h, by omega, hmod, hlen⟩
    rw [convertGroups, if_neg (by omega)]
    rfl
  | succ n ih =>
    match rest with
    | [] | [_] | [_, _] | [_, _, _] => simp at hn
    | a :: b :: c :: d :: rest =>
      simp only [length_cons] at hmod hlen hn
      obtain ⟨⟨done, hconv, hdidx, htext⟩, hdrop, g, hg, hg'⟩ := h
      obtain ⟨s1, heq1, h1⟩ := hconv.group (by omega) hdrop
      have hnext : AtIndex out sextets junk (sidx + 4) (didx + 3) rest s1 := by
        refine ⟨⟨_, h1, by simp [hdidx], ?_⟩, ?_, g + 1, by omega, by omega⟩
        · rw [← htext, convertedBytes, append_assoc]
          rfl
        · rw [← drop_drop, hdrop]
          rfl
      obtain ⟨sidx', didx', s', rest', heq', h'⟩ := ih hnext (by omega) (by omega) (by omega)
      refine ⟨sidx', didx', s', rest', ?_, h'⟩
      rw [convertGroups, if_pos (by omega), ← hdidx, heq1]
      rw [hdidx]
      exact heq'

theorem convert_spec {sextets : List UInt8} (hout : out = sextets ++ junk)
    (hmod : sextets.length % 4 ≠ 1) :
    ∃ s, convert (3 * sextets.length / 4) ⟨out, []⟩ = .ok s ∧
      Converted out (convertedBytes sextets) s := by
  have hstart : Converted out [] ⟨out, []⟩ :=
    ⟨rfl, rfl, fun _ _ => rfl, fun _ h => by simp at h, trivial⟩
  have hindex : AtIndex out sextets junk 0 0 sextets ⟨out, []⟩ :=
    ⟨⟨[], hstart, rfl, rfl⟩, hout, 0, rfl, rfl⟩
  obtain ⟨sidx, didx, s, rest, hgroups, ⟨⟨done, h, hdidx, htext⟩, hdrop, g, hg, hg'⟩, hshort, hmod',
      hlen⟩ : ∃ sidx didx s rest,
      (if 1 < 3 * sextets.length / 4 then
        convertGroups (3 * sextets.length / 4) 0 0 ⟨out, []⟩ else pure (0, 0, ⟨out, []⟩)) =
        .ok (sidx, didx, s) ∧
      AtIndex out sextets junk sidx didx rest s ∧ rest.length < 4 ∧ rest.length % 4 ≠ 1 ∧
      3 * sextets.length / 4 = didx + 3 * rest.length / 4 := by
    by_cases hlong : 1 < 3 * sextets.length / 4
    · rw [if_pos hlong]
      exact convertGroups_spec hindex hmod (Nat.zero_add _).symm
    · rw [if_neg hlong]
      exact ⟨0, 0, _, sextets, rfl, hindex, by omega, hmod, (Nat.zero_add _).symm⟩
  rw [convert, hgroups]
  dsimp only [bind, Except.bind]
  match rest with
  | _ :: _ :: _ :: _ :: _ =>
    simp only [length_cons] at hshort
    omega
  | [_] => exact absurd rfl hmod'
  | [] =>
    rw [convertedBytes, append_nil] at htext
    · rw [← htext]
      rw [length_nil] at hlen
      rw [if_neg (by omega)]
      dsimp only [pure, Except.pure]
      rw [if_neg (by omega)]
      exact ⟨s, rfl, h⟩
    all_goals simp
  | [a, b] =>
    obtain ⟨s', heq, h'⟩ := h.assign (i := sidx) (j := sidx + 1) (by omega) (by omega)
      (getElem?_of_drop hdrop 0) (getElem?_of_drop hdrop 1) firstByte
    simp only [length_cons, length_nil] at hlen
    rw [if_pos (by omega), ← hdidx, heq]
    dsimp only
    rw [if_neg (by omega), ← htext]
    exact ⟨s', rfl, h'⟩
  | [a, b, c] =>
    have hb := getElem?_of_drop hdrop 1
    obtain ⟨s1, heq1, h1⟩ := h.assign (i := sidx) (j := sidx + 1) (by omega) (by omega)
      (getElem?_of_drop hdrop 0) hb firstByte
    obtain ⟨s2, heq2, h2⟩ := h1.assign (i := sidx + 1) (j := sidx + 2) (by simp; omega)
      (by simp; omega) hb (getElem?_of_drop hdrop 2) secondByte
    have hdone : (done ++ [firstByte a b]).length = done.length + 1 := by simp
    rw [hdone] at heq2
    simp only [length_cons, length_nil] at hlen
    rw [if_pos (by omega), ← hdidx, heq1]
    dsimp only
    rw [if_pos (by omega), heq2, ← htext]
    refine ⟨s2, rfl, ?_⟩
    rwa [append_assoc] at h2

end Conversion

section Decoding

variable {isWhiteSpaceNeutral : UInt16 → Bool} {policy : DecodePolicy} {decodeMap : List UInt8}
  {uninitialized : ℕ → UInt8} {text chars : List UInt16} {k : ℕ}

/-- The output is the bytes that the values of the characters begin with. -/
structure IsOutput (decodeMap : List UInt8) (chars : List UInt16) (out : List UInt8) : Prop where
  length_eq : out.length = 3 * chars.length / 4
  bytes_eq : bytes out <+: digits (chars.map (decodeCharacter decodeMap))

theorem Splits.countP_eq (h : Splits isWhiteSpaceNeutral policy decodeMap text chars k) :
    text.countP (IsAlphabet decodeMap ·) = chars.length := by
  have hkept : text.countP (IsAlphabet decodeMap ·) =
      (text.filter fun ch => !ignores isWhiteSpaceNeutral policy decodeMap ch).countP
        (IsAlphabet decodeMap ·) := by
    rw [countP_filter]
    refine countP_congr fun ch _ => ?_
    by_cases hch : IsAlphabet decodeMap ch
    · simp [hch, not_ignores_of_alphabet hch]
    · simp [hch]
  have hchars : chars.countP (IsAlphabet decodeMap ·) = chars.length :=
    countP_eq_length.mpr fun ch hch => decide_eq_true (h.alphabet ch hch)
  have hpadding : (List.replicate k Base64.equalsSign.toUInt16).countP (IsAlphabet decodeMap ·) =
      0 := by
    refine countP_eq_zero.mpr fun ch hch => ?_
    rw [eq_of_mem_replicate hch, decide_eq_true_eq]
    exact fun halph => halph.1 rfl
  rw [hkept, h.text_eq, countP_append, hchars, hpadding, Nat.add_zero]

/-- What the decoder returns for a text that can be divided, and that it returns false for any
other. -/
theorem base64DecodeInternal_spec (hcount : text.countP (IsAlphabet decodeMap ·) < 2 ^ 32 - 2) :
    ∃ result, base64DecodeInternal isWhiteSpaceNeutral policy decodeMap uninitialized text =
        .ok result ∧
      ReadsUnwritten result.accesses ∧
      (result.succeeded = true → ∃ chars k, IsBase64 isWhiteSpaceNeutral policy decodeMap text
        chars k ∧ (chars = [] → k = 0)) ∧
      ∀ chars k, IsBase64 isWhiteSpaceNeutral policy decodeMap text chars k →
        (chars = [] → k = 0) → result.succeeded = true ∧
          (chars ≠ [] ∨ text = [] → IsOutput decodeMap chars result.out) := by
  rw [base64DecodeInternal]
  by_cases hempty : text.length = 0
  · obtain rfl := eq_nil_of_length_eq_zero hempty
    refine ⟨⟨true, [], []⟩, rfl, trivial, fun _ => ⟨[], 0, ⟨.nil, by decide, fun _ => .inl rfl⟩,
      fun _ => rfl⟩, fun chars k h _ => ⟨rfl, fun _ => ?_⟩⟩
    obtain ⟨rfl, -⟩ := h.toSplits.unique .nil
    exact ⟨rfl, nil_prefix⟩
  rw [if_neg hempty]
  let start : Digits := ⟨grow uninitialized text.length, 0, 0⟩
  have hroom : start.outLength + text.length ≤ start.out.length := by simp [start, grow]
  obtain ⟨r, hr, hres⟩ : ∃ r,
      scanCharacters isWhiteSpaceNeutral policy decodeMap text.length text start = .ok r ∧
      ScanResult isWhiteSpaceNeutral policy decodeMap text.length start text r :=
    scanCharacters_spec hroom
  have hcontinue : ∀ chars k, IsBase64 isWhiteSpaceNeutral policy decodeMap text chars k →
      Continues isWhiteSpaceNeutral policy decodeMap text.length start text chars k :=
    fun chars k h => ⟨h.toSplits, fun hne => absurd rfl hne,
      fun hpolicy => by simpa [start] using h.padding hpolicy⟩
  dsimp only [bind, Except.bind]
  rw [hr]
  cases r with
  | none => exact ⟨_, rfl, trivial, by rintro ⟨⟩, fun chars k h => absurd (hcontinue chars k h)
      (hres chars k)⟩
  | some s =>
    obtain ⟨chars, k, hcont, hscanned⟩ := hres
    have hlen : s.outLength = chars.length := hscanned.outLength_eq.trans (Nat.zero_add _)
    have hequals : s.equalsSignCount = k := hscanned.count_eq.trans (Nat.zero_add _)
    have hunique : ∀ chars' k',
        IsBase64 isWhiteSpaceNeutral policy decodeMap text chars' k' → chars' = chars ∧ k' = k :=
      fun chars' k' h => h.toSplits.unique hcont.toSplits
    have hpadding : AllowsPadding policy text.length k := fun hpolicy => by
      simpa [start] using hcont.padding hpolicy
    dsimp only
    rw [hlen, hequals]
    by_cases hnone : chars.length = 0
    · obtain rfl := eq_nil_of_length_eq_zero hnone
      refine ⟨_, rfl, trivial, fun h => ?_, fun chars' k' h hk => ?_⟩
      · have hk : k = 0 := by simpa using h
        exact ⟨[], k, ⟨hcont.toSplits, by decide, hpadding⟩, fun _ => hk⟩
      · obtain ⟨rfl, rfl⟩ := hunique chars' k' h
        refine ⟨by simpa using hk rfl, fun hor => ?_⟩
        rcases hor with hne | rfl
        · exact absurd rfl hne
        · exact absurd rfl hempty
    rw [if_neg hnone]
    by_cases hmod : chars.length % 4 = 1
    · rw [if_pos hmod]
      refine ⟨_, rfl, trivial, by rintro ⟨⟩, fun chars' k' h => ?_⟩
      obtain ⟨rfl, rfl⟩ := hunique chars' k' h
      exact absurd hmod h.mod_ne
    rw [if_neg hmod]
    have hcount' := hcont.toSplits.countP_eq
    have hbytes : chars.length - (chars.length + 3) % 2 ^ 32 / 4 = 3 * chars.length / 4 := by
      rw [Nat.mod_eq_of_lt (by omega)]
      omega
    rw [hbytes, if_neg (by omega)]
    have htake := hscanned.take_eq
    rw [hlen] at htake
    have hout : s.out = chars.map (decodeCharacter decodeMap) ++ s.out.drop chars.length := by
      calc s.out = s.out.take chars.length ++ s.out.drop chars.length := (take_append_drop _ _).symm
        _ = _ := by rw [htake]; rfl
    have hmap : (chars.map (decodeCharacter decodeMap)).length = chars.length := length_map _
    obtain ⟨s', hconvert, hconv⟩ := convert_spec hout (by rwa [hmap])
    rw [hmap] at hconvert
    rw [hconvert]
    have hlen' := length_convertedBytes (chars.map (decodeCharacter decodeMap))
    rw [hmap] at hlen'
    have hfinal : (if 3 * chars.length / 4 < s'.out.length then
        s'.out.take (3 * chars.length / 4) else s'.out) =
        convertedBytes (chars.map (decodeCharacter decodeMap)) := by
      have hfront := hconv.take_eq
      rw [hlen'] at hfront
      split
      · exact hfront
      · rename_i hge
        rwa [take_of_length_le (Nat.not_lt.mp hge)] at hfront
    refine ⟨_, rfl, hconv.reads, fun _ => ⟨chars, k, ⟨hcont.toSplits, hmod, hpadding⟩,
      fun hnil => absurd (congrArg List.length hnil) hnone⟩, fun chars' k' h _ => ⟨rfl, fun _ => ?_⟩⟩
    obtain ⟨rfl, rfl⟩ := hunique chars' k' h
    rw [hfinal]
    exact ⟨hlen', bytes_convertedBytes _⟩

end Decoding

end WebKit.WTF.Base64
