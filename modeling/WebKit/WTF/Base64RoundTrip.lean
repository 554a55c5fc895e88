import WebKit.WTF.Base64Decoding

/-!
# What was encoded is decoded

The alphabets of the encoders are those of the decoders, so a text is divided into the characters
of the sextets that were written and their padding, and the bits of the data begin those of the
sextets. A decoder accepts what it is meant to accept. Two corners remain: a text without a
character of the alphabet, which leaves `out` as `grow` made it, and texts of `2 ^ 32 - 2`
characters and more, where the size of the output wraps around.
-/

namespace WebKit.WTF.Base64

open Bits List Base64

/-- The decoder reads what the encoder writes. -/
structure Inverse (encodeMap decodeMap : List UInt8) : Prop where
  decode_encode : ∀ n < 64, decodeCharacter decodeMap
    (encodeCharacter encodeMap (UInt8.ofNat n)).toUInt16 = UInt8.ofNat n
  ne_equalsSign : ∀ n < 64, encodeCharacter encodeMap (UInt8.ofNat n) ≠ equalsSign
  ne_lineFeed : ∀ n < 256, encodeCharacter encodeMap (UInt8.ofNat n) ≠ lineFeed
  lineFeed : decodeCharacter decodeMap lineFeed.toUInt16 = nonAlphabet

theorem base64_inverse : Inverse base64EncMap base64DecMap :=
  ⟨by decide +kernel, by decide +kernel, by decide +kernel, by decide +kernel⟩

theorem base64URL_inverse : Inverse base64URLEncMap base64URLDecMap :=
  ⟨by decide +kernel, by decide +kernel, by decide +kernel, by decide +kernel⟩

theorem sextets_lt (data : List UInt8) : ∀ i ∈ sextets data, i.toNat < 64 := by
  have hmask : ∀ a : UInt8, (a &&& 0o77).toNat < 64 := fun a => by
    exact Nat.lt_succ_of_le Nat.and_le_right
  have hor : ∀ a b : UInt8, a.toNat < 2 ^ 6 → b.toNat < 2 ^ 6 → (a ||| b).toNat < 64 :=
    fun a b ha hb => by
      exact Nat.or_lt_two_pow ha hb
  have hsmall : ∀ a m : UInt8, m.toNat < 2 ^ 6 → (a &&& m).toNat < 2 ^ 6 := fun a m hm => by
    exact Nat.lt_of_le_of_lt Nat.and_le_right hm
  have hsnd : ∀ a b, (secondSextet a b).toNat < 64 := fun a b =>
    hor _ _ (hsmall _ _ (by decide)) (hsmall _ _ (by decide))
  have hthird : ∀ a b, (thirdSextet a b).toNat < 64 := fun a b =>
    hor _ _ (hsmall _ _ (by decide)) (hsmall _ _ (by decide))
  fun_induction sextets data with
  | case1 => simp
  | case2 a =>
    intro i hi
    simp only [mem_cons, not_mem_nil, or_false] at hi
    rcases hi with rfl | rfl <;> exact hmask _
  | case3 a b =>
    intro i hi
    simp only [mem_cons, not_mem_nil, or_false] at hi
    rcases hi with rfl | rfl | rfl
    · exact hmask _
    · exact hsnd a b
    · exact hmask _
  | case4 a b c rest ih =>
    intro i hi
    simp only [mem_cons] at hi
    rcases hi with rfl | rfl | rfl | rfl | hi
    · exact hmask _
    · exact hsnd a b
    · exact hthird b c
    · exact hmask _
    · exact ih i hi

section RoundTrip

variable {encodeMap decodeMap data text : List UInt8} {isWhiteSpaceNeutral : UInt16 → Bool}
  {encodePolicy : EncodePolicy} {policy : DecodePolicy} {uninitialized : ℕ → UInt8} {i : UInt8}

theorem Inverse.ne_lineFeed' (h : Inverse encodeMap decodeMap) (i : UInt8) :
    encodeCharacter encodeMap i ≠ Base64.lineFeed := by
  have hi := h.ne_lineFeed i.toNat i.toNat_lt
  rwa [UInt8.ofNat_toNat] at hi

theorem Inverse.decode_encode' (h : Inverse encodeMap decodeMap) (hi : i.toNat < 64) :
    decodeCharacter decodeMap (encodeCharacter encodeMap i).toUInt16 = i := by
  have heq := h.decode_encode i.toNat hi
  rwa [UInt8.ofNat_toNat] at heq

theorem toUInt16_inj {a b : UInt8} (h : a.toUInt16 = b.toUInt16) : a = b := by
  have hnat := congrArg UInt16.toNat h
  exact UInt8.toNat_inj.mp hnat

theorem Inverse.isAlphabet (h : Inverse encodeMap decodeMap) (hi : i.toNat < 64) :
    IsAlphabet decodeMap (encodeCharacter encodeMap i).toUInt16 := by
  refine ⟨fun heq => ?_, fun heq => ?_⟩
  · have hne := h.ne_equalsSign i.toNat hi
    rw [UInt8.ofNat_toNat] at hne
    exact hne (toUInt16_inj heq)
  · rw [h.decode_encode' hi] at heq
    rw [heq] at hi
    exact absurd hi (by decide)

theorem EncodedText.isBase64 (h : EncodedText encodeMap data encodePolicy text)
    (hinverse : Inverse encodeMap decodeMap)
    (hlines : encodePolicy = .insertLFs →
      policy = .ignoreWhitespace ∨ policy = .ignoreInvalidCharacters) :
    ∃ k, IsBase64 isWhiteSpaceNeutral policy decodeMap (text.map UInt8.toUInt16)
        (((sextets data).map (encodeCharacter encodeMap)).map UInt8.toUInt16) k ∧
      (data = [] → k = 0) := by
  obtain ⟨k, htext, hurl, hpadding, hnil⟩ := h.text_eq
  have hignores : ∀ c ∈ text, (!ignores isWhiteSpaceNeutral policy decodeMap c.toUInt16) =
      decide (c ≠ lineFeed) := by
    intro c hc
    by_cases hline : c = lineFeed
    · subst hline
      have hins : encodePolicy = .insertLFs := by
        by_contra hne
        exact h.not_mem hne hc
      have hspace : isSpaceOrNewline isWhiteSpaceNeutral lineFeed.toUInt16 = true := rfl
      have hnot : lineFeed.toUInt16 ≠ equalsSign.toUInt16 := by decide
      rcases hlines hins with rfl | rfl <;> simp [ignores, hinverse.lineFeed, hspace, hnot]
    · have hmem : c ∈ text.filter (· ≠ lineFeed) := mem_filter.mpr ⟨hc, by simpa using hline⟩
      rw [htext, mem_append, mem_map] at hmem
      have hkept : ignores isWhiteSpaceNeutral policy decodeMap c.toUInt16 = false := by
        rcases hmem with ⟨i, hi, rfl⟩ | hpad
        · exact not_ignores_of_alphabet (hinverse.isAlphabet (sextets_lt data i hi))
        · rw [eq_of_mem_replicate hpad]
          exact not_ignores_equalsSign
      rw [hkept]
      simpa using hline
  refine ⟨k, ⟨⟨?_, ?_⟩, ?_, ?_⟩, hnil⟩
  · rw [filter_map]
    have hcongr : text.filter ((fun ch => !ignores isWhiteSpaceNeutral policy decodeMap ch) ∘
        UInt8.toUInt16) = text.filter (· ≠ lineFeed) := filter_congr hignores
    rw [hcongr, htext, map_append, map_replicate]
  · intro ch hch
    simp only [mem_map] at hch
    obtain ⟨c, ⟨i, hi, rfl⟩, rfl⟩ := hch
    exact hinverse.isAlphabet (sextets_lt data i hi)
  · rw [length_map, length_map, length_sextets]
    omega
  · intro hstrict
    cases encodePolicy with
    | urlPolicy => exact .inl (hurl rfl)
    | insertLFs => rcases hlines rfl with heq | heq <;> rw [heq] at hstrict <;> cases hstrict
    | doNotInsertLFs =>
      obtain ⟨hle, hmod⟩ := hpadding rfl
      by_cases hk : k = 0
      · exact .inl hk
      · rw [length_map]
        exact .inr ⟨hmod hk, hle⟩

/-- The decoder returns true and the data. -/
def Returns (x : Except Failure DecodeResult) (data : List UInt8) : Prop :=
  ∃ result, x = .ok result ∧ result.succeeded = true ∧ result.out = data

theorem roundTrips (hinverse : Inverse encodeMap decodeMap)
    (hlen : data.length ≤ maxInputBufferSize)
    (hlines : encodePolicy = .insertLFs →
      policy = .ignoreWhitespace ∨ policy = .ignoreInvalidCharacters) :
    ∃ text, base64EncodeInternal encodeMap data uninitialized encodePolicy = .ok text ∧
      Returns (base64DecodeInternal isWhiteSpaceNeutral policy decodeMap uninitialized
        (text.map UInt8.toUInt16)) data := by
  obtain ⟨text, heq, htext⟩ :=
    base64EncodeInternal_spec hinverse.ne_lineFeed' uninitialized encodePolicy hlen
  refine ⟨text, heq, ?_⟩
  obtain ⟨k, hbase64, hnil⟩ := @EncodedText.isBase64 _ _ _ _ isWhiteSpaceNeutral _ policy htext
    hinverse hlines
  have hlength := length_sextets data
  have hmax : maxInputBufferSize = 3179391370 := by decide
  have hcount : (text.map UInt8.toUInt16).countP (IsAlphabet decodeMap ·) < 2 ^ 32 - 2 := by
    rw [hbase64.toSplits.countP_eq, length_map, length_map, hlength]
    omega
  obtain ⟨result, hres, -, -, hdec⟩ :=
    @base64DecodeInternal_spec isWhiteSpaceNeutral policy decodeMap uninitialized _ hcount
  have hempty : ((sextets data).map (encodeCharacter encodeMap)).map UInt8.toUInt16 = [] →
      data = [] := by
    intro h
    have hzero := congrArg length h
    rw [length_map, length_map, hlength, length_nil] at hzero
    exact eq_nil_of_length_eq_zero (by omega)
  obtain ⟨hsucceeded, hout⟩ := hdec _ k hbase64 fun h => hnil (hempty h)
  refine ⟨result, hres, hsucceeded, ?_⟩
  obtain ⟨hsize, hbits⟩ : IsOutput decodeMap _ result.out := by
    apply hout
    by_cases hchars : ((sextets data).map (encodeCharacter encodeMap)).map UInt8.toUInt16 = []
    · obtain rfl := hempty hchars
      cases heq
      exact .inr rfl
    · exact .inl hchars
  have hvalues : (((sextets data).map (encodeCharacter encodeMap)).map UInt8.toUInt16).map
      (decodeCharacter decodeMap) = sextets data := by
    rw [map_map, map_map]
    exact (map_congr_left fun i hi =>
      hinverse.decode_encode' (sextets_lt data i hi)).trans (map_id _)
  rw [hvalues] at hbits
  rw [length_map, length_map, hlength] at hsize
  have hbound : ∀ l : List UInt8, ∀ x ∈ l.map UInt8.toNat, x < 2 ^ 8 := by
    intro l x hx
    obtain ⟨b, -, rfl⟩ := mem_map.mp hx
    exact b.toNat_lt
  have hsame := eq_of_stream_prefix (hbound result.out) (hbound data)
    (by rw [length_map, length_map]; omega) hbits (bytes_prefix_sextets data)
  exact map_injective_iff.mpr (fun a b h => UInt8.toNat_inj.mp h) hsame

end RoundTrip

section Wrapped

variable {s : Conversion} {d i j sidx didx outLength : ℕ}

theorem assign_fails (f : UInt8 → UInt8 → UInt8) (h : s.out.length ≤ i ∨ s.out.length ≤ j) :
    s.assign d i j f = .error .badAccess := by
  rw [Conversion.assign, load, load]
  cases hx : s.out[i]? with
  | none => rfl
  | some x =>
    cases hy : s.out[j]? with
    | none => rfl
    | some y =>
      have hi := (List.getElem?_eq_some_iff.mp hx).1
      have hj := (List.getElem?_eq_some_iff.mp hy).1
      omega

theorem assign_length (f : UInt8 → UInt8 → UInt8) : s.assign d i j f = .error .badAccess ∨
      ∃ s', s.assign d i j f = .ok s' ∧ s'.out.length = s.out.length := by
  rw [Conversion.assign, load, load]
  cases s.out[i]? with
  | none => exact .inl rfl
  | some x =>
    cases s.out[j]? with
    | none => exact .inl rfl
    | some y =>
      dsimp only [bind, Except.bind, pure, Except.pure]
      by_cases hd : d < s.out.length
      · rw [store_eq hd]
        exact .inr ⟨_, rfl, length_set⟩
      · exact .inl (by simp only [store, if_neg hd]; rfl)

theorem convertGroup_length : convertGroup sidx didx s = .error .badAccess ∨
      ∃ s', convertGroup sidx didx s = .ok s' ∧ s'.out.length = s.out.length ∧
        sidx + 3 < s.out.length := by
  rw [convertGroup]
  rcases assign_length (s := s) (d := didx) (i := sidx) (j := sidx + 1) firstByte with
    h | ⟨s1, h, hs1⟩
  · rw [h]
    exact .inl rfl
  rw [h]
  dsimp only [bind, Except.bind]
  rcases assign_length (s := s1) (d := didx + 1) (i := sidx + 1) (j := sidx + 2) secondByte with
    h | ⟨s2, h, hs2⟩
  · rw [h]
    exact .inl rfl
  rw [h]
  by_cases hle : s2.out.length ≤ sidx + 3
  · exact .inl (assign_fails thirdByte (.inr hle))
  · rcases assign_length (s := s2) (d := didx + 2) (i := sidx + 2) (j := sidx + 3) thirdByte with
      h | ⟨s3, h, hs3⟩
    · exact .inl h
    · exact .inr ⟨s3, h, by omega, by omega⟩

/-- The loop reads behind the end if the output is taken to be as long as the input. -/
theorem convertGroups_fails (hlen : s.out.length < 2 ^ 32)
    (hlarge : 2 ^ 32 - 2 ≤ outLength) {g : ℕ} (hg : g ≤ 2 ^ 30 - 1) :
    convertGroups outLength (4 * g) (3 * g) s = .error .badAccess := by
  induction hk : 2 ^ 30 - 1 - g generalizing g s with
  | zero =>
    rw [convertGroups, if_pos (by omega)]
    rcases @convertGroup_length s (4 * g) (3 * g) with h | ⟨_, -, -, hlt⟩
    · rw [h]
      rfl
    · omega
  | succ k ih =>
    rw [convertGroups, if_pos (by omega)]
    rcases @convertGroup_length s (4 * g) (3 * g) with h | ⟨s', h, hs', -⟩
    · rw [h]
      rfl
    · rw [h]
      have hnext := @ih s' (by omega) (g + 1) (by omega) (by omega)
      exact hnext

theorem base64DecodeInternal_fails {isWhiteSpaceNeutral : UInt16 → Bool} {policy : DecodePolicy}
    {decodeMap : List UInt8} (uninitialized : ℕ → UInt8) {text chars : List UInt16} {k : ℕ}
    (hlen : text.length < 2 ^ 32)
    (h : IsBase64 isWhiteSpaceNeutral policy decodeMap text chars k)
    (hlarge : 2 ^ 32 - 2 ≤ chars.length) :
    base64DecodeInternal isWhiteSpaceNeutral policy decodeMap uninitialized text =
      .error .badAccess := by
  have hcount := h.toSplits.countP_eq
  have hle : text.countP (IsAlphabet decodeMap ·) ≤ text.length := countP_le_length
  let start : Digits := ⟨grow uninitialized text.length, 0, 0⟩
  have hroom : start.outLength + text.length ≤ start.out.length := by simp [start, grow]
  obtain ⟨r, hr, hres⟩ : ∃ r,
      scanCharacters isWhiteSpaceNeutral policy decodeMap text.length text start = .ok r ∧
      ScanResult isWhiteSpaceNeutral policy decodeMap text.length start text r :=
    scanCharacters_spec hroom
  rw [base64DecodeInternal, if_neg (by omega)]
  dsimp only [bind, Except.bind]
  rw [hr]
  cases r with
  | none =>
    exact absurd ⟨h.toSplits, fun hne => absurd rfl hne, fun hpolicy => by
      simpa [start] using h.padding hpolicy⟩ (hres chars k)
  | some s =>
    obtain ⟨chars', k', hcont, hscanned⟩ := hres
    obtain ⟨rfl, rfl⟩ := hcont.toSplits.unique h.toSplits
    have houtLength : s.outLength = chars'.length := hscanned.outLength_eq.trans (Nat.zero_add _)
    have hout : s.out.length = text.length := by
      rw [hscanned.length_eq]
      simp [start, grow]
    have hwrapped : chars'.length - (chars'.length + 3) % 2 ^ 32 / 4 = chars'.length := by omega
    have hmod := h.mod_ne
    have hfails := @convertGroups_fails ⟨s.out, []⟩ chars'.length (by dsimp only; omega) hlarge 0
      (Nat.zero_le _)
    dsimp only
    rw [houtLength, if_neg (by omega), if_neg hmod, hwrapped, if_neg (by omega), convert,
      if_pos (by omega), hfails]
    rfl

end Wrapped

/-- The decoder accepts the texts that it is meant to accept, and returns the bytes that the
sextets begin with; nothing is read after it was written. -/
def Decodes (isWhiteSpaceNeutral : UInt16 → Bool) (policy : DecodePolicy) (decodeMap : List UInt8)
    (text : List UInt16) (x : Except Failure DecodeResult) : Prop :=
  ∃ result, x = .ok result ∧ (result.succeeded = true ↔ ∃ chars k,
      IsBase64 isWhiteSpaceNeutral policy decodeMap text chars k ∧ (chars = [] → k = 0)) ∧
    (∀ chars k, IsBase64 isWhiteSpaceNeutral policy decodeMap text chars k →
      result.succeeded = true → chars ≠ [] ∨ text = [] → IsOutput decodeMap chars result.out) ∧
    ReadsUnwritten result.accesses

theorem decodes {isWhiteSpaceNeutral : UInt16 → Bool} {policy : DecodePolicy}
    {decodeMap : List UInt8} (uninitialized : ℕ → UInt8) {text : List UInt16}
    (hcount : text.countP (IsAlphabet decodeMap ·) < 2 ^ 32 - 2) :
    Decodes isWhiteSpaceNeutral policy decodeMap text
      (base64DecodeInternal isWhiteSpaceNeutral policy decodeMap uninitialized text) := by
  obtain ⟨result, heq, hreads, hsound, hcompl⟩ :=
    @base64DecodeInternal_spec isWhiteSpaceNeutral policy decodeMap uninitialized text hcount
  refine ⟨result, heq, ⟨hsound, fun ⟨chars, k, h, hk⟩ => (hcompl chars k h hk).1⟩,
    fun chars k h hsucceeded hne => ?_, hreads⟩
  obtain ⟨chars', k', h', hk'⟩ := hsound hsucceeded
  obtain ⟨rfl, rfl⟩ := h.toSplits.unique h'.toSplits
  exact (hcompl chars k h hk').2 hne

/-- What was encoded is decoded, and the decoders accept texts of their alphabet. -/
theorem base64_round_trips_and_decodes (isWhiteSpaceNeutral : UInt16 → Bool)
    (uninitialized : ℕ → UInt8) :
    (∀ data : List UInt8, data.length ≤ maxInputBufferSize →
      (∀ encodePolicy policy, (encodePolicy = .insertLFs →
          policy = .ignoreWhitespace ∨ policy = .ignoreInvalidCharacters) →
        ∃ text, base64Encode uninitialized data encodePolicy = .ok text ∧
          Returns (base64Decode isWhiteSpaceNeutral policy uninitialized
            (text.map UInt8.toUInt16)) data) ∧
      ∃ text, base64URLEncode uninitialized data = .ok text ∧
        Returns (base64URLDecode isWhiteSpaceNeutral uninitialized (text.map UInt8.toUInt16))
          data) ∧
    (∀ policy text, text.countP (IsAlphabet base64DecMap ·) < 2 ^ 32 - 2 →
      Decodes isWhiteSpaceNeutral policy base64DecMap text
        (base64Decode isWhiteSpaceNeutral policy uninitialized text)) ∧
    ∀ text, text.countP (IsAlphabet base64URLDecMap ·) < 2 ^ 32 - 2 →
      Decodes isWhiteSpaceNeutral .failOnInvalidCharacter base64URLDecMap text
        (base64URLDecode isWhiteSpaceNeutral uninitialized text) := by
  refine ⟨fun data hlen => ⟨fun encodePolicy policy hlines => ?_, ?_⟩,
    fun policy text hcount => decodes uninitialized hcount,
    fun text hcount => decodes uninitialized hcount⟩
  · exact roundTrips base64_inverse hlen hlines
  · exact roundTrips base64URL_inverse hlen nofun

/-- The bytes of `Man` are encoded and decoded, and `TWFu` is a text. -/
theorem base64_round_trips_and_decodes_man :
    (∃ text, base64Encode (fun _ => 0) [0x4D, 0x61, 0x6E] .doNotInsertLFs = .ok text ∧
      Returns (base64Decode (fun _ => false) .failOnInvalidCharacterOrExcessPadding (fun _ => 0)
        (text.map UInt8.toUInt16)) [0x4D, 0x61, 0x6E]) ∧
    Decodes (fun _ => false) .ignoreWhitespace base64DecMap [0x54, 0x57, 0x46, 0x75]
      (base64Decode (fun _ => false) .ignoreWhitespace (fun _ => 0) [0x54, 0x57, 0x46, 0x75]) :=
  have h := base64_round_trips_and_decodes (fun _ => false) fun _ => 0
  ⟨(h.1 [0x4D, 0x61, 0x6E] (by decide +kernel)).1 .doNotInsertLFs _ nofun,
    h.2.1 .ignoreWhitespace [0x54, 0x57, 0x46, 0x75] (by decide +kernel)⟩

/-- An equals sign alone is not accepted; a space alone is, and `out` keeps an element; as many
characters as the output has room for are not decoded. -/
theorem not_base64_decodes : (¬ ∀ policy text, ∃ result,
      base64Decode (fun _ => false) policy (fun _ => 0) text = .ok result ∧
        (result.succeeded = true ↔ ∃ chars k,
          IsBase64 (fun _ => false) policy base64DecMap text chars k)) ∧
    (¬ ∀ policy text result chars k,
      base64Decode (fun _ => false) policy (fun _ => 0) text = .ok result →
        result.succeeded = true → IsBase64 (fun _ => false) policy base64DecMap text chars k →
        IsOutput base64DecMap chars result.out) ∧
    ¬ ∀ policy (text : List UInt16), text.length < 2 ^ 32 → ∃ result,
      base64Decode (fun _ => false) policy (fun _ => 0) text = .ok result := by
  refine ⟨fun h => ?_, fun h => ?_, fun h => ?_⟩
  · obtain ⟨result, heq, hiff⟩ := h .ignoreInvalidCharacters [0x3D]
    cases heq
    have hfalse := hiff.mpr ⟨[], 1, ⟨by decide +kernel, by simp⟩, by decide, nofun⟩
    cases hfalse
  · have hout := h .ignoreWhitespace [0x20] ⟨true, [0], []⟩ [] 0 (by decide +kernel) rfl
      ⟨⟨by decide +kernel, by simp⟩, by decide, nofun⟩
    exact absurd hout.length_eq (by decide +kernel)
  · have hlength : (List.replicate (2 ^ 32 - 2) (0x41 : UInt16)).length = 2 ^ 32 - 2 :=
      length_replicate
    obtain ⟨result, heq⟩ := h .failOnInvalidCharacter (List.replicate (2 ^ 32 - 2) 0x41) (by omega)
    have hkept : ignores (fun _ => false) .failOnInvalidCharacter base64DecMap 0x41 = false := by
      decide +kernel
    have hbase64 : IsBase64 (fun _ => false) .failOnInvalidCharacter base64DecMap
        (List.replicate (2 ^ 32 - 2) 0x41) (List.replicate (2 ^ 32 - 2) 0x41) 0 := by
      refine ⟨⟨?_, fun ch hch => ?_⟩, by omega, nofun⟩
      · rw [filter_replicate, if_pos (by rw [hkept]; rfl), replicate_zero, append_nil]
      · rw [eq_of_mem_replicate hch]
        exact ⟨by decide +kernel, by decide +kernel⟩
    have hfails := base64DecodeInternal_fails (fun _ => 0) (by omega) hbase64 (Nat.le_of_eq hlength.symm)
    rw [base64Decode, hfails] at heq
    cases heq

end WebKit.WTF.Base64
