import Mathlib.Data.Fin.VecNotation
import WebKit.Bits.Bytes
import WebKit.WebSockets.WebSocketFrame

/-!
# The frames on the wire

A frame on the wire is its first byte, its length in the shortest form, the masking key, and the
payload under the mask (`WireFrame.bytes`). `parseFrame` accepts just the buffers that begin with
one (`parseFrame_bytes`, `parseFrame_cases`), and waits on what could become one
(`parseFrame_take`).
-/

namespace WebKit.WebSockets

open List Bits

open WTF (Failure load store load_eq store_eq)

/-! ## The wire -/

/-- The payload under a mask. -/
def mask (maskingKey : Fin 4 → UInt8) (payload : List UInt8) : List UInt8 :=
  payload.mapIdx fun i byte => byte ^^^ maskingKey (Fin.ofNat 4 i)

/-- The seven bits of a length in the shortest form. -/
def lengthField (n : ℕ) : UInt8 :=
  if n ≤ 125 then UInt8.ofNat n else if n ≤ 0xFFFF then 126 else 127

/-- What extends a length in the shortest form. -/
def extendedLength (n : ℕ) : List UInt8 :=
  if n ≤ 125 then [] else if n ≤ 0xFFFF then (toBytes 2 n).reverse
  else (toBytes 8 n).reverse

def maskField (masked : Bool) : UInt8 := if masked then maskBit else 0

def header (firstByte : UInt8) (masked : Bool) (n : ℕ) : List UInt8 :=
  firstByte :: (maskField masked ||| lengthField n) :: extendedLength n

structure WireFrame where
  firstByte : UInt8
  maskingKey : Option (Fin 4 → UInt8)
  payload : List UInt8

namespace WireFrame

variable (wire : WireFrame)

def keyBytes : List UInt8 := (wire.maskingKey.map List.ofFn).getD []

/-- What stands before the payload. -/
def front : List UInt8 :=
  header wire.firstByte wire.maskingKey.isSome wire.payload.length ++ wire.keyBytes

/-- The payload as it is sent. -/
def sent : List UInt8 := (wire.maskingKey.map (mask · wire.payload)).getD wire.payload

def bytes : List UInt8 := wire.front ++ wire.sent

/-- The frame that is parsed; bytes may follow the payload in the buffer. -/
def frame (suffix : List UInt8) : WebSocketFrame where
  opCode := wire.firstByte &&& opCodeMask
  final := wire.firstByte &&& finalBit != 0
  compress := wire.firstByte &&& compressBit != 0
  reserved2 := wire.firstByte &&& reserved2Bit != 0
  reserved3 := wire.firstByte &&& reserved3Bit != 0
  masked := wire.maskingKey.isSome
  payload := wire.payload ++ suffix
  payloadLength := UInt64.ofNat wire.payload.length

end WireFrame

variable {maskingKey : Fin 4 → UInt8} {payload data pre rest suffix bytes : List UInt8}
  {byte byte' firstByte : UInt8} {masked : Bool} {i n k : ℕ} {state : ParseState}

theorem load_middle (h : i = pre.length) : load (pre ++ byte :: rest) i = .ok byte := by
  subst h
  rw [load_eq (by simp)]
  simp

theorem store_middle (h : i = pre.length) :
    store (pre ++ byte :: rest) i byte' = .ok (pre ++ byte' :: rest) := by
  subst h
  rw [store_eq (by simp)]
  simp

theorem load_of_getElem? (h : pre[i]? = some byte) : load (pre ++ rest) i = .ok byte := by
  obtain ⟨hi, -⟩ := List.getElem?_eq_some_iff.mp h
  rw [load, List.getElem?_append_left hi, h]
  rfl

theorem length_mask : (mask maskingKey payload).length = payload.length := length_mapIdx

theorem mask_mask : mask maskingKey (mask maskingKey payload) = payload := by
  apply ext_getElem
  · rw [length_mask, length_mask]
  · intro i h1 h2
    simp only [mask, getElem_mapIdx, UInt8.xor_assoc, UInt8.xor_self, UInt8.xor_zero]

theorem mask_take_succ (h : k < payload.length) : mask maskingKey (payload.take (k + 1)) =
      mask maskingKey (payload.take k) ++ [payload[k] ^^^ maskingKey (Fin.ofNat 4 k)] := by
  unfold mask
  rw [take_succ_eq_append_getElem h, mapIdx_concat, length_take_of_le h.le]

theorem maskPayload_eq {maskingKeyStart payloadStart payloadLength : ℕ}
    (hkey : ∀ i : Fin 4, pre[maskingKeyStart + i.val]? = some (maskingKey i))
    (hstart : payloadStart = pre.length) (hlen : payloadLength = payload.length) :
    maskPayload (pre ++ payload ++ suffix) maskingKeyStart payloadStart payloadLength =
      .ok (pre ++ mask maskingKey payload ++ suffix) := by
  subst hstart hlen
  have hloop : ∀ k ≤ payload.length,
      maskPayload (pre ++ payload ++ suffix) maskingKeyStart pre.length k =
        .ok (pre ++ mask maskingKey (payload.take k) ++ (payload.drop k ++ suffix)) := by
    intro k hk
    induction k with
    | zero =>
      rw [take_zero, drop_zero, ← append_assoc]
      simp only [mask, mapIdx_nil, append_nil]
      rfl
    | succ k ih =>
      have hlt : k < payload.length := hk
      have hdone : pre.length + k = (pre ++ mask maskingKey (payload.take k)).length := by
        rw [length_append, length_mask, length_take_of_le hlt.le]
      have hkeyByte : load (pre ++ mask maskingKey (payload.take k) ++
          payload[k] :: (payload.drop (k + 1) ++ suffix)) (maskingKeyStart + k % 4) =
            .ok (maskingKey (Fin.ofNat 4 k)) := by
        rw [append_assoc]
        exact load_of_getElem? (hkey (Fin.ofNat 4 k))
      unfold maskPayload at ih ⊢
      rw [range_succ, foldlM_append, ih hlt.le, drop_eq_getElem_cons hlt, cons_append]
      dsimp only [bind, Except.bind]
      rw [foldlM_cons]
      rw [load_middle hdone]
      rw [maskingKeyWidthInBytes, hkeyByte]
      dsimp only
      rw [store_middle hdone, mask_take_succ hlt]
      simp only [foldlM_nil, append_assoc, cons_append, nil_append]
      rfl
  have h := hloop payload.length le_rfl
  rwa [take_length, drop_length, nil_append] at h

theorem toNat_push {number : UInt64} (h : number.toNat < 2 ^ 56) (byte : UInt8) :
    (number <<< 8 ||| byte.toUInt64).toNat = number.toNat * 256 + byte.toNat := by
  have hbyte := byte.toNat_lt
  have hshift : number.toNat <<< 8 < 2 ^ 64 := by
    omega
  have hor := Nat.shiftLeft_add_eq_or_of_lt (i := 8) hbyte number.toNat
  change number.toNat <<< 8 % 2 ^ 64 ||| byte.toNat = _
  rw [Nat.mod_eq_of_lt hshift, ← hor, Nat.shiftLeft_eq]

theorem readPayloadLength_eq {number : UInt64} {p : ℕ} (hp : p = pre.length)
    (hsmall : number.toNat < 256 ^ k) (hk : k + bytes.length ≤ 8) :
    readPayloadLength (pre ++ bytes ++ suffix) bytes.length p number =
      .ok (UInt64.ofNat (number.toNat * 256 ^ bytes.length + ofBytes bytes.reverse),
        p + bytes.length) := by
  induction bytes generalizing pre number p k with
  | nil =>
    simp only [length_nil, pow_zero, mul_one, reverse_nil, ofBytes, add_zero, UInt64.ofNat_toNat]
    rfl
  | cons byte bytes ih =>
    rw [length_cons] at hk
    have hpow : 256 ^ k ≤ 2 ^ 56 := by
      calc 256 ^ k ≤ 256 ^ 7 := Nat.pow_le_pow_right (by decide) (by omega)
        _ = 2 ^ 56 := by decide
    have hpush := toNat_push (hsmall.trans_le hpow) byte
    have hnext : (number <<< 8 ||| byte.toUInt64).toNat < 256 ^ (k + 1) := by
      have hbyte := byte.toNat_lt
      omega
    have hsplit : pre ++ byte :: bytes ++ suffix = (pre ++ [byte]) ++ bytes ++ suffix := by simp
    rw [length_cons, readPayloadLength, append_assoc, cons_append, load_middle hp]
    dsimp only [bind, Except.bind]
    rw [← cons_append, ← append_assoc, hsplit,
      ih (k := k + 1) (by rw [hp]; simp) hnext (by omega), hpush, reverse_cons,
      ofBytes_append, length_reverse]
    simp only [ofBytes]
    congr 2
    · congr 1
      ring
    · omega

theorem extendedPayloadLength_eq (k : ℕ) (remaining : UInt64) (bytes : List UInt8) :
    extendedPayloadLength k remaining bytes = (toBytes k remaining.toNat).reverse ++ bytes := by
  induction k generalizing remaining bytes with
  | zero => rfl
  | succ k ih =>
    have hbyte : (remaining &&& 0xFF).toUInt8 = UInt8.ofNat remaining.toNat := by
      apply UInt8.toNat_inj.mp
      rw [UInt64.toNat_toUInt8, UInt64.toNat_and, UInt8.toNat_ofNat']
      change (remaining.toNat &&& (2 ^ 8 - 1)) % 2 ^ 8 = _
      rw [Nat.and_two_pow_sub_one_eq_mod, Nat.mod_mod]
    have hshift : (remaining >>> 8).toNat = remaining.toNat / 256 := by
      exact Nat.shiftRight_eq_div_pow _ _
    rw [extendedPayloadLength, ih, hbyte, hshift, toBytes, reverse_cons, append_assoc,
      singleton_append]

/-- The width of the masking key. -/
def keyLength (masked : Bool) : ℕ := if masked then 4 else 0

def frameTooLarge (n : ℕ) : String :=
  "WebSocket frame length too large: " ++ toString n ++ " bytes"

theorem toNat_keyLength : (if masked then (4 : UInt64) else 0).toNat = keyLength masked := by
  cases masked <;> rfl

theorem large_iff (hn : n < 2 ^ 64) (maskingKeyLength : UInt64) :
    (UInt64.ofNat n > maxPayloadLength ∨
      UInt64.ofNat n + maskingKeyLength > 0xFFFFFFFFFFFFFFFF) ↔ 2 ^ 63 ≤ n := by
  have hsum : ¬ UInt64.ofNat n + maskingKeyLength > 0xFFFFFFFFFFFFFFFF := by
    rw [gt_iff_lt, UInt64.lt_iff_toNat_lt, not_lt]
    exact Nat.le_of_lt_succ (UInt64.toNat_lt _)
  rw [or_iff_left hsum, gt_iff_lt, UInt64.lt_iff_toNat_lt, UInt64.toNat_ofNat_of_lt' hn]
  change 2 ^ 63 - 1 < n ↔ _
  omega

theorem short_iff (hn : n < 2 ^ 63) (hk : k < 2 ^ 64) :
    UInt64.ofNat k < (if masked then 4 else 0) + UInt64.ofNat n ↔ k < keyLength masked + n := by
  have hle : keyLength masked ≤ 4 := by
    cases masked <;> decide
  rw [UInt64.lt_iff_toNat_lt, UInt64.toNat_ofNat_of_lt' hk, UInt64.toNat_add, toNat_keyLength,
    UInt64.toNat_ofNat_of_lt' (hn.trans (by decide)), Nat.mod_eq_of_lt (by omega)]

theorem parsePayload_large (hn : n < 2 ^ 64) (hlarge : 2 ^ 63 ≤ n) (p : ℕ) :
    parsePayload state firstByte masked p (UInt64.ofNat n) =
      .ok (.frameError, { state with errorString := frameTooLarge n }) := by
  rw [parsePayload, if_pos ((large_iff hn _).mpr hlarge), UInt64.toNat_ofNat_of_lt' hn]
  rfl

theorem parsePayload_short (hn : n < 2 ^ 63) (hstate : state.data = pre ++ rest)
    (hlen : state.data.length < 2 ^ 64) (hshort : rest.length < keyLength masked + n) :
    parsePayload state firstByte masked pre.length (UInt64.ofNat n) =
      .ok (.frameIncomplete, state) := by
  have hrest : state.data.length - pre.length = rest.length := by
    rw [hstate, length_append, Nat.add_sub_cancel_left]
  have hlt : rest.length < 2 ^ 64 := by omega
  rw [parsePayload, if_neg (by rw [large_iff (hn.trans (by decide))]; omega), hrest,
    if_pos ((short_iff hn hlt).mpr hshort)]
  rfl

theorem WireFrame.length_sent (wire : WireFrame) : wire.sent.length = wire.payload.length := by
  unfold WireFrame.sent
  cases wire.maskingKey with
  | none => rfl
  | some maskingKey => exact length_mask

theorem WireFrame.length_keyBytes (wire : WireFrame) :
    wire.keyBytes.length = keyLength wire.maskingKey.isSome := by
  unfold WireFrame.keyBytes
  cases wire.maskingKey with
  | none => rfl
  | some maskingKey => exact length_ofFn

theorem parsePayload_ok {wire : WireFrame} (hn : wire.payload.length < 2 ^ 63)
    (hstate : state.data = pre ++ wire.keyBytes ++ wire.sent ++ suffix)
    (hlen : state.data.length < 2 ^ 64) :
    parsePayload state wire.firstByte wire.maskingKey.isSome pre.length
        (UInt64.ofNat wire.payload.length) =
      .ok (.frameOK, { state with
        data := pre ++ wire.keyBytes ++ wire.payload ++ suffix
        frame := wire.frame suffix
        frameEnd := (pre ++ wire.keyBytes ++ wire.sent).length }) := by
  have hsent := wire.length_sent
  have hkey := wire.length_keyBytes
  have hpay : (UInt64.ofNat wire.payload.length).toNat = wire.payload.length :=
    UInt64.toNat_ofNat_of_lt' (hn.trans (by decide))
  have hleft : state.data.length - pre.length =
      keyLength wire.maskingKey.isSome + wire.payload.length + suffix.length := by
    rw [hstate]
    simp only [length_append, hkey, hsent]
    omega
  have hlong : ¬ UInt64.ofNat (state.data.length - pre.length) <
      (if wire.maskingKey.isSome then 4 else 0) + UInt64.ofNat wire.payload.length := by
    rw [short_iff hn (by omega), hleft]
    omega
  have hmask : (if wire.maskingKey.isSome then
      maskPayload state.data pre.length (pre.length + maskingKeyWidthInBytes)
        (UInt64.ofNat wire.payload.length).toNat
      else pure state.data) = .ok (pre ++ wire.keyBytes ++ wire.payload ++ suffix) := by
    rw [hstate, hpay]
    unfold WireFrame.keyBytes WireFrame.sent
    cases hmaskingKey : wire.maskingKey with
    | none => rfl
    | some maskingKey =>
      dsimp only [Option.isSome_some, Option.map_some, Option.getD_some]
      have hkey : ∀ i : Fin 4, (pre ++ List.ofFn maskingKey)[pre.length + i.val]? =
          some (maskingKey i) := by
        intro i
        rw [List.getElem?_append_right (Nat.le_add_right _ _), Nat.add_sub_cancel_left,
          List.getElem?_ofFn, dif_pos i.isLt]
      have hstart : pre.length + maskingKeyWidthInBytes = (pre ++ List.ofFn maskingKey).length := by
        rw [length_append, length_ofFn, maskingKeyWidthInBytes]
      rw [if_pos rfl, maskPayload_eq hkey hstart length_mask.symm, mask_mask]
  have hend : pre.length + keyLength wire.maskingKey.isSome = (pre ++ wire.keyBytes).length := by
    rw [length_append, hkey]
  rw [parsePayload, if_neg (by rw [large_iff (hn.trans (by decide))]; omega)]
  rw [if_neg hlong, hmask]
  dsimp only [bind, Except.bind, pure, Except.pure]
  rw [toNat_keyLength, hend, hpay, append_assoc (pre ++ wire.keyBytes),
    drop_left, @length_append _ _ wire.sent, hsent]
  rfl

/-- The number of bytes that extend a length. -/
def extendedSize (length : UInt8) : ℕ := if length = 126 then 2 else 8

/-- The length could have been written with fewer bytes. -/
def TooLong (size n : ℕ) : Prop := size = 2 ∧ n ≤ 125 ∨ size = 8 ∧ n ≤ 0xFFFF

variable {secondByte : UInt8}

theorem parseFrame_cons (hdata : state.data = firstByte :: secondByte :: rest) : parseFrame state =
      let masked := secondByte &&& maskBit != 0
      let length := secondByte &&& payloadLengthMask
      if length ≤ 125 then parsePayload state firstByte masked 2 length.toUInt64
      else if rest.length < extendedSize length then .ok (.frameIncomplete, state)
      else (do
        let (payloadLength64, p) ← readPayloadLength state.data (extendedSize length) 2 0
        if extendedSize length = 2 ∧ payloadLength64 ≤ 125 then
          pure (.frameError, { state with errorString := notMinimal })
        else if extendedSize length = 8 ∧ payloadLength64 ≤ 0xFFFF then
          pure (.frameError, { state with errorString := notMinimal })
        else parsePayload state firstByte masked p payloadLength64) := by
  have hlen : ¬ state.data.length < 2 := by
    rw [hdata]
    simp
  have hfirst : load state.data 0 = .ok firstByte := by
    rw [hdata]
    rfl
  have hsnd : load state.data 1 = .ok secondByte := by
    rw [hdata]
    rfl
  have hshort : (secondByte &&& payloadLengthMask).toUInt64 >
      maxPayloadLengthWithoutExtendedLengthField ↔ ¬ secondByte &&& payloadLengthMask ≤ 125 := by
    rw [UInt8.le_iff_toNat_le, not_le, gt_iff_lt, UInt64.lt_iff_toNat_lt, UInt8.toNat_toUInt64]
    rfl
  have hsize : (if (secondByte &&& payloadLengthMask).toUInt64 =
      payloadLengthWithTwoByteExtendedLengthField then 2 else 8) =
        extendedSize (secondByte &&& payloadLengthMask) := by
    have heq : (secondByte &&& payloadLengthMask).toUInt64 =
        payloadLengthWithTwoByteExtendedLengthField ↔ secondByte &&& payloadLengthMask = 126 := by
      rw [← UInt64.toNat_inj, ← UInt8.toNat_inj, UInt8.toNat_toUInt64]
      rfl
    simp only [extendedSize, heq]
  have hrest : (state.data.length : ℤ) - 2 < (extendedSize (secondByte &&& payloadLengthMask) : ℤ) ↔
        rest.length < extendedSize (secondByte &&& payloadLengthMask) := by
    rw [hdata, length_cons, length_cons]
    omega
  rw [parseFrame, if_neg hlen, hfirst]
  dsimp only [bind, Except.bind]
  rw [hsnd]
  simp only [hshort, hsize, hrest, ite_not]
  rfl

theorem extendedSize_le (length : UInt8) : extendedSize length ≤ 8 := by
  unfold extendedSize
  split <;> decide

theorem ofBytes_extended_lt
    (hbytes : bytes.length = extendedSize (secondByte &&& payloadLengthMask)) :
    ofBytes bytes.reverse < 2 ^ 64 := by
  have hle := extendedSize_le (secondByte &&& payloadLengthMask)
  calc ofBytes bytes.reverse < 256 ^ bytes.reverse.length := ofBytes_lt _
    _ ≤ 256 ^ 8 := Nat.pow_le_pow_right (by decide) (by rw [length_reverse]; omega)
    _ = 2 ^ 64 := by decide

theorem parseFrame_plain (hdata : state.data = firstByte :: secondByte :: rest)
    (hshort : secondByte &&& payloadLengthMask ≤ 125) :
    parseFrame state = parsePayload state firstByte (secondByte &&& maskBit != 0) 2
      (secondByte &&& payloadLengthMask).toUInt64 := by
  rw [parseFrame_cons hdata]
  exact if_pos hshort

theorem parseFrame_waits (hdata : state.data = firstByte :: secondByte :: rest)
    (hlong : ¬ secondByte &&& payloadLengthMask ≤ 125)
    (hrest : rest.length < extendedSize (secondByte &&& payloadLengthMask)) :
    parseFrame state = .ok (.frameIncomplete, state) := by
  rw [parseFrame_cons hdata]
  rw [if_neg hlong, if_pos hrest]

theorem parseFrame_extended (hdata : state.data = firstByte :: secondByte :: (bytes ++ rest))
    (hlong : ¬ secondByte &&& payloadLengthMask ≤ 125)
    (hbytes : bytes.length = extendedSize (secondByte &&& payloadLengthMask)) :
    TooLong bytes.length (ofBytes bytes.reverse) ∧
        parseFrame state = .ok (.frameError, { state with errorString := notMinimal }) ∨
      ¬ TooLong bytes.length (ofBytes bytes.reverse) ∧
        parseFrame state = parsePayload state firstByte (secondByte &&& maskBit != 0)
          (2 + bytes.length) (UInt64.ofNat (ofBytes bytes.reverse)) := by
  have hle := extendedSize_le (secondByte &&& payloadLengthMask)
  have hsmall := ofBytes_extended_lt hbytes
  have hread : readPayloadLength state.data bytes.length 2 0 =
      .ok (UInt64.ofNat (ofBytes bytes.reverse), 2 + bytes.length) := by
    have h := @readPayloadLength_eq [firstByte, secondByte] rest bytes 0 0 _ rfl one_pos (by omega)
    rw [hdata]
    simpa using h
  have hle1 : UInt64.ofNat (ofBytes bytes.reverse) ≤ 125 ↔ ofBytes bytes.reverse ≤ 125 := by
    rw [UInt64.le_iff_toNat_le, UInt64.toNat_ofNat_of_lt' hsmall]
    rfl
  have hle2 : UInt64.ofNat (ofBytes bytes.reverse) ≤ 0xFFFF ↔ ofBytes bytes.reverse ≤ 0xFFFF := by
    rw [UInt64.le_iff_toNat_le, UInt64.toNat_ofNat_of_lt' hsmall]
    rfl
  have hrest : ¬ (bytes ++ rest).length < bytes.length := by
    rw [length_append]
    omega
  rw [parseFrame_cons hdata]
  rw [if_neg hlong, ← hbytes, if_neg hrest, hread]
  dsimp only [bind, Except.bind]
  rw [TooLong, ← hle1, ← hle2]
  by_cases htwo : bytes.length = 2 ∧ UInt64.ofNat (ofBytes bytes.reverse) ≤ 125
  · rw [if_pos htwo]
    exact .inl ⟨.inl htwo, rfl⟩
  · rw [if_neg htwo]
    by_cases height : bytes.length = 8 ∧ UInt64.ofNat (ofBytes bytes.reverse) ≤ 0xFFFF
    · rw [if_pos height]
      exact .inl ⟨.inr height, rfl⟩
    · rw [if_neg height]
      exact .inr ⟨not_or.mpr ⟨htwo, height⟩, rfl⟩

theorem lengthField_lt (n : ℕ) : (lengthField n).toNat < 128 := by
  unfold lengthField
  split
  · rw [UInt8.toNat_ofNat']
    omega
  · split <;> decide

theorem secondByte_fields (masked : Bool) (n : ℕ) :
    ((maskField masked ||| lengthField n) &&& maskBit != 0) = masked ∧
      (maskField masked ||| lengthField n) &&& payloadLengthMask = lengthField n := by
  have hall : ∀ length < 128, ∀ masked,
      ((maskField masked ||| UInt8.ofNat length) &&& maskBit != 0) = masked ∧
        (maskField masked ||| UInt8.ofNat length) &&& payloadLengthMask = UInt8.ofNat length := by
    decide +kernel
  have h := hall (lengthField n).toNat (lengthField_lt n) masked
  rwa [UInt8.ofNat_toNat] at h

theorem secondByte_eq (secondByte : UInt8) :
    maskField (secondByte &&& maskBit != 0) ||| (secondByte &&& payloadLengthMask) =
      secondByte := by
  have hall : ∀ byte < 256, maskField (UInt8.ofNat byte &&& maskBit != 0) |||
      (UInt8.ofNat byte &&& payloadLengthMask) = UInt8.ofNat byte := by
    decide +kernel
  have h := hall secondByte.toNat secondByte.toNat_lt
  rwa [UInt8.ofNat_toNat] at h

theorem length_extendedLength (hn : 125 < n) :
    (extendedLength n).length = extendedSize (lengthField n) := by
  have hle : ¬ n ≤ 125 := by omega
  unfold extendedLength lengthField
  rw [if_neg hle, if_neg hle]
  split <;> simp [extendedSize]

theorem ofBytes_extendedLength (hn : 125 < n) (hlt : n < 2 ^ 64) :
    ofBytes (extendedLength n).reverse = n := by
  unfold extendedLength
  rw [if_neg (by omega)]
  split <;> rw [reverse_reverse, ofBytes_toBytes_of_lt (by omega)]

theorem not_tooLong (n : ℕ) : ¬ TooLong (extendedLength n).length n := by
  unfold TooLong extendedLength
  split
  · simp
  · split
    · simp
      omega
    · omega

/-! ## Buffers that begin with a frame -/

theorem extendedLength_of_le (hn : n ≤ 125) :
    extendedLength n = [] ∧ lengthField n = UInt8.ofNat n :=
  ⟨if_pos hn, if_pos hn⟩

theorem lengthField_le_iff (n : ℕ) : lengthField n ≤ 125 ↔ n ≤ 125 := by
  rw [UInt8.le_iff_toNat_le]
  unfold lengthField
  split
  · rw [UInt8.toNat_ofNat', Nat.mod_eq_of_lt (by omega)]
    rfl
  · rename_i hn
    split <;> simp [hn]

theorem parseFrame_header (hdata : state.data = header firstByte masked n ++ rest)
    (hn : n < 2 ^ 64) :
    parseFrame state = parsePayload state firstByte masked (header firstByte masked n).length
      (UInt64.ofNat n) := by
  obtain ⟨hmasked, hfield⟩ := secondByte_fields masked n
  rw [header, length_cons, length_cons]
  by_cases hshort : n ≤ 125
  · obtain ⟨hext, hvalue⟩ := extendedLength_of_le hshort
    have hlen : (UInt8.ofNat n).toUInt64 = UInt64.ofNat n := by
      apply UInt64.toNat_inj.mp
      rw [UInt8.toNat_toUInt64, UInt8.toNat_ofNat', UInt64.toNat_ofNat_of_lt' hn,
        Nat.mod_eq_of_lt (by omega)]
    rw [parseFrame_plain hdata (by rw [hfield, lengthField_le_iff]; exact hshort), hmasked, hfield,
      hvalue, hlen, hext]
    rfl
  · have hlong : ¬ (maskField masked ||| lengthField n) &&& payloadLengthMask ≤ 125 := by
      rw [hfield, lengthField_le_iff]
      exact hshort
    have hsize := length_extendedLength (not_le.mp hshort)
    rw [← hfield] at hsize
    have hvalue := ofBytes_extendedLength (not_le.mp hshort) hn
    rcases parseFrame_extended hdata hlong hsize with ⟨htooLong, -⟩ | ⟨-, heq⟩
    · rw [hvalue] at htooLong
      exact absurd htooLong (not_tooLong n)
    · rw [heq, hvalue, hmasked, add_comm 2]

theorem parseFrame_header_take (hk : k < (header firstByte masked n).length)
    (hdata : state.data = (header firstByte masked n).take k) :
    parseFrame state = .ok (.frameIncomplete, state) := by
  by_cases htwo : k < 2
  · rw [parseFrame, if_pos]
    · rfl
    · rw [hdata, length_take]
      omega
  · obtain ⟨k, rfl⟩ : ∃ j, k = j + 2 := ⟨k - 2, by omega⟩
    rw [header, length_cons, length_cons] at hk
    obtain ⟨-, hfield⟩ := secondByte_fields masked n
    have hlong : 125 < n := by
      by_contra hshort
      rw [(extendedLength_of_le (not_lt.mp hshort)).1, length_nil] at hk
      omega
    refine parseFrame_waits hdata ?_ ?_
    · rw [hfield, lengthField_le_iff]
      omega
    · rw [hfield, ← length_extendedLength hlong, length_take]
      omega

theorem length_header_le (firstByte : UInt8) (masked : Bool) (n : ℕ) :
    (header firstByte masked n).length ≤ 10 := by
  unfold header extendedLength
  split
  · simp
  · split <;> simp

theorem WireFrame.length_bytes_le (wire : WireFrame) :
    wire.bytes.length ≤ wire.payload.length + 14 := by
  have hkey : keyLength wire.maskingKey.isSome ≤ 4 := by
    cases wire.maskingKey.isSome <;> decide
  have hheader := length_header_le wire.firstByte wire.maskingKey.isSome wire.payload.length
  rw [bytes, front, length_append, length_append, wire.length_sent, wire.length_keyBytes]
  omega

variable {wire : WireFrame}

theorem parseFrame_bytes (hn : wire.payload.length < 2 ^ 63)
    (hdata : state.data = wire.bytes ++ suffix) (hlen : state.data.length < 2 ^ 64) :
    parseFrame state = .ok (.frameOK, { state with
      data := wire.front ++ wire.payload ++ suffix
      frame := wire.frame suffix
      frameEnd := wire.bytes.length }) := by
  have hsplit : state.data = header wire.firstByte wire.maskingKey.isSome wire.payload.length ++
      (wire.keyBytes ++ (wire.sent ++ suffix)) := by
    rw [hdata, WireFrame.bytes, WireFrame.front]
    simp only [append_assoc]
  rw [parseFrame_header hsplit (hn.trans (by decide)),
    @parsePayload_ok _ suffix _ _ hn (by rw [hsplit]; simp only [append_assoc]) hlen]
  rfl

theorem parseFrame_take (hn : wire.payload.length < 2 ^ 63) (hk : k < wire.bytes.length)
    (hdata : state.data = wire.bytes.take k) (hlen : state.data.length < 2 ^ 64) :
    parseFrame state = .ok (.frameIncomplete, state) := by
  have hsplit : wire.bytes = header wire.firstByte wire.maskingKey.isSome wire.payload.length ++
      (wire.keyBytes ++ wire.sent) := by
    rw [WireFrame.bytes, WireFrame.front, append_assoc]
  rw [hsplit] at hk hdata
  by_cases hheader : k < (header wire.firstByte wire.maskingKey.isSome wire.payload.length).length
  · refine parseFrame_header_take hheader ?_
    rw [hdata, take_append_of_le_length hheader.le]
  · rw [take_append, take_of_length_le (not_lt.mp hheader)] at hdata
    rw [parseFrame_header hdata (hn.trans (by decide))]
    refine parsePayload_short hn hdata hlen ?_
    rw [length_append, length_append, wire.length_keyBytes, wire.length_sent] at hk
    rw [length_take]
    omega

theorem parsePayload_cases (hn : n < 2 ^ 64) (hdata : state.data = pre ++ rest)
    (hlen : state.data.length < 2 ^ 64) :
    (∃ message, parsePayload state firstByte masked pre.length (UInt64.ofNat n) =
        .ok (.frameError, { state with errorString := message })) ∨
      parsePayload state firstByte masked pre.length (UInt64.ofNat n) =
        .ok (.frameIncomplete, state) ∨
      n < 2 ^ 63 ∧ ∃ (wire : WireFrame) (suffix : List UInt8), wire.firstByte = firstByte ∧
        wire.maskingKey.isSome = masked ∧ wire.payload.length = n ∧
        rest = wire.keyBytes ++ wire.sent ++ suffix := by
  by_cases hlarge : 2 ^ 63 ≤ n
  · exact .inl ⟨_, parsePayload_large hn hlarge _⟩
  rw [not_le] at hlarge
  refine .inr ?_
  by_cases hshort : rest.length < keyLength masked + n
  · exact .inl (parsePayload_short hlarge hdata hlen hshort)
  rw [not_lt] at hshort
  refine .inr ⟨hlarge, ?_⟩
  cases masked with
  | false =>
    rw [keyLength, if_neg Bool.false_ne_true, zero_add] at hshort
    exact ⟨⟨firstByte, none, rest.take n⟩, rest.drop n, rfl, rfl, length_take_of_le hshort,
      (take_append_drop n rest).symm⟩
  | true =>
    rw [keyLength, if_pos rfl] at hshort
    obtain ⟨k0, k1, k2, k3, rest, rfl⟩ :
        ∃ k0 k1 k2 k3 tail, rest = k0 :: k1 :: k2 :: k3 :: tail := by
      match rest, hshort with
      | k0 :: k1 :: k2 :: k3 :: tail, _ => exact ⟨k0, k1, k2, k3, tail, rfl⟩
      | [], h => simp at h
      | [_], h => simp at h; omega
      | [_, _], h => simp at h; omega
      | [_, _, _], h => simp at h; omega
    simp only [length_cons] at hshort
    refine ⟨⟨firstByte, some ![k0, k1, k2, k3], mask ![k0, k1, k2, k3] (rest.take n)⟩, rest.drop n,
      rfl, rfl, ?_, ?_⟩
    · rw [length_mask, length_take_of_le (by omega)]
    · change _ = ofFn _ ++ mask _ (mask _ (rest.take n)) ++ rest.drop n
      rw [mask_mask, append_assoc, take_append_drop]
      rfl

theorem header_of_extended (hlong : ¬ secondByte &&& payloadLengthMask ≤ 125)
    (hbytes : bytes.length = extendedSize (secondByte &&& payloadLengthMask))
    (hshortest : ¬ TooLong bytes.length (ofBytes bytes.reverse)) :
    header firstByte (secondByte &&& maskBit != 0) (ofBytes bytes.reverse) =
      firstByte :: secondByte :: bytes := by
  have hlt : ofBytes bytes.reverse < 256 ^ bytes.length := by
    have h := ofBytes_lt bytes.reverse
    rwa [length_reverse] at h
  have hreverse : (toBytes bytes.length (ofBytes bytes.reverse)).reverse = bytes := by
    have h := toBytes_ofBytes bytes.reverse
    rw [length_reverse] at h
    rw [h, reverse_reverse]
  have hfields : lengthField (ofBytes bytes.reverse) = secondByte &&& payloadLengthMask ∧
      extendedLength (ofBytes bytes.reverse) = bytes := by
    have hsizes : ∀ byte < 256, ¬ UInt8.ofNat byte &&& payloadLengthMask ≤ 125 →
        UInt8.ofNat byte &&& payloadLengthMask = 126 ∨
          UInt8.ofNat byte &&& payloadLengthMask = 127 := by
      decide +kernel
    have hsize := hsizes secondByte.toNat secondByte.toNat_lt
    rw [UInt8.ofNat_toNat] at hsize
    rcases hsize hlong with hfield | hfield
    · rw [hfield] at hbytes
      change bytes.length = 2 at hbytes
      rw [hbytes] at hshortest hlt hreverse
      have hn : ¬ ofBytes bytes.reverse ≤ 125 := fun h => hshortest (.inl ⟨rfl, h⟩)
      have hn' : ofBytes bytes.reverse ≤ 0xFFFF := Nat.le_of_lt_succ hlt
      rw [lengthField, extendedLength, if_neg hn, if_neg hn, if_pos hn', if_pos hn']
      exact ⟨hfield.symm, hreverse⟩
    · rw [hfield] at hbytes
      change bytes.length = 8 at hbytes
      rw [hbytes] at hshortest hreverse
      have hn : ¬ ofBytes bytes.reverse ≤ 0xFFFF := fun h => hshortest (.inr ⟨rfl, h⟩)
      have hn' : ¬ ofBytes bytes.reverse ≤ 125 := fun h => hn (h.trans (by decide))
      rw [lengthField, extendedLength, if_neg hn', if_neg hn', if_neg hn, if_neg hn]
      exact ⟨hfield.symm, hreverse⟩
  rw [header, hfields.1, hfields.2, secondByte_eq]

/-- What `parseFrame` makes of a buffer: it waits and leaves everything as it is, or reports an
error, or the buffer begins with a frame. -/
def Answered (state : ParseState) : Prop :=
  parseFrame state = .ok (.frameIncomplete, state) ∨
    (∃ message, parseFrame state = .ok (.frameError, { state with errorString := message })) ∨
    ∃ (wire : WireFrame) (suffix : List UInt8), wire.payload.length < 2 ^ 63 ∧
      state.data = wire.bytes ++ suffix

theorem answered_of_header (hn : n < 2 ^ 64)
    (hdata : state.data = header firstByte masked n ++ rest)
    (hlen : state.data.length < 2 ^ 64) : Answered state := by
  rw [Answered, parseFrame_header hdata hn]
  rcases @parsePayload_cases _ _ firstByte masked _ _ hn hdata hlen with
    herror | hincompl | ⟨hlt, wire, suffix, rfl, rfl, rfl, rfl⟩
  · exact .inr (.inl herror)
  · exact .inl hincompl
  · refine .inr (.inr ⟨wire, suffix, hlt, ?_⟩)
    rw [hdata, WireFrame.bytes, WireFrame.front]
    simp only [append_assoc]

theorem parseFrame_cases (hlen : state.data.length < 2 ^ 64) : Answered state := by
  match hdata : state.data with
  | [] | [_] =>
    left
    rw [parseFrame, hdata]
    rfl
  | firstByte :: secondByte :: rest =>
    have hbyte := secondByte_eq secondByte
    by_cases hshort : secondByte &&& payloadLengthMask ≤ 125
    · -- the seven bits are the length
      have hle : (secondByte &&& payloadLengthMask).toNat ≤ 125 := UInt8.le_iff_toNat_le.mp hshort
      obtain ⟨hext, hfield⟩ := extendedLength_of_le hle
      refine @answered_of_header rest firstByte (secondByte &&& maskBit != 0)
        (secondByte &&& payloadLengthMask).toNat _ (by omega) ?_ hlen
      rw [header, hext, hfield, UInt8.ofNat_toNat, hbyte, hdata]
      rfl
    · by_cases hwait : rest.length < extendedSize (secondByte &&& payloadLengthMask)
      · exact .inl (parseFrame_waits hdata hshort hwait)
      · obtain ⟨bytes, rest, rfl, hbytes⟩ : ∃ bytes tail, rest = bytes ++ tail ∧
            bytes.length = extendedSize (secondByte &&& payloadLengthMask) :=
          ⟨_, _, (take_append_drop _ rest).symm, length_take_of_le (not_lt.mp hwait)⟩
        rcases parseFrame_extended hdata hshort hbytes with ⟨-, herror⟩ | ⟨hshortest, -⟩
        · exact .inr (.inl ⟨_, herror⟩)
        · refine @answered_of_header rest firstByte (secondByte &&& maskBit != 0)
            (ofBytes bytes.reverse) _ ?_ ?_ hlen
          · exact ofBytes_extended_lt hbytes
          · rw [header_of_extended hshort hbytes hshortest, hdata]
            rfl

end WebKit.WebSockets
