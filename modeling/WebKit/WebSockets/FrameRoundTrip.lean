import WebKit.Transition.Outcome
import WebKit.WebSockets.FrameParsing

/-!
# What is made is parsed

`makeFrameData` writes the frame that stands for its fields on the wire (`makeFrameData_outcome`),
unless a vector cannot grow. So `parseFrame` returns these fields, after any bytes that follow, and
waits for the rest of any part.
-/

namespace WebKit.WebSockets

open Transition List WireFrame
open WTF (Failure)

variable {canGrow : ℕ → Bool} {frame : WebSocketFrame} {maskingKey : Fin 4 → UInt8}
  {data more payload suffix : List UInt8} {total : ℕ} {state : ParseState}

/-- The first byte that is written. -/
def firstByteOf (frame : WebSocketFrame) : UInt8 :=
  (if frame.final then finalBit else 0) ||| (if frame.compress then compressBit else 0) |||
    frame.opCode

/-- A frame as it is written. -/
def wireOf (frame : WebSocketFrame) (maskingKey : Fin 4 → UInt8) : WireFrame where
  firstByte := firstByteOf frame
  maskingKey := if frame.masked then some maskingKey else none
  payload := frame.payload.take frame.payloadLength.toNat

/-- A vector could not grow to some size up to the bound. -/
def Stuck (canGrow : ℕ → Bool) (total : ℕ) (failure : Failure) : Prop :=
  failure = .crash ∧ ∃ size ≤ total, canGrow size = false

theorem append_outcome (h : (data ++ more).length ≤ total) :
    Outcome (Stuck canGrow total) (fun result => result = data ++ more)
      (append canGrow data more) := by
  rw [length_append] at h
  unfold append
  by_cases hgrow : canGrow (data.length + more.length) = true
  · rw [if_pos hgrow]
    exact Outcome.pure rfl
  · rw [if_neg hgrow]
    exact ⟨rfl, _, h, Bool.eq_false_iff.mpr hgrow⟩

theorem toBytes_two (payloadLength : UInt64) :
    [((payloadLength &&& 0xFF00) >>> 8).toUInt8, (payloadLength &&& 0xFF).toUInt8] =
      (Bits.toBytes 2 payloadLength.toNat).reverse := by
  have hlow : (payloadLength &&& 0xFF).toUInt8 = UInt8.ofNat payloadLength.toNat := by
    apply UInt8.toNat_inj.mp
    rw [UInt64.toNat_toUInt8, UInt64.toNat_and, UInt8.toNat_ofNat']
    change (payloadLength.toNat &&& (2 ^ 8 - 1)) % 2 ^ 8 = _
    rw [Nat.and_two_pow_sub_one_eq_mod, Nat.mod_mod]
  have hhigh : ((payloadLength &&& 0xFF00) >>> 8).toUInt8 =
      UInt8.ofNat (payloadLength.toNat / 256) := by
    apply UInt8.toNat_inj.mp
    rw [UInt64.toNat_toUInt8, UInt64.toNat_shiftRight, UInt64.toNat_and, UInt8.toNat_ofNat']
    rw [Nat.shiftRight_and_distrib]
    change (payloadLength.toNat >>> 8 &&& (2 ^ 8 - 1)) % 2 ^ 8 = _
    rw [Nat.and_two_pow_sub_one_eq_mod, Nat.mod_mod, Nat.shiftRight_eq_div_pow]
  rw [hlow, hhigh]
  rfl

theorem writeMaskingKey_eq (data payload : List UInt8) :
    writeMaskingKey (data ++ [0, 0, 0, 0] ++ payload) data.length maskingKey =
      data ++ ofFn maskingKey ++ payload := by
  have hset : ∀ (i : ℕ) (l : List UInt8) (byte : UInt8),
      (data ++ l).set (data.length + i) byte = data ++ l.set i byte := by
    intro i l byte
    rw [set_append_right _ _ (Nat.le_add_right _ _), Nat.add_sub_cancel_left]
  have hrange : finRange 4 = [0, 1, 2, 3] := rfl
  have hofFn : ofFn maskingKey = [maskingKey 0, maskingKey 1, maskingKey 2, maskingKey 3] := rfl
  rw [writeMaskingKey, hrange, hofFn, append_assoc, append_assoc]
  simp only [foldl_cons, foldl_nil, hset]
  rfl

theorem appendFramePayload_outcome (hpay : frame.payloadLength.toNat ≤ frame.payload.length)
    (htotal : (data ++ (wireOf frame maskingKey).keyBytes ++
      (wireOf frame maskingKey).sent).length ≤ total) :
    Outcome (Stuck canGrow total)
      (fun result => result = data ++ (wireOf frame maskingKey).keyBytes ++
        (wireOf frame maskingKey).sent)
      (appendFramePayload canGrow frame maskingKey data) := by
  have hbytes : bytesOf frame.payload frame.payloadLength =
      .ok (frame.payload.take frame.payloadLength.toNat) := by
    rw [bytesOf, if_pos hpay]
    rfl
  have hlen : (frame.payload.take frame.payloadLength.toNat).length =
      frame.payloadLength.toNat := length_take_of_le hpay
  unfold appendFramePayload
  cases hmasked : frame.masked with
  | false =>
    have hwire : (wireOf frame maskingKey).keyBytes = [] ∧ (wireOf frame maskingKey).sent =
        frame.payload.take frame.payloadLength.toNat := by
      simp [keyBytes, sent, wireOf, hmasked]
    rw [hwire.1, hwire.2, append_nil] at htotal ⊢
    rw [hbytes]
    refine (append_outcome htotal).bind fun result hres => ?_
    exact Outcome.pure hres
  | true =>
    have hwire : (wireOf frame maskingKey).keyBytes = List.ofFn maskingKey ∧
        (wireOf frame maskingKey).sent =
          mask maskingKey (frame.payload.take frame.payloadLength.toNat) := by
      simp [keyBytes, sent, wireOf, hmasked]
    rw [hwire.1, hwire.2] at htotal ⊢
    simp only [length_append, length_ofFn, length_mask] at htotal
    have hplaceholder : (data ++ [0, 0, 0, 0]).length ≤ total := by
      rw [length_append]
      change data.length + 4 ≤ total
      omega
    have hfilled : (data ++ [0, 0, 0, 0] ++ frame.payload.take frame.payloadLength.toNat).length ≤
        total := by
      rw [length_append, length_append]
      omega
    refine (append_outcome hplaceholder).bind fun grown hgrown => ?_
    subst hgrown
    rw [hbytes]
    refine (append_outcome hfilled).bind fun result hres => ?_
    subst hres
    have hkey : ∀ i : Fin 4, (data ++ List.ofFn maskingKey)[data.length + i.val]? =
        some (maskingKey i) := by
      intro i
      rw [List.getElem?_append_right (Nat.le_add_right _ _), Nat.add_sub_cancel_left,
        List.getElem?_ofFn, dif_pos i.isLt]
    have hmask := @maskPayload_eq _ (frame.payload.take frame.payloadLength.toNat) _ [] _
      (data ++ [0, 0, 0, 0]).length _ hkey (by simp) hlen.symm
    rw [append_nil, append_nil] at hmask
    rw [if_pos rfl, writeMaskingKey_eq, hmask]
    exact Outcome.pure rfl

theorem length_wireOf (h : frame.payloadLength.toNat ≤ frame.payload.length) :
    (wireOf frame maskingKey).payload.length = frame.payloadLength.toNat :=
  length_take_of_le h

theorem isSome_wireOf : (wireOf frame maskingKey).maskingKey.isSome = frame.masked := by
  unfold wireOf
  cases frame.masked <;> rfl

theorem writeHeader_outcome (htotal : (header (firstByteOf frame) frame.masked
      frame.payloadLength.toNat).length ≤ total) :
    Outcome (Stuck canGrow total)
      (fun result => result = header (firstByteOf frame) frame.masked frame.payloadLength.toNat)
      (if frame.payloadLength ≤ maxPayloadLengthWithoutExtendedLengthField then
        pure ([firstByteOf frame, maskField frame.masked].modify 1
          (· ||| frame.payloadLength.toUInt8))
      else if frame.payloadLength ≤ 0xFFFF then do
        let frameData := [firstByteOf frame, maskField frame.masked].modify 1
          (· ||| payloadLengthWithTwoByteExtendedLengthField.toUInt8)
        let frameData ← append canGrow frameData [((frame.payloadLength &&& 0xFF00) >>> 8).toUInt8]
        append canGrow frameData [(frame.payloadLength &&& 0xFF).toUInt8]
      else
        let frameData := [firstByteOf frame, maskField frame.masked].modify 1
          (· ||| payloadLengthWithEightByteExtendedLengthField.toUInt8)
        append canGrow frameData (extendedPayloadLength 8 frame.payloadLength [])) := by
  have hle1 : frame.payloadLength ≤ maxPayloadLengthWithoutExtendedLengthField ↔
      frame.payloadLength.toNat ≤ 125 := UInt64.le_iff_toNat_le
  have hle2 : frame.payloadLength ≤ 0xFFFF ↔ frame.payloadLength.toNat ≤ 0xFFFF :=
    UInt64.le_iff_toNat_le
  have hbyte : frame.payloadLength.toUInt8 = UInt8.ofNat frame.payloadLength.toNat := by
    apply UInt8.toNat_inj.mp
    rw [UInt64.toNat_toUInt8, UInt8.toNat_ofNat']
  rw [header, lengthField, extendedLength] at htotal ⊢
  by_cases hshort : frame.payloadLength.toNat ≤ 125
  · rw [if_pos (hle1.mpr hshort), if_pos hshort, if_pos hshort, hbyte]
    exact Outcome.pure rfl
  · rw [if_neg (mt hle1.mp hshort)]
    rw [if_neg hshort, if_neg hshort] at htotal ⊢
    by_cases htwo : frame.payloadLength.toNat ≤ 0xFFFF
    · rw [if_pos (hle2.mpr htwo)]
      rw [if_pos htwo, if_pos htwo] at htotal ⊢
      rw [← toBytes_two] at htotal ⊢
      simp only [length_cons, length_nil] at htotal
      refine (append_outcome ?_).bind fun result hres => ?_
      · change 3 ≤ total
        omega
      · subst hres
        exact append_outcome htotal
    · rw [if_neg (mt hle2.mp htwo)]
      rw [if_neg htwo, if_neg htwo] at htotal ⊢
      rw [extendedPayloadLength_eq, append_nil]
      exact append_outcome htotal

theorem makeFrameData_outcome (hpay : frame.payloadLength.toNat ≤ frame.payload.length) :
    Outcome (Stuck canGrow (wireOf frame maskingKey).bytes.length)
      (fun data => data = (wireOf frame maskingKey).bytes)
      (makeFrameData canGrow frame maskingKey) := by
  have hfront : (wireOf frame maskingKey).bytes =
      header (firstByteOf frame) frame.masked frame.payloadLength.toNat ++
        (wireOf frame maskingKey).keyBytes ++ (wireOf frame maskingKey).sent := by
    rw [bytes, front, length_wireOf hpay, isSome_wireOf]
    rfl
  rw [hfront]
  refine (append_outcome ?_).bind fun start hstart => ?_
  · simp only [header, length_append, length_cons, length_nil]
    omega
  · subst hstart
    refine (writeHeader_outcome ?_).bind fun data hdata => ?_
    · simp only [length_append]
      omega
    · subst hdata
      exact appendFramePayload_outcome hpay le_rfl

theorem firstByte_fields {opCode : UInt8} (h : opCode ≤ 15) (final compress : Bool) :
    let firstByte := (if final then finalBit else 0) ||| (if compress then compressBit else 0) |||
      opCode
    firstByte &&& opCodeMask = opCode ∧ (firstByte &&& finalBit != 0) = final ∧
      (firstByte &&& compressBit != 0) = compress ∧ (firstByte &&& reserved2Bit != 0) = false ∧
      (firstByte &&& reserved3Bit != 0) = false := by
  have hall : ∀ opCode < 16, ∀ final compress,
      let firstByte := (if final then finalBit else 0) |||
        (if compress then compressBit else 0) ||| UInt8.ofNat opCode
      firstByte &&& opCodeMask = UInt8.ofNat opCode ∧ (firstByte &&& finalBit != 0) = final ∧
        (firstByte &&& compressBit != 0) = compress ∧ (firstByte &&& reserved2Bit != 0) = false ∧
        (firstByte &&& reserved3Bit != 0) = false := by
    decide +kernel
  have hfields := hall opCode.toNat (Nat.lt_succ_of_le (UInt8.le_iff_toNat_le.mp h)) final compress
  rwa [UInt8.ofNat_toNat] at hfields

/-- A frame that `makeFrameData` is meant for: its payload is there, and the reserved bits, which
are not written, are not set. -/
structure WebSocketFrame.Makeable (frame : WebSocketFrame) : Prop where
  opCode_le : frame.opCode ≤ 15
  reserved2 : frame.reserved2 = false
  reserved3 : frame.reserved3 = false
  length_le : frame.payloadLength.toNat ≤ frame.payload.length

theorem frame_wireOf (h : frame.Makeable) (suffix : List UInt8) :
    (wireOf frame maskingKey).frame suffix =
      { frame with payload := frame.payload.take frame.payloadLength.toNat ++ suffix } := by
  obtain ⟨hopCode, hfinal, hcompress, hreserved2, hreserved3⟩ :=
    firstByte_fields h.opCode_le frame.final frame.compress
  have hlen : UInt64.ofNat (wireOf frame maskingKey).payload.length = frame.payloadLength := by
    rw [length_wireOf h.length_le, UInt64.ofNat_toNat]
  rw [WireFrame.frame, isSome_wireOf, hlen, WebSocketFrame.mk.injEq, h.reserved2, h.reserved3]
  exact ⟨hopCode, hfinal, hcompress, hreserved2, hreserved3, rfl, rfl, rfl⟩

/-- What `parseFrame` returns for a frame with bytes behind it. -/
def parsed (state : ParseState) (wire : WireFrame) (suffix : List UInt8) :
    ParseFrameResult × ParseState :=
  (.frameOK, { state with
    data := wire.front ++ wire.payload ++ suffix
    frame := wire.frame suffix
    frameEnd := wire.bytes.length })

/-- What is made of a frame is parsed to its fields and its payload, whatever follows, and each
part of it is waited on; a frame is made unless a vector cannot grow. For any buffer, no access is
outside it, nothing but a complete frame at its front is changed, and the frames that are accepted
have their lengths in the shortest form and do not depend on what follows. -/
theorem frames_parsed (canGrow : ℕ → Bool) :
    (∀ (frame : WebSocketFrame) (maskingKey : Fin 4 → UInt8), frame.Makeable →
      frame.payloadLength.toNat < 2 ^ 63 - 4 →
      (∀ data, makeFrameData canGrow frame maskingKey = .ok data → ∀ state : ParseState,
        (∀ suffix, (data ++ suffix).length < 2 ^ 64 →
          parseFrame { state with data := data ++ suffix } = .ok (.frameOK, { state with
            data := data.take (data.length - frame.payloadLength.toNat) ++
              frame.payload.take frame.payloadLength.toNat ++ suffix
            frame :=
              { frame with payload := frame.payload.take frame.payloadLength.toNat ++ suffix }
            frameEnd := data.length })) ∧
        ∀ k < data.length, parseFrame { state with data := data.take k } =
          .ok (.frameIncomplete, { state with data := data.take k })) ∧
      ((∀ size ≤ frame.payloadLength.toNat + 14, canGrow size = true) →
        ∃ data, makeFrameData canGrow frame maskingKey = .ok data)) ∧
    ∀ state : ParseState, state.data.length < 2 ^ 64 →
      parseFrame state = .ok (.frameIncomplete, state) ∨
      (∃ message, parseFrame state = .ok (.frameError, { state with errorString := message })) ∨
      ∃ (wire : WireFrame) (suffix : List UInt8), wire.payload.length < 2 ^ 63 ∧
        state.data = wire.bytes ++ suffix ∧ parseFrame state = .ok (parsed state wire suffix) ∧
        ∀ suffix', (wire.bytes ++ suffix').length < 2 ^ 64 →
          parseFrame { state with data := wire.bytes ++ suffix' } =
            .ok (parsed state wire suffix') := by
  refine ⟨fun frame maskingKey hframe hlength => ⟨?_, ?_⟩, fun state hlength => ?_⟩
  · intro data hdata state
    have hwire := @length_wireOf _ maskingKey hframe.length_le
    have hn : (wireOf frame maskingKey).payload.length < 2 ^ 63 := by
      rw [hwire]
      omega
    obtain rfl : data = (wireOf frame maskingKey).bytes :=
      (makeFrameData_outcome hframe.length_le).of_ok hdata
    have hfront : (wireOf frame maskingKey).bytes.take
        ((wireOf frame maskingKey).bytes.length - frame.payloadLength.toNat) =
          (wireOf frame maskingKey).front := by
      rw [bytes, length_append, length_sent, hwire, Nat.add_sub_cancel, take_left]
    constructor
    · intro suffix hsuffix
      rw [parseFrame_bytes hn rfl hsuffix, frame_wireOf hframe, hfront]
      rfl
    · intro k hk
      have hle := (wireOf frame maskingKey).length_bytes_le
      refine parseFrame_take hn hk rfl ?_
      rw [length_take_of_le hk.le]
      omega
  · intro hgrow
    have hmade := @makeFrameData_outcome canGrow _ maskingKey hframe.length_le
    cases hdata : makeFrameData canGrow frame maskingKey with
    | ok data => exact ⟨data, rfl⟩
    | error failure =>
      obtain ⟨-, size, hsize, hstuck⟩ := hmade.of_error hdata
      have hle := (wireOf frame maskingKey).length_bytes_le
      rw [length_wireOf hframe.length_le] at hle
      rw [hgrow size (hsize.trans hle)] at hstuck
      cases hstuck
  · rcases parseFrame_cases hlength with hincomplete | herror | ⟨wire, suffix, hn, hdata⟩
    · exact .inl hincomplete
    · exact .inr (.inl herror)
    · refine .inr (.inr ⟨wire, suffix, hn, hdata, parseFrame_bytes hn hdata hlength, ?_⟩)
      intro suffix' hsuffix'
      exact parseFrame_bytes hn rfl hsuffix'

/-- A masked text, with a byte behind it and without its last one. -/
theorem frames_parsed_text :
    let frame : WebSocketFrame := ⟨1, true, false, false, false, true, [104, 105], 2⟩
    parseFrame ⟨[129, 130, 1, 2, 3, 4, 105, 107, 7], frame, 0, ""⟩ =
        .ok (.frameOK, ⟨[129, 130, 1, 2, 3, 4, 104, 105, 7],
          ⟨1, true, false, false, false, true, [104, 105, 7], 2⟩, 8, ""⟩) ∧
      parseFrame ⟨[129, 130, 1, 2, 3, 4, 105], frame, 0, ""⟩ =
        .ok (.frameIncomplete, ⟨[129, 130, 1, 2, 3, 4, 105], frame, 0, ""⟩) := by
  intro frame
  have hmade : makeFrameData (fun _ => true) frame ![1, 2, 3, 4] =
      .ok [129, 130, 1, 2, 3, 4, 105, 107] := by
    decide +kernel
  have hframe : frame.Makeable := ⟨by decide, rfl, rfl, by decide⟩
  have hparsed := ((frames_parsed fun _ => true).1 frame ![1, 2, 3, 4] hframe (by decide)).1 _
    hmade ⟨[], frame, 0, ""⟩
  exact ⟨hparsed.1 [7] (by decide), hparsed.2 7 (by decide)⟩

end WebKit.WebSockets
