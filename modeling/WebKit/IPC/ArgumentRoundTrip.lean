import Mathlib.Data.List.Forall2
import WebKit.IPC.ArgumentSafety

/-!
# What is encoded is decoded

The encoder pads to offsets and the decoder to addresses, and the two agree when the buffer
is aligned. `Decodes encode m post`: a decoder whose position corresponds to the size of an
encoder returns from `m` with `post`, at the position that corresponds to the size after
`encode`. Encodings that follow one another are decoded one after another, so `Decodes` has
a rule for each way in which the coders are put together.
-/

namespace WebKit.IPC

open Transition ArgumentDecoder List Arithmetic VectorArgumentCoder Bits

/-! ## Encoders that only append -/

/-- At least `size` bytes are appended. -/
def Appends (encode : ArgumentEncoder → ArgumentEncoder) (size : ℕ) : Prop :=
  ∀ encoder, ∃ added, (encode encoder).buffer = encoder.buffer ++ added ∧ size ≤ added.length

namespace Appends

variable {encode encode' : ArgumentEncoder → ArgumentEncoder} {size size' : ℕ}

section

variable (h : Appends encode size)
include h

theorem comp (h' : Appends encode' size') :
    Appends (fun encoder => encode' (encode encoder)) (size + size') := by
  intro encoder
  obtain ⟨added, hadded, hsize⟩ := h encoder
  obtain ⟨added', hadded', hsize'⟩ := h' (encode encoder)
  refine ⟨added ++ added', ?_, ?_⟩
  · rw [hadded', hadded, append_assoc]
  · rw [length_append]
    omega

theorem mono (hle : size' ≤ size) : Appends encode size' := by
  intro encoder
  obtain ⟨added, hadded, hsize⟩ := h encoder
  exact ⟨added, hadded, hle.trans hsize⟩

theorem buffer_isPrefix (encoder : ArgumentEncoder) :
    encoder.buffer <+: (encode encoder).buffer := by
  obtain ⟨added, hadded, -⟩ := h encoder
  exact ⟨added, hadded.symm⟩

theorem size_le (encoder : ArgumentEncoder) :
    encoder.bufferSize + size ≤ (encode encoder).bufferSize := by
  obtain ⟨added, hadded, hsize⟩ := h encoder
  unfold ArgumentEncoder.bufferSize
  rw [hadded, length_append]
  omega

end

theorem each {α : Type} {encodeOne : α → ArgumentEncoder → ArgumentEncoder}
    (h : ∀ a, Appends (encodeOne a) 1) (l : List α) :
    Appends (encodeEach encodeOne l) l.length := by
  induction l with
  | nil => exact fun encoder => ⟨[], (append_nil _).symm, le_rfl⟩
  | cons a l ih =>
    apply ((h a).comp ih).mono
    rw [length_cons, add_comm]

end Appends

variable {uninitialized : ℕ → UInt8}

theorem appends_encodeFixedLengthData (data : List UInt8) (alignment : Alignment) :
    Appends (fun encoder => encoder.encodeFixedLengthData uninitialized data alignment)
      data.length := by
  intro encoder
  refine ⟨ArgumentEncoder.padding uninitialized encoder.bufferSize alignment ++ data, ?_, ?_⟩
  · show (encoder.reserve _).buffer ++ _ ++ data = _
    rw [ArgumentEncoder.reserve_buffer, append_assoc]
  · rw [length_append]
    omega

namespace Arithmetic

theorem length_toBytes (type : Arithmetic) (value : type.Carrier) :
    (type.toBytes value).length = type.sizeof := by
  cases type with
  | bool => rfl
  | number type => exact Bits.length_toBytes _ _

theorem length_vectorBytes (type : Arithmetic) (vector : List type.Carrier) :
    (type.vectorBytes vector).length = vector.length * type.sizeof := by
  induction vector with
  | nil => rw [length_nil, zero_mul]; rfl
  | cons a vector ih =>
    have hcons : type.vectorBytes (a :: vector) = type.toBytes a ++ type.vectorBytes vector := rfl
    rw [hcons, length_append, length_toBytes, ih, length_cons, add_mul, one_mul, add_comm]

theorem bits_eq (type : Number) : 2 ^ type.bits = 256 ^ (number type).sizeof := by
  cases type <;> rfl

section

variable (type : Arithmetic)

theorem ofBytes_toBytes (value : type.Carrier) :
    type.ofBytes (type.toBytes value) = value := by
  cases type with
  | bool => cases value <;> rfl
  | number type =>
    have hlt : BitVec.toNat value < 256 ^ (number type).sizeof := by
      rw [← bits_eq]
      exact BitVec.isLt value
    show BitVec.ofNat type.bits (Bits.ofBytes (Bits.toBytes _ (BitVec.toNat value))) = value
    rw [Bits.ofBytes_toBytes_of_lt hlt]
    apply BitVec.eq_of_toNat_eq
    rw [BitVec.toNat_ofNat, Nat.mod_eq_of_lt (BitVec.isLt value)]

theorem vectorOfBytes_vectorBytes (vector : List type.Carrier) :
    type.vectorOfBytes vector.length (type.vectorBytes vector) = vector := by
  induction vector with
  | nil => rfl
  | cons a vector ih =>
    have hlen := type.length_toBytes a
    show type.ofBytes ((type.toBytes a ++ type.vectorBytes vector).take type.sizeof) ::
      type.vectorOfBytes vector.length
        ((type.toBytes a ++ type.vectorBytes vector).drop type.sizeof) = a :: vector
    rw [take_left' hlen, drop_left' hlen, ofBytes_toBytes, ih]

theorem appends_encode (value : type.Carrier) :
    Appends (type.encode uninitialized value) 1 := by
  apply (appends_encodeFixedLengthData _ _).mono
  rw [length_toBytes]
  exact type.sizeof_pos

theorem appends_encodeElements (elements : List type.Carrier) :
    Appends (type.encodeElements uninitialized elements) (elements.length * type.sizeof) := by
  apply (appends_encodeFixedLengthData _ _).mono
  rw [length_vectorBytes]

end

end Arithmetic

theorem appends_encodeUInt32 (n : ℕ) : Appends (encodeUInt32 uninitialized n) 1 :=
  appends_encode .uint32 _

theorem appends_encodeUInt64 (n : ℕ) : Appends (encodeUInt64 uninitialized n) 1 :=
  appends_encode .uint64 _

theorem CString.appends_encode (string : CString) : Appends (string.encode uninitialized) 1 := by
  cases string with
  | null => exact appends_encodeUInt32 _
  | ofBytes bytes length_lt =>
    exact ((appends_encodeUInt32 _).comp (appends_encodeElements .uint8 _)).mono
      (Nat.le_add_right _ _)

theorem WTFString.appends_encode (string : WTFString) :
    Appends (string.encode uninitialized) 1 := by
  cases string with
  | null => exact appends_encodeUInt32 _
  | of8Bit characters length_lt =>
    exact (((appends_encodeUInt32 _).comp (Arithmetic.appends_encode .bool true)).comp
      (appends_encodeElements .uint8 _)).mono (by omega)
  | of16Bit characters ne_nil length_lt =>
    exact (((appends_encodeUInt32 _).comp (Arithmetic.appends_encode .bool false)).comp
      (appends_encodeElements .uint16 _)).mono (by omega)

theorem KeyType.appends_encode (type : KeyType) (value : type.Value) :
    Appends (type.encode uninitialized value) 1 := by
  induction type with
  | arithmetic type => exact type.appends_encode value
  | string => exact WTFString.appends_encode value
  | cString => exact CString.appends_encode value
  | pair first second hfirst hsnd =>
    exact ((hfirst value.1).comp (hsnd value.2)).mono (by omega)

theorem VectorArgumentCoder.appends_encode (type : ArgType)
    {encodeOne : type.Value → ArgumentEncoder → ArgumentEncoder}
    (h : ∀ value, Appends (encodeOne value) 1) (vector : List type.Value) :
    Appends (encode uninitialized type encodeOne vector) (1 + vector.length) := by
  by_cases harith : type.IsArithmetic
  · obtain ⟨type, rfl⟩ := harith
    apply ((appends_encodeUInt64 _).comp (type.appends_encodeElements vector)).mono
    have hle := Nat.le_mul_of_pos_right vector.length type.sizeof_pos
    omega
  · intro encoder
    rw [encode_of_not_isArithmetic uninitialized harith]
    exact (appends_encodeUInt64 _).comp (Appends.each h _) encoder

theorem ArgType.appends_encode (type : ArgType) (value : type.Value) :
    Appends (type.encode uninitialized value) 1 := by
  induction type with
  | plain type => exact type.appends_encode value
  | byteArray =>
    exact ((appends_encodeUInt64 _).comp (appends_encodeFixedLengthData _ _)).mono (by omega)
  | optional type ih =>
    cases value with
    | none => exact Arithmetic.appends_encode .bool false
    | some value =>
      exact ((Arithmetic.appends_encode .bool true).comp (ih value)).mono (by omega)
  | pair first second hfirst hsnd =>
    exact ((hfirst value.1).comp (hsnd value.2)).mono (by omega)
  | vector type ih =>
    exact (VectorArgumentCoder.appends_encode type ih value).mono (by omega)
  | hashMap key traits mapped ih =>
    apply ((appends_encodeUInt64 _).comp (Appends.each _ value)).mono (by omega)
    intro entry
    exact ((key.appends_encode entry.1).comp (ih entry.2)).mono (by omega)
  | hashSet key traits =>
    exact ((appends_encodeUInt64 _).comp (Appends.each key.appends_encode value)).mono (by omega)

/-! ## Decoders that follow -/

/-- The decoder of a buffer whose position is at an offset. -/
structure At (buffer : ℕ) (bytes : List UInt8) (offset : ℕ) (decoder : ArgumentDecoder) : Prop where
  buffer_eq : decoder.buffer = buffer
  bytes_eq : decoder.bytes = bytes
  pos_eq : decoder.bufferPos = buffer + offset

/-- Decoding what was encoded returns, with a result that satisfies `post`, and stops at the
end of the encoding. -/
def Decodes {α : Type} (encode : ArgumentEncoder → ArgumentEncoder) (m : Decode α)
    (post : α → Prop) : Prop :=
  ∀ (buffer : ℕ) (bytes : List UInt8) (encoder : ArgumentEncoder), 8 ∣ buffer →
    FitsInMemory buffer bytes.length → (encode encoder).buffer <+: bytes →
    Meets (At buffer bytes encoder.bufferSize) m
      (fun a decoder => post a ∧ At buffer bytes (encode encoder).bufferSize decoder)
      (fun _ _ => False)

namespace Decodes

variable {α β : Type} {encode encode' : ArgumentEncoder → ArgumentEncoder} {m : Decode α}
  {f : α → Decode β} {post : α → Prop} {post' : β → Prop} {size : ℕ}

theorem mono {post' : α → Prop} (h : Decodes encode m post) (himp : ∀ a, post a → post' a) :
    Decodes encode m post' := by
  intro buffer bytes encoder haligned hfits hbytes
  apply (h buffer bytes encoder haligned hfits hbytes).mono (fun _ h => h)
  · intro a decoder hpost
    exact ⟨himp a hpost.1, hpost.2⟩
  · intro _ _ h
    exact h

theorem bind (happends : Appends encode' size) (h : Decodes encode m post)
    (h' : ∀ a, post a → Decodes encode' (f a) post') :
    Decodes (fun encoder => encode' (encode encoder)) (m >>= f) post' := by
  intro buffer bytes encoder haligned hfits hbytes
  have hfirst := (happends.buffer_isPrefix (encode encoder)).trans hbytes
  refine (h buffer bytes encoder haligned hfits hfirst).bind fun a => ?_
  apply Meets.of_imp
  intro ha
  exact h' a ha buffer bytes (encode encoder) haligned hfits hbytes

theorem pure {a : α} (h : post a) : Decodes (fun encoder => encoder) (Pure.pure a) post := by
  intro buffer bytes encoder _ _ _
  exact Meets.pure fun decoder hat => ⟨h, hat⟩

theorem bind_id (h : Decodes encode m post)
    (h' : ∀ a, post a → Decodes (fun encoder => encoder) (f a) post') :
    Decodes encode (m >>= f) post' := by
  have happends : Appends (fun encoder => encoder) 0 :=
    fun encoder => ⟨[], (append_nil _).symm, Nat.zero_le 0⟩
  have hbind := Decodes.bind happends h h'
  exact hbind

theorem bind_pure (h : Decodes encode m post) {g : α → β} (hg : ∀ a, post a → post' (g a)) :
    Decodes encode (m >>= fun a => Pure.pure (g a)) post' :=
  h.bind_id fun a ha => pure (hg a ha)

theorem tryCatch {handle : Stop → Decode α} (h : Decodes encode m post) :
    Decodes encode (tryCatch m handle) post := by
  intro buffer bytes encoder haligned hfits hbytes
  apply (h buffer bytes encoder haligned hfits hbytes).tryCatch
  intro _ decoder hfalse
  exact hfalse.elim

theorem of_appends (happends : Appends encode size)
    (h : size < 2 ^ 64 → Decodes encode m post) : Decodes encode m post := by
  intro buffer bytes encoder haligned hfits hbytes
  have hsize := happends.size_le encoder
  have hlen : (encode encoder).bufferSize ≤ bytes.length := hbytes.length_le
  unfold FitsInMemory at hfits
  exact h (by omega) buffer bytes encoder haligned hfits hbytes

end Decodes

theorem Alignment.toNat_dvd {alignment : Alignment} (h : alignment.log ≤ 3) : alignment.toNat ∣ 8 :=
  Nat.pow_dvd_pow 2 h

theorem bufferSize_encodeFixedLengthData (uninitialized : ℕ → UInt8)
    (encoder : ArgumentEncoder) (data : List UInt8) (alignment : Alignment) :
    (encoder.encodeFixedLengthData uninitialized data alignment).bufferSize =
      roundUp encoder.bufferSize alignment.toNat + data.length := by
  have hle : encoder.bufferSize ≤ roundUp encoder.bufferSize alignment.toNat :=
    le_roundUp alignment.toNat_pos
  show ((encoder.reserve _).buffer ++ _ ++ data).length = _
  rw [ArgumentEncoder.reserve_buffer, length_append, length_append, ArgumentEncoder.length_padding]
  show encoder.bufferSize + (roundUp encoder.bufferSize alignment.toNat - encoder.bufferSize) +
    data.length = _
  omega

theorem drop_roundUp_encodeFixedLengthData (uninitialized : ℕ → UInt8)
    (encoder : ArgumentEncoder) (data : List UInt8) (alignment : Alignment) :
    (encoder.encodeFixedLengthData uninitialized data alignment).buffer.drop
      (roundUp encoder.bufferSize alignment.toNat) = data := by
  have hle : encoder.bufferSize ≤ roundUp encoder.bufferSize alignment.toNat :=
    le_roundUp alignment.toNat_pos
  show ((encoder.reserve _).buffer ++ _ ++ data).drop _ = _
  rw [ArgumentEncoder.reserve_buffer]
  apply drop_left'
  rw [length_append, ArgumentEncoder.length_padding]
  show encoder.bufferSize + (roundUp encoder.bufferSize alignment.toNat - encoder.bufferSize) = _
  omega

section FixedLength

variable {buffer : ℕ} {bytes : List UInt8} {encoder : ArgumentEncoder} {decoder : ArgumentDecoder}
  {alignment : Alignment} {data : List UInt8} (haligned : 8 ∣ buffer)
  (hfits : FitsInMemory buffer bytes.length) (hlog : alignment.log ≤ 3)
  (hbytes : (encoder.encodeFixedLengthData uninitialized data alignment).buffer <+: bytes)

include hbytes in
theorem roundUp_add_le :
    roundUp encoder.bufferSize alignment.toNat + data.length ≤ bytes.length := by
  have hlen := hbytes.length_le
  rw [← bufferSize_encodeFixedLengthData uninitialized]
  exact hlen

include haligned hfits hlog hbytes

theorem At.roundUpToAlignment_eq (h : At buffer bytes encoder.bufferSize decoder) :
    roundUpToAlignment decoder.bufferPos alignment.toNat =
      buffer + roundUp encoder.bufferSize alignment.toNat := by
  have hle := roundUp_add_le hbytes
  have hroundUp : encoder.bufferSize ≤ roundUp encoder.bufferSize alignment.toNat :=
    le_roundUp alignment.toNat_pos
  unfold FitsInMemory at hfits
  rw [h.pos_eq, IPC.roundUpToAlignment_eq hlog (by omega), roundUp_base_add alignment.toNat_pos
    ((Alignment.toNat_dvd hlog).trans haligned)]

theorem At.large_enough (h : At buffer bytes encoder.bufferSize decoder) :
    alignedBufferIsLargeEnoughToContain (roundUpToAlignment decoder.bufferPos alignment.toNat)
      decoder.bufferEnd data.length := by
  have hle := roundUp_add_le hbytes
  rw [h.roundUpToAlignment_eq haligned hfits hlog hbytes, bufferEnd, h.buffer_eq, h.bytes_eq]
  constructor <;> omega

end FixedLength

theorem decodes_fixedLengthData (data : List UInt8) {alignment : Alignment}
    (hlog : alignment.log ≤ 3) :
    Decodes (fun encoder => encoder.encodeFixedLengthData uninitialized data alignment)
      (decodeFixedLengthData data.length alignment) (fun a => a = data) := by
  intro buffer bytes encoder haligned hfits hbytes decoder h
  have hround := h.roundUpToAlignment_eq haligned hfits hlog hbytes
  unfold decodeFixedLengthData
  rw [exec_bind_ok (exec_alignBufferPosition (h.large_enough haligned hfits hlog hbytes)),
    exec_readBuffer]
  refine .inl ⟨_, _, rfl, ?_, ?_⟩
  · obtain ⟨rest, rfl⟩ := hbytes
    have hdrop := drop_roundUp_encodeFixedLengthData uninitialized encoder data alignment
    have hsize := bufferSize_encodeFixedLengthData uninitialized encoder data alignment
    rw [hround, h.bytes_eq, h.buffer_eq, Nat.add_sub_cancel_left, drop_append_of_le_length,
      hdrop, take_left]
    exact (Nat.le_add_right _ _).trans hsize.ge
  · rw [bufferSize_encodeFixedLengthData]
    refine { buffer_eq := h.buffer_eq, bytes_eq := h.bytes_eq, pos_eq := ?_ }
    rw [hround, add_assoc]

/-! ## The coders -/

namespace Arithmetic

theorem decodes (type : Arithmetic) (value : type.Carrier) :
    Decodes (type.encode uninitialized value) type.decode (fun a => a = value) := by
  have hdata : Decodes (type.encode uninitialized value) _ _ :=
    decodes_fixedLengthData (type.toBytes value) type.alignment_log_le
  rw [length_toBytes] at hdata
  apply hdata.bind_pure
  intro a ha
  rw [ha, ofBytes_toBytes]

variable {type : Arithmetic} {elements : List type.Carrier} {α : Type} {m : Decode α}
  {post : α → Prop}

theorem decodes_elements (type : Arithmetic) (elements : List type.Carrier) :
    Decodes (type.encodeElements uninitialized elements) (type.decodeElements elements.length)
      (fun a => a = elements) := by
  apply Decodes.of_appends (type.appends_encodeElements elements)
  intro hsize
  have hdata : Decodes (type.encodeElements uninitialized elements) _ _ :=
    decodes_fixedLengthData (type.vectorBytes elements) type.alignment_log_le
  rw [length_vectorBytes] at hdata
  unfold decodeElements
  rw [Nat.mod_eq_of_lt hsize]
  have hpure : Decodes (type.encodeElements uninitialized elements) (do
      let data ← decodeFixedLengthData (elements.length * type.sizeof) type.alignment
      Pure.pure (type.vectorOfBytes elements.length data)) (fun a => a = elements) := by
    apply hdata.bind_pure
    rintro a rfl
    exact vectorOfBytes_vectorBytes type elements
  intro buffer bytes encoder haligned hfits hbytes decoder h
  have hat : At buffer bytes encoder.bufferSize
      { decoder with
        accesses := .resize decoder.bufferPos (elements.length * type.sizeof) ::
          decoder.accesses } :=
    { buffer_eq := h.buffer_eq, bytes_eq := h.bytes_eq, pos_eq := h.pos_eq }
  exact hpure buffer bytes encoder haligned hfits hbytes _ hat

theorem decodes_checkBuffer (h : Decodes (type.encodeElements uninitialized elements) m post) :
    Decodes (type.encodeElements uninitialized elements)
      (do type.checkBuffer elements.length; m) post := by
  apply Decodes.of_appends (type.appends_encodeElements elements)
  intro hsize buffer bytes encoder haligned hfits hbytes decoder hat
  have hlarge := hat.large_enough haligned hfits type.alignment_log_le hbytes
  rw [length_vectorBytes] at hlarge
  have hnum : elements.length ≤ (2 ^ 64 - 1) / type.sizeof := by
    rw [Nat.le_div_iff_mul_le type.sizeof_pos]
    omega
  have hcheck : exec (type.checkBuffer elements.length) decoder = (.ok (), decoder) := by
    unfold checkBuffer
    rw [exec_bind_ok (exec_bufferIsLargeEnoughToContain _ _ _ decoder), Nat.mod_eq_of_lt hsize,
      if_pos (decide_eq_true ⟨hnum, hlarge⟩)]
    rfl
  rw [exec_bind_ok hcheck]
  exact h buffer bytes encoder haligned hfits hbytes decoder hat

end Arithmetic

theorem decodes_uint32 {n : ℕ} (h : n < 2 ^ 32) :
    Decodes (encodeUInt32 uninitialized n) decodeUInt32 (fun a => a = n) := by
  apply (decodes .uint32 _).bind_pure
  rintro a rfl
  exact (BitVec.toNat_ofNat _ _).trans (Nat.mod_eq_of_lt h)

theorem decodes_uint64 {n : ℕ} (h : n < 2 ^ 64) :
    Decodes (encodeUInt64 uninitialized n) decodeUInt64 (fun a => a = n) := by
  apply (decodes .uint64 _).bind_pure
  rintro a rfl
  exact (BitVec.toNat_ofNat _ _).trans (Nat.mod_eq_of_lt h)

theorem decodes_byteArray (bytes : List UInt8) :
    Decodes (encodeVariableLengthByteArray uninitialized bytes) decodeVariableLengthByteArray
      (fun a => a = bytes) := by
  apply Decodes.of_appends
    ((appends_encodeUInt64 bytes.length).comp (appends_encodeFixedLengthData bytes ⟨0⟩))
  intro hsize
  apply Decodes.bind (appends_encodeFixedLengthData _ _) (decodes_uint64 (by omega))
  rintro _ rfl
  exact decodes_fixedLengthData bytes (by decide)

theorem takeD_eq_self {α : Type} (l : List α) (a : α) : l.takeD l.length a = l := by
  rw [takeD_eq_take a le_rfl, take_length]

theorem CString.decodes (string : CString) :
    Decodes (string.encode uninitialized) CString.decode (fun a => a = string) := by
  cases string with
  | null =>
    apply (decodes_uint32 (n := nullLength) (by decide)).bind_id
    rintro _ rfl
    exact Decodes.pure rfl
  | ofBytes bytes length_lt =>
    apply Decodes.bind (appends_encodeElements .uint8 bytes)
      (decodes_uint32 (length_lt.trans (by decide)))
    rintro _ rfl
    have hne : bytes.length ≠ nullLength := by
      unfold nullLength
      omega
    rw [if_neg hne, dif_pos length_lt]
    apply decodes_checkBuffer
    apply (decodes_elements .uint8 bytes).bind_pure
    rintro bytes rfl
    congr 1
    exact takeD_eq_self bytes default

namespace WTFString

/-- `StringImpl::createUninitialized` allocates a string of this length. -/
def Allocatable : WTFString → Prop
  | null => True
  | of8Bit characters _ => characters.length ≤ maxStringLength 1
  | of16Bit characters _ _ => characters.length ≤ maxStringLength 2

theorem lt_nullLength {length sizeofCharacter : ℕ}
    (h : length ≤ maxStringLength sizeofCharacter) : length < nullLength := by
  have hle : maxStringLength sizeofCharacter ≤ 2 ^ 32 - 1 - sizeofStringImpl := Nat.div_le_self _ _
  unfold nullLength
  unfold sizeofStringImpl at hle
  omega

theorem decodes {string : WTFString} (h : string.Allocatable) :
    Decodes (string.encode uninitialized) WTFString.decode (fun a => a = string) := by
  cases string with
  | null =>
    apply (decodes_uint32 (n := nullLength) (by decide)).bind_id
    rintro _ rfl
    exact Decodes.pure rfl
  | of8Bit characters length_lt =>
    apply Decodes.bind ((Arithmetic.appends_encode .bool true).comp
      (Arithmetic.appends_encodeElements .uint8 characters)) (decodes_uint32 length_lt)
    rintro _ rfl
    rw [if_neg (lt_nullLength h).ne]
    apply Decodes.bind (Arithmetic.appends_encodeElements .uint8 characters)
      (Arithmetic.decodes .bool true)
    rintro _ rfl
    apply Arithmetic.decodes_checkBuffer
    rw [dif_pos (show characters.length ≤ maxStringLength 1 from h)]
    apply (decodes_elements .uint8 characters).bind_pure
    rintro characters rfl
    congr 1
    exact takeD_eq_self characters default
  | of16Bit characters ne_nil length_lt =>
    apply Decodes.bind ((Arithmetic.appends_encode .bool false).comp
      (Arithmetic.appends_encodeElements .uint16 characters)) (decodes_uint32 length_lt)
    rintro _ rfl
    rw [if_neg (lt_nullLength h).ne]
    apply Decodes.bind (Arithmetic.appends_encodeElements .uint16 characters)
      (Arithmetic.decodes .bool false)
    rintro _ rfl
    apply Arithmetic.decodes_checkBuffer
    rw [dif_pos (show characters.length ≤ maxStringLength 2 from h)]
    have hlen : characters.length ≠ 0 := mt length_eq_zero_iff.mp ne_nil
    apply (decodes_elements .uint16 characters).bind_id
    rintro characters rfl
    rw [dif_neg hlen]
    apply Decodes.pure
    congr 1
    exact takeD_eq_self characters default

end WTFString

variable {tables : Tables}

section Loops

variable {α κ : Type} {encodeOne : α → ArgumentEncoder → ArgumentEncoder} {decodeOne : Decode α}
  {R : α → α → Prop} {l : List α}

theorem decodes_each (happends : ∀ a, Appends (encodeOne a) 1)
    (h : ∀ a ∈ l, Decodes (encodeOne a) decodeOne (R a)) :
    Decodes (encodeEach encodeOne l) (decodeEach decodeOne l.length) (List.Forall₂ R l) := by
  induction l with
  | nil => exact Decodes.pure .nil
  | cons a l ih =>
    apply Decodes.bind (Appends.each happends l) (h a mem_cons_self)
    intro a' ha'
    apply (ih fun b hb => h b (mem_cons_of_mem a hb)).bind_pure
    intro rest hrest
    exact .cons ha' hrest

/-- The entries of a table are new when they are added one after another, because their keys
are valid and pairwise different. -/
theorem decodes_table {traits : HashTraits κ} {keyOf : α → κ} {table : List α}
    (happends : ∀ a, Appends (encodeOne a) 1)
    (h : ∀ a ∈ l, Decodes (encodeOne a) decodeOne (R a))
    (hkey : ∀ a b, R a b → keyOf b = keyOf a)
    (hvalid : ∀ a ∈ l, traits.isValidKey (keyOf a) = true)
    (hpairwise : l.Pairwise fun a b => traits.equal (keyOf a) (keyOf b) = false)
    (hnew : ∀ present ∈ table, ∀ a ∈ l, traits.equal (keyOf present) (keyOf a) = false) :
    Decodes (encodeEach encodeOne l)
      (decodeTable decodeOne (tables.add traits keyOf) l.length table)
      (fun result => ∃ decoded, List.Forall₂ R l decoded ∧ result.Perm (decoded ++ table)) := by
  induction l generalizing table with
  | nil => exact Decodes.pure ⟨[], .nil, .refl _⟩
  | cons a l ih =>
    apply Decodes.bind (Appends.each happends l) (h a mem_cons_self)
    intro a' ha'
    have hadd : tables.add traits keyOf table a' = some (tables.place α table a', true) := by
      unfold Tables.add
      rw [hkey a a' ha', if_pos (hvalid a mem_cons_self), if_neg]
      rw [Bool.not_eq_true, any_eq_false]
      intro present hpres
      rw [hnew present hpres a mem_cons_self]
      decide
    rw [hadd]
    have hperm := tables.place_perm α table a'
    obtain ⟨hfirst, hrest⟩ := pairwise_cons.mp hpairwise
    apply (ih (fun b hb => h b (mem_cons_of_mem a hb))
      (fun b hb => hvalid b (mem_cons_of_mem a hb)) hrest _).mono
    · rintro result ⟨decoded, hdec, hres⟩
      refine ⟨a' :: decoded, .cons ha' hdec, ?_⟩
      calc result
          _ |>.Perm (decoded ++ tables.place α table a') := hres
          _ |>.Perm (decoded ++ a' :: table) := hperm.append_left decoded
          _ |>.Perm (a' :: decoded ++ table) := perm_middle
    · intro present hpres b hb
      rcases mem_cons.mp (hperm.mem_iff.mp hpres) with rfl | hpres
      · rw [hkey a present ha']
        exact hfirst b hb
      · exact hnew present hpres b (mem_cons_of_mem a hb)

end Loops

namespace KeyType

def Allocatable : (type : KeyType) → type.Value → Prop
  | arithmetic _, _ => True
  | string, value => WTFString.Allocatable value
  | cString, _ => True
  | pair first second, value => first.Allocatable value.1 ∧ second.Allocatable value.2

theorem decodes (type : KeyType) {value : type.Value} (h : type.Allocatable value) :
    Decodes (type.encode uninitialized value) type.decode (fun a => a = value) := by
  induction type with
  | arithmetic type => exact type.decodes value
  | string => exact WTFString.decodes h
  | cString => exact CString.decodes value
  | pair first second hfirst hsnd =>
    apply Decodes.bind (second.appends_encode value.2) (hfirst h.1)
    rintro _ rfl
    apply (hsnd h.2).bind_pure
    rintro _ rfl
    rfl

end KeyType

namespace ArgType

/-- Every string in the value is as short as the strings that are allocated. -/
def Allocatable : (type : ArgType) → type.Value → Prop
  | plain type, value => type.Allocatable value
  | byteArray, _ => True
  | optional type, value => ∀ a ∈ value, type.Allocatable a
  | pair first second, value => first.Allocatable value.1 ∧ second.Allocatable value.2
  | vector type, value => ∀ a ∈ value, type.Allocatable a
  | hashMap key _ mapped, value =>
    ∀ entry ∈ value, key.Allocatable entry.1 ∧ mapped.Allocatable entry.2
  | hashSet key _, value => ∀ a ∈ value, key.Allocatable a

/-- The tables in the value have valid keys, no two of them equal. -/
def HasValidKeys : (type : ArgType) → type.Value → Prop
  | plain _, _ => True
  | byteArray, _ => True
  | optional type, value => ∀ a ∈ value, type.HasValidKeys a
  | pair first second, value => first.HasValidKeys value.1 ∧ second.HasValidKeys value.2
  | vector type, value => ∀ a ∈ value, type.HasValidKeys a
  | hashMap _ traits mapped, value =>
    (∀ entry ∈ value, traits.isValidKey entry.1 = true ∧ mapped.HasValidKeys entry.2) ∧
      value.Pairwise fun a b => traits.equal a.1 b.1 = false
  | hashSet _ traits, value =>
    (∀ a ∈ value, traits.isValidKey a = true) ∧ value.Pairwise fun a b => traits.equal a b = false

/-- Equal values: tables are equal when they have the same entries, in any order. -/
def Equal : (type : ArgType) → type.Value → type.Value → Prop
  | plain _, a, b => b = a
  | byteArray, a, b => b = a
  | optional type, a, b => Option.Rel type.Equal a b
  | pair first second, a, b => first.Equal a.1 b.1 ∧ second.Equal a.2 b.2
  | vector type, a, b => List.Forall₂ type.Equal a b
  | hashMap _ _ mapped, a, b =>
    ∃ entries, List.Forall₂ (fun x y => y.1 = x.1 ∧ mapped.Equal x.2 y.2) a entries ∧
      b.Perm entries
  | hashSet _ _, a, b => b.Perm a

end ArgType

theorem VectorArgumentCoder.decodes {type : ArgType}
    {encodeOne : type.Value → ArgumentEncoder → ArgumentEncoder} {decodeOne : Decode type.Value}
    {vector : List type.Value} (happends : ∀ a, Appends (encodeOne a) 1)
    (h : ∀ a ∈ vector, Decodes (encodeOne a) decodeOne (type.Equal a)) :
    Decodes (encode uninitialized type encodeOne vector)
      (decode type decodeOne) (List.Forall₂ type.Equal vector) := by
  apply Decodes.of_appends (appends_encode type happends vector)
  intro hsize
  by_cases harith : type.IsArithmetic
  · obtain ⟨type, rfl⟩ := harith
    apply Decodes.bind (type.appends_encodeElements vector) (decodes_uint64 (by omega))
    rintro _ rfl
    apply decodes_checkBuffer
    apply (type.decodes_elements vector).tryCatch.mono
    rintro _ rfl
    exact forall₂_same.mpr fun _ _ => rfl
  · rw [decode_of_not_isArithmetic harith]
    have henc : encode uninitialized type encodeOne vector =
        fun encoder => encodeEach encodeOne vector
          (encodeUInt64 uninitialized vector.length encoder) :=
      funext (encode_of_not_isArithmetic uninitialized harith _ _)
    rw [henc]
    apply Decodes.bind (Appends.each happends vector) (decodes_uint64 (by omega))
    rintro _ rfl
    exact decodes_each happends h

theorem decodes_table_of_size {α κ : Type} {encodeOne : α → ArgumentEncoder → ArgumentEncoder}
    {decodeOne : Decode α} {R : α → α → Prop} {l : List α}
    {traits : HashTraits κ} {keyOf : α → κ} (happends : ∀ a, Appends (encodeOne a) 1)
    (h : ∀ a ∈ l, Decodes (encodeOne a) decodeOne (R a))
    (hkey : ∀ a b, R a b → keyOf b = keyOf a)
    (hvalid : ∀ a ∈ l, traits.isValidKey (keyOf a) = true)
    (hpairwise : l.Pairwise fun a b => traits.equal (keyOf a) (keyOf b) = false) :
    Decodes (fun encoder => encodeEach encodeOne l (encodeUInt64 uninitialized l.length encoder))
      (do
        let size ← decodeUInt64
        decodeTable decodeOne (tables.add traits keyOf) size [])
      (fun result => ∃ decoded, List.Forall₂ R l decoded ∧ result.Perm decoded) := by
  apply Decodes.of_appends ((appends_encodeUInt64 _).comp (Appends.each happends l))
  intro hsize
  apply Decodes.bind (Appends.each happends l) (decodes_uint64 (by omega))
  rintro _ rfl
  apply (decodes_table happends h hkey hvalid hpairwise (by simp)).mono
  rintro result ⟨decoded, hdec, hperm⟩
  rw [append_nil] at hperm
  exact ⟨decoded, hdec, hperm⟩

theorem ArgType.decodes (tables : Tables) (type : ArgType) {value : type.Value}
    (hkeys : type.HasValidKeys value) (hstrs : type.Allocatable value) :
    Decodes (type.encode uninitialized value) (type.decode tables) (type.Equal value) := by
  induction type with
  | plain type => exact type.decodes hstrs
  | byteArray => exact decodes_byteArray value
  | optional type ih =>
    cases value with
    | none =>
      apply (Arithmetic.decodes .bool false).bind_id
      rintro _ rfl
      exact Decodes.pure .none
    | some value =>
      apply Decodes.bind (type.appends_encode value) (Arithmetic.decodes .bool true)
      rintro _ rfl
      apply (ih (hkeys value rfl) (hstrs value rfl)).bind_pure
      intro a ha
      exact .some ha
  | pair first second hfirst hsnd =>
    apply Decodes.bind (second.appends_encode value.2) (hfirst hkeys.1 hstrs.1)
    intro a ha
    apply (hsnd hkeys.2 hstrs.2).bind_pure
    intro b hb
    exact ⟨ha, hb⟩
  | vector type ih =>
    apply VectorArgumentCoder.decodes type.appends_encode
    intro a ha
    exact ih (hkeys a ha) (hstrs a ha)
  | hashMap key traits mapped ih =>
    have happends : ∀ entry : key.Value × mapped.Value,
        Appends (fun encoder => mapped.encode uninitialized entry.2
          (key.encode uninitialized entry.1 encoder)) 1 := fun entry =>
      ((key.appends_encode entry.1).comp (mapped.appends_encode entry.2)).mono (by omega)
    apply decodes_table_of_size happends _ (fun _ _ h => h.1) (fun a ha => (hkeys.1 a ha).1) hkeys.2
    intro entry hentry
    apply Decodes.bind (mapped.appends_encode entry.2) (key.decodes (hstrs entry hentry).1)
    intro k hk
    apply (ih (hkeys.1 entry hentry).2 (hstrs entry hentry).2).bind_pure
    intro v hv
    exact ⟨hk, hv⟩
  | hashSet key traits =>
    apply (decodes_table_of_size key.appends_encode (fun a ha => key.decodes (hstrs a ha))
      (fun _ _ h => h) hkeys.1 hkeys.2).mono
    rintro result ⟨decoded, hdec, hperm⟩
    have heq : decoded = value := by
      clear hkeys hstrs hperm
      induction hdec with
      | nil => rfl
      | cons h _ ih => rw [h, ih]
    rw [heq] at hperm
    exact hperm

/-! ## Sequences of arguments -/

abbrev Argument := (type : ArgType) × type.Value

def encodeArguments (uninitialized : ℕ → UInt8) (arguments : List Argument) :
    ArgumentEncoder → ArgumentEncoder :=
  encodeEach (fun argument => argument.1.encode uninitialized argument.2) arguments

def decodeArguments (tables : Tables) : List ArgType → Decode (List Argument)
  | [] => pure []
  | type :: types => do
    let value ← type.decode tables
    let rest ← decodeArguments tables types
    pure (⟨type, value⟩ :: rest)

inductive Argument.Equal : Argument → Argument → Prop
  | intro {type : ArgType} {a b : type.Value} : type.Equal a b → Argument.Equal ⟨type, a⟩ ⟨type, b⟩

/-- Decoding the arguments from an aligned copy of the buffer gives equal arguments and ends
at the end of the buffer. -/
def RoundTrips (uninitialized : ℕ → UInt8) (tables : Tables) (arguments : List Argument) : Prop :=
  ∀ (buffer : ℕ) (bytes : List UInt8),
    bytes = (encodeArguments uninitialized arguments .initial).buffer → 8 ∣ buffer →
    FitsInMemory buffer bytes.length →
    ∃ decoded decoder,
      exec (decodeArguments tables (arguments.map Sigma.fst)) (ofBuffer buffer bytes) =
        (.ok decoded, decoder) ∧
      List.Forall₂ Argument.Equal arguments decoded ∧ decoder.bufferPos = decoder.bufferEnd

variable {arguments : List Argument}

theorem decodes_arguments (hkeys : ∀ argument ∈ arguments, argument.1.HasValidKeys argument.2)
    (hstrs : ∀ argument ∈ arguments, argument.1.Allocatable argument.2) :
    Decodes (encodeArguments uninitialized arguments)
      (decodeArguments tables (arguments.map Sigma.fst))
      (List.Forall₂ Argument.Equal arguments) := by
  induction arguments with
  | nil => exact Decodes.pure .nil
  | cons argument arguments ih =>
    have happends : ∀ argument : Argument, Appends (argument.1.encode uninitialized argument.2) 1 :=
      fun argument => argument.1.appends_encode argument.2
    apply Decodes.bind (Appends.each happends arguments) (argument.1.decodes tables
      (hkeys argument mem_cons_self) (hstrs argument mem_cons_self))
    intro value hvalue
    apply (ih (fun a ha => hkeys a (mem_cons_of_mem argument ha))
      (fun a ha => hstrs a (mem_cons_of_mem argument ha))).bind_pure
    intro rest hrest
    exact .cons ⟨hvalue⟩ hrest

theorem roundTrips_of_allocatable
    (hkeys : ∀ argument ∈ arguments, argument.1.HasValidKeys argument.2)
    (hstrs : ∀ argument ∈ arguments, argument.1.Allocatable argument.2) :
    RoundTrips uninitialized tables arguments := by
  rintro buffer bytes rfl haligned hfits
  have hat : At buffer (encodeArguments uninitialized arguments .initial).buffer
      ArgumentEncoder.initial.bufferSize
      (ofBuffer buffer (encodeArguments uninitialized arguments .initial).buffer) :=
    { buffer_eq := rfl, bytes_eq := rfl, pos_eq := rfl }
  rcases decodes_arguments hkeys hstrs buffer _ .initial haligned hfits (prefix_refl _) _
    hat with ⟨decoded, decoder, hexec, hequal, hend⟩ | ⟨_, _, -, hfalse⟩
  · refine ⟨decoded, decoder, hexec, hequal, ?_⟩
    rw [hend.pos_eq, bufferEnd, hend.buffer_eq, hend.bytes_eq, ArgumentEncoder.bufferSize]
  · exact hfalse.elim

/-- The length of a string that has the length which stands for the null string is decoded as
the null string. -/
theorem exec_decode_of_length_eq {characters : List LChar}
    (hlen : characters.length = nullLength) (hlt : characters.length < 2 ^ 32) {buffer : ℕ}
    (haligned : 8 ∣ buffer) {bytes : List UInt8}
    (hbytes : bytes = (encodeArguments uninitialized
      [⟨.plain .string, .of8Bit characters hlt⟩] .initial).buffer)
    (hfits : FitsInMemory buffer bytes.length) :
    ∃ decoder, exec (decodeArguments tables [.plain .string]) (ofBuffer buffer bytes) =
      (.ok [⟨.plain .string, .null⟩], decoder) := by
  have hbuf : (encodeUInt32 uninitialized nullLength .initial).buffer <+: bytes := by
    rw [hbytes, ← hlen]
    exact ((appends_encode .bool true).comp
      (appends_encodeElements .uint8 characters)).buffer_isPrefix _
  have hat : At buffer bytes ArgumentEncoder.initial.bufferSize (ofBuffer buffer bytes) :=
    { buffer_eq := rfl, bytes_eq := rfl, pos_eq := rfl }
  have hdecodes : Decodes (encodeUInt32 uninitialized nullLength) decodeUInt32
      (fun a => a = nullLength) := decodes_uint32 (by decide)
  rcases hdecodes buffer bytes .initial haligned hfits hbuf _
    hat with ⟨_, decoder, hexec, rfl, -⟩ | ⟨_, _, -, hfalse⟩
  · have hstr : exec WTFString.decode (ofBuffer buffer bytes) = (.ok .null, decoder) := by
      unfold WTFString.decode
      rw [exec_bind_ok hexec, if_pos rfl]
      rfl
    refine ⟨decoder, ?_⟩
    show exec (WTFString.decode >>= fun value => _) _ = _
    rw [exec_bind_ok hstr]
    rfl
  · exact hfalse.elim

theorem bufferSize_le (uninitialized : ℕ → UInt8) (encoder : ArgumentEncoder) (data : List UInt8)
    (alignment : Alignment) :
    (encoder.encodeFixedLengthData uninitialized data alignment).bufferSize ≤
      encoder.bufferSize + alignment.toNat + data.length := by
  have hlt : roundUp encoder.bufferSize alignment.toNat <
    encoder.bufferSize + alignment.toNat := roundUp_lt alignment.toNat_pos
  rw [bufferSize_encodeFixedLengthData]
  omega

namespace Arithmetic

theorem bufferSize_encode_le (type : Arithmetic) (value : type.Carrier)
    (encoder : ArgumentEncoder) :
    (type.encode uninitialized value encoder).bufferSize ≤
      encoder.bufferSize + type.sizeof + type.sizeof := by
  have hle := bufferSize_le uninitialized encoder (type.toBytes value) type.alignment
  rw [length_toBytes] at hle
  exact hle

theorem bufferSize_encodeElements_le (type : Arithmetic) (elements : List type.Carrier)
    (encoder : ArgumentEncoder) :
    (type.encodeElements uninitialized elements encoder).bufferSize ≤
      encoder.bufferSize + type.sizeof + elements.length * type.sizeof := by
  have hle := bufferSize_le uninitialized encoder (type.vectorBytes elements) type.alignment
  rw [length_vectorBytes] at hle
  exact hle

end Arithmetic

theorem not_roundTrips_of_length_eq {characters : List LChar}
    (hlen : characters.length = nullLength) (hlt : characters.length < 2 ^ 32) :
    ¬RoundTrips uninitialized tables [⟨.plain .string, .of8Bit characters hlt⟩] := by
  intro h
  have hfits : FitsInMemory 0 (encodeArguments uninitialized
      [⟨.plain .string, .of8Bit characters hlt⟩] .initial).buffer.length := by
    have hsize : (encodeUInt32 uninitialized characters.length .initial).bufferSize ≤ 0 + 4 + 4 :=
      bufferSize_encode_le .uint32 _ _
    have hsize' : (bool.encode uninitialized true
        (encodeUInt32 uninitialized characters.length .initial)).bufferSize ≤ _ + 1 + 1 :=
      bufferSize_encode_le .bool _ _
    have hsize'' : (uint8.encodeElements uninitialized characters (bool.encode uninitialized true
          (encodeUInt32 uninitialized characters.length .initial))).bufferSize ≤
        _ + 1 + characters.length * 1 :=
      bufferSize_encodeElements_le .uint8 _ _
    show 0 + (uint8.encodeElements uninitialized characters (bool.encode uninitialized true
          (encodeUInt32 uninitialized characters.length .initial))).bufferSize + 9 ≤ 2 ^ 64
    omega
  obtain ⟨decoded, decoder, hexec, hequal, -⟩ := h 0 _ rfl (Nat.dvd_zero 8) hfits
  obtain ⟨decoder', hexec'⟩ := exec_decode_of_length_eq hlen hlt (Nat.dvd_zero 8) rfl hfits
  have hnull := hexec.symm.trans hexec'
  cases hnull
  cases hequal with
  | cons hfirst _ =>
    cases hfirst with
    | intro heq => cases heq

/-- Arguments come back as they were sent, and whatever was received, decoding keeps to the
buffer and fails from the first failure on. -/
theorem roundTrips_and_safe
    (hkeys : ∀ argument ∈ arguments, argument.1.HasValidKeys argument.2)
    (hstrings : ∀ argument ∈ arguments, argument.1.Allocatable argument.2) {buffer : ℕ}
    {bytes : List UInt8} (hfits : FitsInMemory buffer bytes.length) {types : List ArgType}
    {decoder : ArgumentDecoder}
    (hrun : Run (calls tables) (ofBuffer buffer bytes) types decoder) (type : ArgType) :
    RoundTrips uninitialized tables arguments ∧
    (∀ access ∈ (exec (type.decode tables) decoder).2.accesses,
      access.Within buffer (buffer + bytes.length)) ∧
    ∀ failed, exec (type.decode tables) decoder = (.error .failed, failed) →
      ∀ later last, Run (calls tables) failed later last → last.isInvalid ∧
        ∀ type : ArgType, ∃ next, exec (type.decode tables) last = (.error .failed, next) :=
  ⟨roundTrips_of_allocatable hkeys hstrings, safe_of_run hfits hrun type⟩

/-- Tables that iterate in the order of insertion. -/
def insertionOrder : Tables where
  place _ table entry := table ++ [entry]
  place_perm _ table entry := perm_append_singleton entry table
  addInvalid _ _ _ := none

/-- The traits of integer keys: zero marks an empty bucket and all ones a deleted one. -/
def integerTraits (type : Number) : HashTraits (Arithmetic.Carrier (.number type)) where
  equal a b := decide (a = b)
  isEmptyValue a := decide (a = BitVec.zero type.bits)
  isDeletedValue a := decide (a = BitVec.allOnes type.bits)

def someArguments : List Argument :=
  [⟨.plain .string, .of16Bit [955] (by decide) (by decide)⟩,
    ⟨.hashSet (.arithmetic .uint32) (integerTraits .uint32), [7, 9]⟩]

theorem roundTrips_and_safe_someArguments :
    RoundTrips (fun _ => 0) insertionOrder someArguments ∧
    (∀ access ∈ (exec ((ArgType.plain .string).decode insertionOrder)
        (ofBuffer 4096 [5, 0, 0])).2.accesses, access.Within 4096 (4096 + 3)) ∧
    ∀ failed, exec ((ArgType.plain .string).decode insertionOrder) (ofBuffer 4096 [5, 0, 0]) =
        (.error .failed, failed) →
      ∀ later last, Run (calls insertionOrder) failed later last → last.isInvalid ∧
        ∀ type : ArgType, ∃ next,
          exec (type.decode insertionOrder) last = (.error .failed, next) := by
  have hfits : FitsInMemory 4096 [5, 0, 0].length := by
    show 4096 + 3 + 9 ≤ 2 ^ 64
    omega
  have hkeys : ∀ argument ∈ someArguments, argument.1.HasValidKeys argument.2 := by
    intro argument hargument
    rcases mem_cons.mp hargument with rfl | hargument
    · trivial
    · rw [mem_singleton.mp hargument]
      constructor
      · intro a ha
        rcases mem_cons.mp ha with rfl | ha
        · rfl
        · rw [mem_singleton.mp ha]
          rfl
      · apply pairwise_pair.mpr
        rfl
  have hstrings : ∀ argument ∈ someArguments, argument.1.Allocatable argument.2 := by
    intro argument hargument
    rcases mem_cons.mp hargument with rfl | hargument
    · show [(955 : UChar)].length ≤ maxStringLength 2
      decide
    · rw [mem_singleton.mp hargument]
      intro a _
      trivial
  exact roundTrips_and_safe hkeys hstrings hfits (.nil _) (.plain .string)

theorem not_roundTrips_longest :
    ¬∀ (uninitialized : ℕ → UInt8) (tables : Tables) (arguments : List Argument),
      (∀ argument ∈ arguments, argument.1.HasValidKeys argument.2) →
      RoundTrips uninitialized tables arguments := by
  intro h
  have hlength : (List.replicate nullLength (0 : LChar)).length = nullLength :=
    length_replicate
  have hlt : (List.replicate nullLength (0 : LChar)).length < 2 ^ 32 := by
    rw [hlength]
    decide
  apply not_roundTrips_of_length_eq hlength hlt
  apply h (fun _ => 0) insertionOrder
  intro argument hargument
  rw [mem_singleton.mp hargument]
  trivial

end WebKit.IPC
