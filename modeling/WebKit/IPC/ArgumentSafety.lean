import WebKit.IPC.ArgumentCoders
import WebKit.Transition.Run

/-!
# What decoders do with received bytes

Whatever the bytes are, a decoder reads its own buffer only and makes room for no more
elements than the buffer still has bytes for. A decode that fails leaves the decoder
invalid, and an invalid decoder fails every decode and stays invalid. Both facts go
through all coders by the rules for `Safe` and `Rejects`, because every coder begins with
the decode of an arithmetic value.
-/

namespace WebKit.IPC

open Transition VectorArgumentCoder Meets Arithmetic WTFString ArgumentDecoder

def Access.Within (first last : ℕ) : Access → Prop
  | .read address size => first ≤ address ∧ address + size ≤ last
  | .resize address size => first ≤ address ∧ address + size ≤ last

/-- No allocation ends in the last bytes of the address space. -/
def FitsInMemory (buffer size : ℕ) : Prop := buffer + size + 9 ≤ 2 ^ 64

namespace ArgumentDecoder

/-- The decoder of a buffer and its bytes between two decodes. -/
structure Sound (buffer : ℕ) (bytes : List UInt8) (decoder : ArgumentDecoder) : Prop where
  buffer_eq : decoder.buffer = buffer
  bytes_eq : decoder.bytes = bytes
  le_pos : buffer ≤ decoder.bufferPos
  pos_le : decoder.bufferPos ≤ buffer + bytes.length + 1
  within : ∀ access ∈ decoder.accesses, access.Within buffer (buffer + bytes.length)

/-- Between the check of a size and the use of the position. -/
structure Checked (buffer : ℕ) (bytes : List UInt8) (size : ℕ) (decoder : ArgumentDecoder) : Prop
    extends Sound buffer bytes decoder where
  size_le : decoder.bufferPos + size ≤ buffer + bytes.length

structure Invalid (buffer : ℕ) (bytes : List UInt8) (decoder : ArgumentDecoder) : Prop where
  buffer_eq : decoder.buffer = buffer
  bytes_eq : decoder.bytes = bytes
  lt_pos : buffer + bytes.length < decoder.bufferPos
  pos_le : decoder.bufferPos ≤ buffer + bytes.length + 1

variable {buffer : ℕ} {bytes : List UInt8} {decoder : ArgumentDecoder}

theorem Sound.bufferEnd_eq (h : Sound buffer bytes decoder) :
    decoder.bufferEnd = buffer + bytes.length := by
  rw [bufferEnd, h.buffer_eq, h.bytes_eq]

theorem Invalid.bufferEnd_eq (h : Invalid buffer bytes decoder) :
    decoder.bufferEnd = buffer + bytes.length := by
  rw [bufferEnd, h.buffer_eq, h.bytes_eq]

theorem Invalid.isInvalid (h : Invalid buffer bytes decoder) : decoder.isInvalid := by
  unfold ArgumentDecoder.isInvalid
  rw [h.bufferEnd_eq]
  exact h.lt_pos

theorem Sound.invalid (h : Sound buffer bytes decoder) (hinvalid : decoder.isInvalid) :
    Invalid buffer bytes decoder where
  buffer_eq := h.buffer_eq
  bytes_eq := h.bytes_eq
  lt_pos := by
    rw [← h.bufferEnd_eq]
    exact hinvalid
  pos_le := h.pos_le

theorem sound_ofBuffer (buffer : ℕ) (bytes : List UInt8) :
    Sound buffer bytes (ofBuffer buffer bytes) where
  buffer_eq := rfl
  bytes_eq := rfl
  le_pos := le_rfl
  pos_le := by
    show buffer ≤ _
    omega
  within := by
    intro access h
    cases h

end ArgumentDecoder

open ArgumentDecoder

/-- The state in which a decode stops. -/
def Stopped (buffer : ℕ) (bytes : List UInt8) (stop : Stop) (decoder : ArgumentDecoder) : Prop :=
  Sound buffer bytes decoder ∧ (stop = .failed → decoder.isInvalid)

/-- The decode keeps to the buffer, and leaves the decoder invalid when it fails. -/
def Safe {α : Type} (m : Decode α) : Prop :=
  ∀ (buffer : ℕ) (bytes : List UInt8), FitsInMemory buffer bytes.length →
    Meets (Sound buffer bytes) m (fun _ => Sound buffer bytes) (Stopped buffer bytes)

/-- The decode fails on an invalid decoder and leaves it invalid. -/
def Rejects {α : Type} (m : Decode α) : Prop :=
  ∀ (buffer : ℕ) (bytes : List UInt8), FitsInMemory buffer bytes.length →
    Meets (Invalid buffer bytes) m (fun _ _ => False)
      (fun stop decoder => stop = .failed ∧ Invalid buffer bytes decoder)

section Rules

variable {α β : Type}

theorem Safe.pure (a : α) : Safe (Pure.pure a : Decode α) := by
  intro buffer bytes _
  exact Meets.pure fun _ h => h

theorem Safe.bind {m : Decode α} {f : α → Decode β} (hm : Safe m) (hf : ∀ a, Safe (f a)) :
    Safe (m >>= f) := by
  intro buffer bytes hfits
  exact (hm buffer bytes hfits).bind fun a => hf a buffer bytes hfits

theorem Safe.crashed : Safe (throw .crashed : Decode α) := by
  intro buffer bytes _
  apply Meets.throw
  intro decoder h
  refine ⟨h, ?_⟩
  intro hstop
  cases hstop

theorem meets_markInvalid {buffer : ℕ} {bytes : List UInt8} {post : α → ArgumentDecoder → Prop} :
    Meets (Sound buffer bytes) (do markInvalid; throw .failed) post (Stopped buffer bytes) := by
  intro decoder h
  refine .inr ⟨.failed, _, rfl, ?_, ?_⟩
  · have hend := h.bufferEnd_eq
    exact { buffer_eq := h.buffer_eq, bytes_eq := h.bytes_eq, within := h.within
            le_pos := by
              show buffer ≤ decoder.bufferEnd + 1
              omega
            pos_le := by
              show decoder.bufferEnd + 1 ≤ _
              omega }
  · intro _
    show decoder.bufferEnd < decoder.bufferEnd + 1
    omega

theorem Safe.markInvalid : Safe (do markInvalid; throw .failed : Decode α) := by
  intro buffer bytes _
  exact meets_markInvalid

theorem Rejects.bind {m : Decode α} (hm : Rejects m) (f : α → Decode β) : Rejects (m >>= f) := by
  intro buffer bytes hfits
  exact (hm buffer bytes hfits).bind fun a s h => absurd h id

end Rules

/-! ## The decoder -/

variable {alignment : Alignment}

theorem roundUpToAlignment_eq {ptr : ℕ} (hlog : alignment.log ≤ 3) (hptr : ptr + 8 ≤ 2 ^ 64) :
    roundUpToAlignment ptr alignment.toNat = Bits.roundUp ptr alignment.toNat := by
  have hpow : alignment.toNat ≤ 2 ^ 3 := Nat.pow_le_pow_right (by decide) hlog
  have hfits : ptr + 2 ^ alignment.log ≤ 2 ^ 64 := by
    have hle : 2 ^ alignment.log ≤ 8 := hpow
    omega
  exact Bits.toNat_add_mask_and_not_mask (by omega) hfits

section Decoder

variable {buffer : ℕ} {bytes : List UInt8} (hfits : FitsInMemory buffer bytes.length)
include hfits

theorem ArgumentDecoder.Sound.le_roundUp {decoder : ArgumentDecoder}
    (h : Sound buffer bytes decoder) (hlog : alignment.log ≤ 3) :
    decoder.bufferPos ≤ roundUpToAlignment decoder.bufferPos alignment.toNat := by
  have hpos := h.pos_le
  unfold FitsInMemory at hfits
  rw [roundUpToAlignment_eq hlog (by omega)]
  exact Bits.le_roundUp alignment.toNat_pos

theorem meets_alignBufferPosition (hlog : alignment.log ≤ 3) (size : ℕ) :
    Meets (Sound buffer bytes) (alignBufferPosition alignment size)
      (fun _ => Checked buffer bytes size) (Stopped buffer bytes) := by
  apply get_bind
  intro decoder h
  have hle := h.le_roundUp hfits hlog
  have hend := h.bufferEnd_eq
  have hpos := h.le_pos
  by_cases hsize : alignedBufferIsLargeEnoughToContain
      (roundUpToAlignment decoder.bufferPos alignment.toNat) decoder.bufferEnd size
  · rw [if_pos hsize]
    obtain ⟨hle', hsize⟩ := hsize
    apply modify_state
    rintro current rfl
    exact { buffer_eq := h.buffer_eq, bytes_eq := h.bytes_eq, within := h.within
            le_pos := by
              show buffer ≤ roundUpToAlignment current.bufferPos alignment.toNat
              omega
            pos_le := by
              show roundUpToAlignment current.bufferPos alignment.toNat ≤ _
              omega
            size_le := by
              show roundUpToAlignment current.bufferPos alignment.toNat + size ≤ _
              omega }
  · rw [if_neg hsize]
    apply meets_markInvalid.mono_pre
    rintro _ rfl
    exact h

omit hfits in
theorem meets_readBuffer (size : ℕ) :
    Meets (Checked buffer bytes size) (readBuffer size) (fun _ => Sound buffer bytes)
      (Stopped buffer bytes) := by
  unfold readBuffer
  apply get_bind
  intro decoder h
  have hle := h.le_pos
  have hsize := h.size_le
  refine bind (show Meets _ _ (fun _ => Sound buffer bytes) _ from
    modify_state ?_) fun _ => pure fun _ h => h
  · rintro current rfl
    exact { buffer_eq := h.buffer_eq, bytes_eq := h.bytes_eq
            le_pos := by
              show buffer ≤ current.bufferPos + size
              omega
            pos_le := by
              show current.bufferPos + size ≤ _
              omega
            within := by
              intro access hacc
              rcases List.mem_cons.mp hacc with rfl | hacc
              · exact ⟨hle, hsize⟩
              · exact h.within access hacc }

theorem meets_decodeFixedLengthData (hlog : alignment.log ≤ 3) (size : ℕ) :
    Meets (Sound buffer bytes) (decodeFixedLengthData size alignment)
      (fun _ => Sound buffer bytes) (Stopped buffer bytes) := by
  apply bind (meets_alignBufferPosition hfits hlog size)
  intro _
  exact meets_readBuffer size

omit hfits in
theorem meets_recordResize (size : ℕ) :
    Meets (Checked buffer bytes size) (recordResize size) (fun _ => Sound buffer bytes)
      (Stopped buffer bytes) := by
  apply modify_state
  intro decoder h
  have hsize := h.size_le
  exact { buffer_eq := h.buffer_eq, bytes_eq := h.bytes_eq, le_pos := h.le_pos, pos_le := h.pos_le
          within := by
            intro access hacc
            rcases List.mem_cons.mp hacc with rfl | hacc
            · exact ⟨h.le_pos, hsize⟩
            · exact h.within access hacc }

end Decoder

section Arithmetic

theorem Number.alignment_log_le (type : Number) : type.alignment.log ≤ 3 := by
  cases type <;> decide

theorem Arithmetic.alignment_log_le (type : Arithmetic) : type.alignment.log ≤ 3 := by
  cases type with
  | bool => decide
  | number type => exact type.alignment_log_le

theorem Arithmetic.sizeof_pos (type : Arithmetic) : 0 < type.sizeof := type.alignment.toNat_pos

variable {buffer : ℕ} {bytes : List UInt8} (hfits : FitsInMemory buffer bytes.length)
include hfits

theorem meets_checkBuffer (type : Arithmetic) (numElements : ℕ) :
    Meets (Sound buffer bytes) (type.checkBuffer numElements)
      (fun _ => Checked buffer bytes (numElements * type.sizeof)) (Stopped buffer bytes) := by
  unfold checkBuffer bufferIsLargeEnoughToContain
  intro decoder h
  rw [exec_bind, exec_bind_ok (exec_get decoder)]
  simp only [exec_pure]
  split
  next hcheck =>
    have hle := h.le_roundUp hfits type.alignment_log_le
    have hend := h.bufferEnd_eq
    obtain ⟨hnum, hle', hsize⟩ := of_decide_eq_true hcheck
    -- the product of the numbers is not larger than an unsigned integer
    have hmul : numElements * type.sizeof ≤ 2 ^ 64 - 1 :=
      (Nat.mul_le_mul_right _ hnum).trans (Nat.div_mul_le_self _ _)
    refine .inl ⟨_, _, rfl, ?_⟩
    exact { h with size_le := by omega }
  next => exact meets_markInvalid decoder h

theorem safe_decodeElements (type : Arithmetic) (size : ℕ) :
    Meets (Checked buffer bytes (size * type.sizeof)) (type.decodeElements size)
      (fun _ => Sound buffer bytes) (Stopped buffer bytes) := by
  apply bind (meets_recordResize _)
  intro _
  apply bind (meets_decodeFixedLengthData hfits type.alignment_log_le _)
  intro _
  exact pure fun _ h => h

end Arithmetic

/-! ## The coders -/

theorem Arithmetic.safe_decode (type : Arithmetic) : Safe type.decode := by
  intro buffer bytes hfits
  apply bind (meets_decodeFixedLengthData hfits type.alignment_log_le _)
  intro _
  exact pure fun _ h => h

theorem safe_decodeUInt32 : Safe decodeUInt32 := by
  apply Safe.bind (safe_decode .uint32)
  intro n
  exact Safe.pure _

theorem safe_decodeUInt64 : Safe decodeUInt64 := by
  apply Safe.bind (safe_decode .uint64)
  intro n
  exact Safe.pure _

theorem safe_checkBuffer_bind {α : Type} {type : Arithmetic} {size : ℕ} {m : Decode α}
    (hm : ∀ (buffer : ℕ) (bytes : List UInt8), FitsInMemory buffer bytes.length →
      Meets (Checked buffer bytes (size * type.sizeof)) m (fun _ => Sound buffer bytes)
        (Stopped buffer bytes)) :
    Safe (do type.checkBuffer size; m) := by
  intro buffer bytes hfits
  exact (meets_checkBuffer hfits type size).bind fun _ => hm buffer bytes hfits

theorem meets_crashed {α : Type} {buffer : ℕ} {bytes : List UInt8} {size : ℕ} :
    Meets (Checked buffer bytes size) (throw .crashed : Decode α) (fun _ => Sound buffer bytes)
      (Stopped buffer bytes) := by
  apply Meets.throw
  intro decoder h
  refine ⟨h.toSound, ?_⟩
  intro hstop
  cases hstop

theorem CString.safe_decode : Safe CString.decode := by
  apply Safe.bind safe_decodeUInt32
  intro length
  split
  · exact Safe.pure _
  · apply safe_checkBuffer_bind
    intro buffer bytes hfits
    split
    · apply bind (safe_decodeElements hfits .uint8 length)
      intro _
      exact pure fun _ h => h
    · exact meets_crashed

theorem WTFString.safe_decodeText8 (length : ℕ) : Safe (decodeText8 length) := by
  apply safe_checkBuffer_bind
  intro buffer bytes hfits
  split
  · apply bind (safe_decodeElements hfits .uint8 length)
    intro _
    exact pure fun _ h => h
  · exact meets_crashed

theorem WTFString.safe_decodeText16 (length : ℕ) : Safe (decodeText16 length) := by
  apply safe_checkBuffer_bind
  intro buffer bytes hfits
  split
  · apply bind (safe_decodeElements hfits .uint16 length)
    intro _
    split
    all_goals exact pure fun _ h => h
  · exact meets_crashed

theorem WTFString.safe_decode : Safe decode := by
  apply Safe.bind safe_decodeUInt32
  intro length
  split
  · exact Safe.pure _
  · apply Safe.bind (Arithmetic.safe_decode .bool)
    intro is8Bit
    split
    · exact safe_decodeText8 length
    · exact safe_decodeText16 length

theorem KeyType.safe_decode (type : KeyType) : Safe type.decode := by
  induction type with
  | arithmetic type => exact type.safe_decode
  | string => exact WTFString.safe_decode
  | cString => exact CString.safe_decode
  | pair first second hfirst hsnd =>
    apply Safe.bind hfirst
    intro a
    apply Safe.bind hsnd
    intro b
    exact Safe.pure _

theorem safe_decodeEach {α : Type} {decodeOne : Decode α} (h : Safe decodeOne) (size : ℕ) :
    Safe (decodeEach decodeOne size) := by
  induction size with
  | zero => exact Safe.pure _
  | succ size ih =>
    apply Safe.bind h
    intro element
    apply Safe.bind ih
    intro rest
    exact Safe.pure _

theorem safe_decodeTable {α : Type} {decodeOne : Decode α} (h : Safe decodeOne)
    (add : List α → α → Option (List α × Bool)) (size : ℕ) (table : List α) :
    Safe (decodeTable decodeOne add size table) := by
  induction size generalizing table with
  | zero => exact Safe.pure _
  | succ size ih =>
    apply Safe.bind h
    intro entry
    split
    · exact ih _
    · exact Safe.markInvalid
    · exact Safe.crashed

theorem safe_decodeVariableLengthByteArray : Safe decodeVariableLengthByteArray := by
  apply Safe.bind safe_decodeUInt64
  intro size buffer bytes hfits
  apply Meets.bind (meets_alignBufferPosition hfits (by decide) size)
  intro _
  exact meets_readBuffer size

theorem VectorArgumentCoder.safe_decode (type : ArgType) {decodeOne : Decode type.Value}
    (h : Safe decodeOne) : Safe (decode type decodeOne) := by
  unfold decode
  split
  next type decodeOne =>
    apply Safe.bind safe_decodeUInt64
    intro size
    apply safe_checkBuffer_bind
    intro buffer bytes hfits
    apply tryCatch (safe_decodeElements hfits type size)
    intro _
    exact pure fun _ h => h.1
  next =>
    apply Safe.bind safe_decodeUInt64
    intro size
    exact safe_decodeEach h size

theorem ArgType.safe_decode (tables : Tables) (type : ArgType) : Safe (type.decode tables) := by
  induction type with
  | plain type => exact type.safe_decode
  | byteArray => exact safe_decodeVariableLengthByteArray
  | optional type ih =>
    apply Safe.bind (Arithmetic.safe_decode .bool)
    intro isEngaged
    split
    · apply Safe.bind ih
      intro value
      exact Safe.pure _
    · exact Safe.pure _
  | pair first second hfirst hsnd =>
    apply Safe.bind hfirst
    intro a
    apply Safe.bind hsnd
    intro b
    exact Safe.pure _
  | vector type ih => exact VectorArgumentCoder.safe_decode type ih
  | hashMap key traits mapped ih =>
    apply Safe.bind safe_decodeUInt64
    intro size
    apply safe_decodeTable
    apply Safe.bind key.safe_decode
    intro k
    apply Safe.bind ih
    intro value
    exact Safe.pure _
  | hashSet key traits =>
    apply Safe.bind safe_decodeUInt64
    intro size
    exact safe_decodeTable key.safe_decode _ _ _

theorem rejects_decodeFixedLengthData (hlog : alignment.log ≤ 3)
    (size : ℕ) : Rejects (decodeFixedLengthData size alignment) := by
  apply Rejects.bind
  intro buffer bytes hfits
  apply get_bind
  intro decoder h
  have hend := h.bufferEnd_eq
  have hlt := h.lt_pos
  have hpos := h.pos_le
  have hle : decoder.bufferPos ≤ roundUpToAlignment decoder.bufferPos alignment.toNat := by
    unfold FitsInMemory at hfits
    rw [roundUpToAlignment_eq hlog (by omega)]
    exact Bits.le_roundUp alignment.toNat_pos
  -- the marker lies behind the end, and so does every address that it is rounded up to
  have hcheck : ¬alignedBufferIsLargeEnoughToContain
      (roundUpToAlignment decoder.bufferPos alignment.toNat) decoder.bufferEnd size := by
    rintro ⟨hle', -⟩
    omega
  rw [if_neg hcheck]
  rintro current rfl
  refine .inr ⟨.failed, _, rfl, rfl, ?_⟩
  exact { buffer_eq := h.buffer_eq, bytes_eq := h.bytes_eq
          lt_pos := by
            show buffer + bytes.length < current.bufferEnd + 1
            omega
          pos_le := by
            show current.bufferEnd + 1 ≤ _
            omega }

theorem Arithmetic.rejects_decode (type : Arithmetic) : Rejects type.decode :=
  (rejects_decodeFixedLengthData type.alignment_log_le _).bind _

theorem rejects_decodeUInt32 : Rejects decodeUInt32 := (rejects_decode .uint32).bind _

theorem rejects_decodeUInt64 : Rejects decodeUInt64 := (rejects_decode .uint64).bind _

theorem KeyType.rejects_decode (type : KeyType) : Rejects type.decode := by
  induction type with
  | arithmetic type => exact type.rejects_decode
  | string | cString => exact rejects_decodeUInt32.bind _
  | pair first second hfirst hsnd => exact hfirst.bind _

theorem VectorArgumentCoder.rejects_decode (type : ArgType) (decodeOne : Decode type.Value) :
    Rejects (decode type decodeOne) := by
  unfold decode
  split
  next => exact rejects_decodeUInt64.bind _
  next => exact rejects_decodeUInt64.bind _

theorem ArgType.rejects_decode (tables : Tables) (type : ArgType) :
    Rejects (type.decode tables) := by
  induction type with
  | plain type => exact type.rejects_decode
  | byteArray | hashMap | hashSet => exact rejects_decodeUInt64.bind _
  | optional type ih => exact (Arithmetic.rejects_decode .bool).bind _
  | pair first second hfirst hsnd => exact hfirst.bind _
  | vector type ih => exact VectorArgumentCoder.rejects_decode type _

/-- A call of `decode` after which the process is still there. -/
def calls (tables : Tables) (decoder : ArgumentDecoder) (type : ArgType)
    (next : ArgumentDecoder) : Prop :=
  ∃ result, exec (type.decode tables) decoder = (result, next) ∧ result ≠ .error .crashed

section Runs

variable {tables : Tables} {buffer : ℕ} {bytes : List UInt8} {decoder next : ArgumentDecoder}
  {type : ArgType} {types : List ArgType}
  (hfits : FitsInMemory buffer bytes.length)
include hfits

theorem sound_exec (tables : Tables) (h : Sound buffer bytes decoder) (type : ArgType) :
    Sound buffer bytes (exec (type.decode tables) decoder).2 := by
  rcases type.safe_decode tables buffer bytes hfits decoder h with
    ⟨value, next, hexec, hnext⟩ | ⟨stop, next, hexec, hnext⟩
  · rw [hexec]
    exact hnext
  · rw [hexec]
    exact hnext.1

theorem sound_of_calls (h : Sound buffer bytes decoder) (hcall : calls tables decoder type next) :
    Sound buffer bytes next := by
  obtain ⟨result, hexec, -⟩ := hcall
  have hsound := sound_exec hfits tables h type
  rw [hexec] at hsound
  exact hsound

theorem invalid_of_failed (h : Sound buffer bytes decoder)
    (hexec : exec (type.decode tables) decoder = (.error .failed, next)) :
    Invalid buffer bytes next := by
  rcases type.safe_decode tables buffer bytes hfits decoder h with
    ⟨value, next', hexec', hnext⟩ | ⟨stop, next', hexec', hnext⟩
  · rw [hexec'] at hexec
    cases hexec
  · rw [hexec'] at hexec
    cases hexec
    exact hnext.1.invalid (hnext.2 rfl)

theorem exec_of_invalid (tables : Tables) (h : Invalid buffer bytes decoder) (type : ArgType) :
    ∃ next, exec (type.decode tables) decoder = (.error .failed, next) ∧
      Invalid buffer bytes next := by
  rcases type.rejects_decode tables buffer bytes hfits decoder h with
    ⟨_, _, -, hfalse⟩ | ⟨stop, next, hexec, rfl, hnext⟩
  · exact hfalse.elim
  · exact ⟨next, hexec, hnext⟩

theorem invalid_of_run (h : Invalid buffer bytes decoder)
    (hrun : Run (calls tables) decoder types next) : Invalid buffer bytes next := by
  refine hrun.preserves ?_ h
  rintro s type t hs ⟨result, hexec, -⟩
  obtain ⟨t', hexec', ht'⟩ := exec_of_invalid hfits tables hs type
  rw [hexec'] at hexec
  cases hexec
  exact ht'

/-- Every decode of received bytes keeps to the buffer, and after a failure every decode
fails and the decoder is invalid. -/
theorem safe_of_run (hrun : Run (calls tables) (ofBuffer buffer bytes) types decoder)
    (type : ArgType) :
    (∀ access ∈ (exec (type.decode tables) decoder).2.accesses,
      access.Within buffer (buffer + bytes.length)) ∧
    ∀ failed, exec (type.decode tables) decoder = (.error .failed, failed) →
      ∀ later last, Run (calls tables) failed later last → last.isInvalid ∧
        ∀ type : ArgType, ∃ next, exec (type.decode tables) last = (.error .failed, next) := by
  have hsound : Sound buffer bytes decoder :=
    hrun.preserves (fun _ _ _ hs hcall => sound_of_calls hfits hs hcall)
      (sound_ofBuffer buffer bytes)
  refine ⟨(sound_exec hfits tables hsound type).within, ?_⟩
  intro failed hexec later last hlater
  have hinvalid := invalid_of_run hfits (invalid_of_failed hfits hsound hexec) hlater
  refine ⟨hinvalid.isInvalid, ?_⟩
  intro type
  obtain ⟨next, hnext, -⟩ := exec_of_invalid hfits tables hinvalid type
  exact ⟨next, hnext⟩

end Runs

end WebKit.IPC
