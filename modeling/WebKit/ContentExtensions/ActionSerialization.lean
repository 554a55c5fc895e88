import WebKit.ContentExtensions.Action
import WebKit.Transition.Outcome

/-!
# Records of actions

What a serialized action takes of the bytes, and that `Action::deserialize` reads it wherever it
is.
-/

open Transition List

namespace WebKit.ContentExtensions

open WTFString Bits

open WTF (Failure load)

variable {actions front back : List UInt8} {location : ℕ}

/-- An action as it is serialized: its type alone, or a selector. -/
inductive ActionRecord
  | byte (type : ActionType)
  | selector (string : WTFString)

namespace ActionRecord

def characterBytes (string : WTFString) : List UInt8 :=
  if string.is8Bit then string.characters.map fun character => UInt8.ofNat character.toNat
  else string.characters.flatMap fun character => toBytes 2 character.toNat

def bytes : ActionRecord → List UInt8
  | .byte type => [type.toByte]
  | .selector string =>
    [ActionType.cssDisplayNoneSelector.toByte] ++ bytesOfUnsigned string.length ++
      [if !string.is8Bit then 1 else 0] ++ characterBytes string

/-- The types of actions that are serialized as one byte. -/
def IsByte (type : ActionType) : Prop :=
  type = .blockLoad ∨ type = .blockCookies ∨ type = .ignorePreviousRules

end ActionRecord

/-- The record is at the location. -/
def HasRecord (actions : List UInt8) (location : ℕ) (record : ActionRecord) : Prop :=
  ∃ front back, actions = front ++ record.bytes ++ back ∧ front.length = location

theorem HasRecord.append {record : ActionRecord} (h : HasRecord actions location record)
    (more : List UInt8) : HasRecord (actions ++ more) location record := by
  obtain ⟨front, back, rfl, rfl⟩ := h
  exact ⟨front, back ++ more, by simp, rfl⟩

theorem hasRecord_end (actions : List UInt8) (record : ActionRecord) :
    HasRecord (actions ++ record.bytes) actions.length record :=
  ⟨actions, [], by simp, rfl⟩

theorem load_middle (front back : List UInt8) (byte : UInt8) :
    load (front ++ byte :: back) front.length = .ok byte := by
  have hlt : front.length < (front ++ byte :: back).length := by simp
  rw [WTF.load_eq hlt]
  simp

theorem loadBytes_middle (front bytes back : List UInt8) :
    loadBytes (front ++ (bytes ++ back)) front.length bytes.length = .ok bytes := by
  unfold loadBytes
  rw [if_pos (by simp), drop_left, take_left]
  rfl

theorem releaseAssert_eq {condition : Prop} [Decidable condition] (h : condition) :
    releaseAssert condition = .ok () := if_pos h

theorem loadUChar_middle (front back : List UInt8) (character : UInt16) :
    loadUChar (front ++ (toBytes 2 character.toNat ++ back)) front.length = .ok character := by
  have hbytes := loadBytes_middle front (toBytes 2 character.toNat) back
  rw [length_toBytes] at hbytes
  have hvalue : UInt16.ofNat (ofBytes (toBytes 2 character.toNat)) = character := by
    rw [ofBytes_toBytes_of_lt character.toNat_lt, UInt16.ofNat_toNat]
  rw [loadUChar, hbytes]
  exact congrArg Except.ok hvalue

theorem loadUChars_middle (front back : List UInt8) (characters : List UInt16) :
    (range characters.length).mapM (fun i =>
        loadUChar (front ++ (characters.flatMap (fun character =>
          toBytes 2 character.toNat) ++ back)) (front.length + i * 2)) =
      .ok characters := by
  induction characters generalizing front with
  | nil => rfl
  | cons character characters ih =>
    have hrest := ih (front ++ toBytes 2 character.toNat)
    have hfirst := loadUChar_middle front
      (characters.flatMap (fun character => toBytes 2 character.toNat) ++ back) character
    rw [length_append, length_toBytes] at hrest
    rw [length_cons, range_succ_eq_map, mapM_cons, flatMap_cons,
      append_assoc, zero_mul, add_zero, hfirst, mapM_map]
    have hplaces : ∀ i, front.length + (i + 1) * 2 = front.length + 2 + i * 2 := by
      intro i
      omega
    simp only [Function.comp_def, Nat.succ_eq_add_one, hplaces]
    rw [append_assoc] at hrest
    rw [hrest]
    rfl

theorem deserialize_byte {type : ActionType} (htype : ActionRecord.IsByte type)
    (h : HasRecord actions location (.byte type)) (hlt : actions.length < 2 ^ 32) :
    Action.deserialize actions (UInt32.ofNat actions.length) (UInt32.ofNat location) =
      .ok (.ofType type (UInt32.ofNat location)) := by
  obtain ⟨front, back, rfl, rfl⟩ := h
  have hloc : (UInt32.ofNat front.length).toNat = front.length := by
    rw [UInt32.toNat_ofNat_of_lt']
    simp only [length_append] at hlt
    exact lt_of_le_of_lt (by omega) hlt
  have hload : load (front ++ (ActionRecord.byte type).bytes ++ back) front.length =
      .ok type.toByte := by
    rw [append_assoc, ActionRecord.bytes]
    exact load_middle front back type.toByte
  rw [Action.deserialize, hloc, hload]
  rcases htype with rfl | rfl | rfl <;> rfl

theorem deserialize_selector {string : WTFString}
    (h : HasRecord actions location (.selector string)) (hlt : actions.length < 2 ^ 32) :
    ∃ string' : WTFString, string'.characters = string.characters ∧
      Action.deserialize actions (UInt32.ofNat actions.length) (UInt32.ofNat location) =
        .ok (.ofString .cssDisplayNoneSelector string' (UInt32.ofNat location)) := by
  obtain ⟨front, back, rfl, rfl⟩ := h
  obtain ⟨body, hbody⟩ : ∃ body, body = ActionRecord.characterBytes string := ⟨_, rfl⟩
  obtain ⟨wide, hwide⟩ : ∃ wide : UInt8, wide = if !string.is8Bit then 1 else 0 := ⟨_, rfl⟩
  obtain ⟨size, hsize⟩ : ∃ size, size = bytesOfUnsigned string.length := ⟨_, rfl⟩
  obtain ⟨all, hall⟩ : ∃ all, all = front ++ (ActionRecord.selector string).bytes ++ back :=
    ⟨_, rfl⟩
  have hrec : all = front ++ 2 :: (size ++ wide :: (body ++ back)) := by
    rw [hall, ActionRecord.bytes, hbody, hwide, hsize]
    simp [ActionType.toByte]
  rw [← hall] at hlt ⊢
  have hsizeLength : size.length = 4 := by rw [hsize, bytesOfUnsigned, length_toBytes]
  have hlen : all.length = front.length + 6 + body.length + back.length := by
    rw [hrec]
    simp [hsizeLength]
    omega
  have hle : string.length ≤ body.length := by
    rw [hbody, ActionRecord.characterBytes, WTFString.length]
    split
    · simp
    · simp
      omega
  have hloc : (UInt32.ofNat front.length).toNat = front.length :=
    UInt32.toNat_ofNat_of_lt' (lt_of_le_of_lt (by omega) hlt)
  have hstart : (UInt32.ofNat (front.length + 1 + 4 + 1)).toNat = front.length + 6 :=
    UInt32.toNat_ofNat_of_lt' (lt_of_le_of_lt (by omega) hlt)
  have hall' : (UInt32.ofNat all.length).toNat = all.length := UInt32.toNat_ofNat_of_lt' hlt
  have hselectorLength : ofBytes size = string.length := by
    rw [hsize, bytesOfUnsigned, ofBytes_toBytes_of_lt]
    exact lt_of_le_of_lt (by omega) hlt
  -- the pieces, one behind the other
  have htype : load all front.length = .ok 2 := by
    rw [hrec]
    exact load_middle ..
  have hloadSize : loadBytes all (front.length + 1) 4 = .ok size := by
    have hmiddle := loadBytes_middle (front ++ [2]) size (wide :: (body ++ back))
    rw [length_append, length_singleton, hsizeLength] at hmiddle
    rw [hrec, ← hmiddle]
    simp
  have hloadWide : load all (front.length + 1 + 4) = .ok wide := by
    have hmiddle := load_middle (front ++ 2 :: size) (body ++ back) wide
    rw [length_append, length_cons, hsizeLength] at hmiddle
    rw [hrec, ← hmiddle]
    simp [add_assoc]
  have hfront : (front ++ 2 :: (size ++ [wide])).length = front.length + 6 := by
    simp [hsizeLength]
  have hrec' : all = front ++ 2 :: (size ++ [wide]) ++ (body ++ back) := by
    rw [hrec]
    simp
  rw [Action.deserialize, hloc, htype]
  dsimp only [bind, Except.bind]
  have hassert : UInt32.ofNat (front.length + 1 + 4 + 1) ≤ UInt32.ofNat all.length := by
    rw [UInt32.le_iff_toNat_le, hstart, hall']
    omega
  rw [hloadSize, hloadWide, hstart, hall', releaseAssert_eq hassert]
  dsimp only
  rw [hselectorLength]
  cases his8Bit : string.is8Bit with
  | true =>
    have hchars : body = string.characters.map fun character =>
        UInt8.ofNat character.toNat := by
      rw [hbody, ActionRecord.characterBytes, if_pos his8Bit]
    have hbodyLength : body.length = string.length := by
      rw [hchars, length_map, WTFString.length]
    have hzero : wide = 0 := by
      rw [hwide, his8Bit]
      rfl
    have hloadBody := loadBytes_middle (front ++ 2 :: (size ++ [wide])) body back
    rw [← hrec', hfront, hbodyLength] at hloadBody
    refine ⟨.ofLChars body, ?_, ?_⟩
    · rw [ofLChars, hchars]
      dsimp only
      have hread : ∀ character ∈ string.characters,
          UInt16.ofNat (UInt8.ofNat character.toNat).toNat = id character := by
        intro character hchar
        have hnarrow := string.narrow his8Bit character hchar
        simp [Nat.mod_eq_of_lt hnarrow]
      rw [map_map]
      exact (map_congr_left hread).trans (map_id _)
    · rw [hzero, if_neg (by simp), releaseAssert_eq (by omega), hloadBody]
      rfl
  | false =>
    have hchars : body = string.characters.flatMap fun character =>
        toBytes 2 character.toNat := by
      rw [hbody, ActionRecord.characterBytes, if_neg (by simp [his8Bit])]
    have hbodyLength : body.length = string.length * 2 := by
      rw [hchars, WTFString.length]
      simp [length_flatMap]
    have hone : wide = 1 := by
      rw [hwide, his8Bit]
      rfl
    have hloadBody := loadUChars_middle (front ++ 2 :: (size ++ [wide])) back string.characters
    rw [← hchars, ← hrec', hfront] at hloadBody
    refine ⟨.ofUChars string.characters, ?_, ?_⟩
    · rw [ofUChars]
      split
      · rename_i hnil
        rw [hnil]
        rfl
      · rfl
    · rw [hone, if_pos (by decide), releaseAssert_eq (by omega)]
      rw [WTFString.length, hloadBody]
      rfl

end WebKit.ContentExtensions

/-!
## Serialization of actions

What the pieces of `serializeActions` append, unless a container cannot grow.
-/

open Transition

namespace WebKit.ContentExtensions

open WTF (Failure)

variable {memory : Memory} {bound : ℕ} {rules : List ContentExtensionRule}

/-- A container could not grow to some size up to the bound. -/
def Memory.Exhausted (memory : Memory) (bound : ℕ) (failure : Failure) : Prop :=
  failure = .crash ∧ ∃ size ≤ bound, memory.canHold size = false

namespace Memory

theorem grow_outcome {size : ℕ} (h : size ≤ bound) :
    Outcome (memory.Exhausted bound) (fun _ => size < 2 ^ 32) (memory.grow size) := by
  unfold grow
  split
  · rename_i hcan
    exact Outcome.pure (memory.lt_of_canHold size hcan)
  · rename_i hcan
    exact Outcome.throw ⟨rfl, size, h, by simpa using hcan⟩

/-- The bytes are there, and there are not too many. -/
def Holds (actions bytes actions' : List UInt8) : Prop :=
  actions' = actions ++ bytes ∧ actions'.length < 2 ^ 32

theorem append_outcome (actions : List UInt8) (byte : UInt8) (h : actions.length + 1 ≤ bound) :
    Outcome (memory.Exhausted bound) (Holds actions [byte]) (memory.append actions byte) :=
  (grow_outcome h).bind fun _ hlt => Outcome.pure ⟨rfl, by simpa using hlt⟩

theorem resize_outcome (actions bytes : List UInt8) (h : actions.length + bytes.length ≤ bound) :
    Outcome (memory.Exhausted bound) (Holds actions bytes) (memory.resize actions bytes) :=
  (grow_outcome h).bind fun _ hlt => Outcome.pure ⟨rfl, by simpa using hlt⟩

theorem appendBytes_outcome (actions : List UInt8) (characters : List UInt16)
    (h : actions.length + characters.length ≤ bound) (hlt : actions.length < 2 ^ 32) :
    Outcome (memory.Exhausted bound)
      (Holds actions (characters.map fun character => UInt8.ofNat character.toNat))
      (characters.foldlM (fun actions character =>
        memory.append actions (UInt8.ofNat character.toNat)) actions) := by
  induction characters generalizing actions with
  | nil => exact Outcome.pure ⟨by simp, hlt⟩
  | cons character characters ih =>
    rw [length_cons] at h
    refine (append_outcome actions _ (by omega)).bind fun actions' hacts' => ?_
    obtain ⟨rfl, hlt'⟩ := hacts'
    refine (ih _ (by simp; omega) hlt').mono fun actions'' hacts'' => ?_
    obtain ⟨rfl, hlt''⟩ := hacts''
    exact ⟨by simp, hlt''⟩

theorem appendString_outcome (builder string : WTFString)
    (h : builder.length + string.length ≤ bound) :
    Outcome (memory.Exhausted bound)
      (fun builder' => builder'.characters = builder.characters ++ string.characters)
      (memory.appendString builder string) := by
  unfold appendString
  split
  · rename_i hnil
    have hnil : string.characters = [] := length_eq_zero_iff.mp hnil
    exact Outcome.pure (by rw [hnil, append_nil])
  split
  · rename_i hnil
    have hnil : builder.characters = [] := length_eq_zero_iff.mp hnil
    exact Outcome.pure (by rw [hnil, nil_append])
  · refine (grow_outcome h).bind fun _ _ => ?_
    split <;> exact Outcome.pure rfl

theorem appendLChar_outcome (builder : WTFString) (character : UInt8)
    (h : builder.length + 1 ≤ bound) :
    Outcome (memory.Exhausted bound) (fun builder' =>
        builder'.characters = builder.characters ++ [UInt16.ofNat character.toNat])
      (memory.appendLChar builder character) :=
  (grow_outcome h).bind fun _ _ => Outcome.pure rfl

end Memory

theorem length_selector_bytes_le (string : WTFString) :
    (ActionRecord.selector string).bytes.length ≤ 6 + 2 * string.length := by
  rw [ActionRecord.bytes, ActionRecord.characterBytes, WTFString.length]
  cases string.is8Bit with
  | true =>
    simp [bytesOfUnsigned]
    omega
  | false =>
    simp [bytesOfUnsigned, length_flatMap]
    omega

theorem serializeSelector_outcome (actions : List UInt8) (selector : WTFString)
    (h : actions.length + 6 + 2 * selector.length ≤ bound) :
    Outcome (memory.Exhausted bound) (Memory.Holds actions (ActionRecord.selector selector).bytes)
      (serializeSelector memory actions selector) := by
  have hsize : (bytesOfUnsigned selector.length).length = 4 := Bits.length_toBytes 4 _
  refine (Memory.append_outcome actions _ (by omega)).bind fun a ⟨ha, _⟩ => ?_
  refine (Memory.resize_outcome a _ ?_).bind fun b ⟨hb, _⟩ => ?_
  · rw [ha, hsize]
    simp
    omega
  refine (Memory.append_outcome b _ ?_).bind fun c ⟨hc, hlt⟩ => ?_
  · rw [hb, ha]
    simp [hsize]
    omega
  have hlen : c.length = actions.length + 6 := by
    rw [hc, hb, ha]
    simp [hsize]
  have hfront : c = actions ++ ([ActionType.cssDisplayNoneSelector.toByte] ++
      bytesOfUnsigned selector.length ++ [if !selector.is8Bit then 1 else 0]) := by
    rw [hc, hb, ha]
    simp
  rw [WTFString.length] at h
  cases his8Bit : selector.is8Bit with
  | true =>
    refine (Memory.appendBytes_outcome c selector.characters (by omega) hlt).mono
      fun d ⟨hd, hlt'⟩ => ⟨?_, hlt'⟩
    rw [hd, hfront, ActionRecord.bytes]
    simp [ActionRecord.characterBytes, his8Bit]
  | false =>
    have hwide : (selector.characters.flatMap fun character =>
        Bits.toBytes 2 character.toNat).length = 2 * selector.characters.length := by
      simp [length_flatMap, mul_comm]
    refine (Memory.resize_outcome c _ (by rw [hwide]; omega)).mono fun d ⟨hd, hlt'⟩ => ⟨?_, hlt'⟩
    rw [hd, hfront, ActionRecord.bytes]
    simp [ActionRecord.characterBytes, his8Bit]

/-- The characters of the selectors. -/
def selectors (rules : List ContentExtensionRule) : List (List UInt16) :=
  rules.map fun rule => rule.action.string.characters

/-- A bound on the bytes of the rules. -/
def serializedSize (rules : List ContentExtensionRule) : ℕ :=
  (rules.map fun rule => 8 + 2 * rule.action.string.length).sum

theorem serializedSize_cons (rule : ContentExtensionRule) (rules : List ContentExtensionRule) :
    serializedSize (rule :: rules) = 8 + 2 * rule.action.string.length + serializedSize rules := by
  simp [serializedSize]

theorem serializedSize_append (rules rules' : List ContentExtensionRule) :
    serializedSize (rules ++ rules') = serializedSize rules + serializedSize rules' := by
  simp [serializedSize]

theorem consolidateSelectors_outcome (selector : WTFString)
    (h : selector.length + serializedSize rules ≤ bound) :
    Outcome (memory.Exhausted bound) (fun selector' => selector'.characters =
          intercalate [44] (selector.characters :: selectors rules) ∧
        2 * selector'.length ≤ 2 * selector.length + serializedSize rules)
      (consolidateSelectors memory selector rules) := by
  induction rules generalizing selector with
  | nil => exact Outcome.pure ⟨by simp [selectors, intercalate], by simp [serializedSize]⟩
  | cons rule rules ih =>
    rw [serializedSize_cons] at h
    refine (Memory.appendLChar_outcome selector 44 (by omega)).bind fun a ha => ?_
    have halength : a.length = selector.length + 1 := by
      rw [WTFString.length, ha]
      simp [WTFString.length]
    refine (Memory.appendString_outcome a rule.action.string (by omega)).bind fun b hb => ?_
    have hblength : b.length = selector.length + 1 + rule.action.string.length := by
      rw [← halength, WTFString.length, hb, length_append]
      rfl
    refine (ih b (by omega)).mono fun c ⟨hc, hle⟩ => ⟨?_, ?_⟩
    · rw [hc, hb, ha, selectors, selectors]
      cases rules with
      | nil => simp [intercalate]
      | cons rule' rules => simp [intercalate]
    · rw [serializedSize_cons]
      omega

end WebKit.ContentExtensions
