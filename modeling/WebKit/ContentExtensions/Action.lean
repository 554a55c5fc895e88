import WebKit.Bits.Bytes
import WebKit.WTF.Memory

/-!
# Actions of rules

`serializeActions` writes the actions of a rule list into bytes, and `Action::deserialize` reads
them back. A string of 8 bit characters keeps each of them in a byte. What a `StringBuilder`
holds is a string, too. A container that cannot grow ends in `CRASH()`, in any case when its
size would not fit an `unsigned`.
-/

namespace WebKit.ContentExtensions

open WTF (Failure load)

/-- A `String` that is not null. -/
structure WTFString where
  is8Bit : Bool
  characters : List UInt16
  narrow : is8Bit = true → ∀ character ∈ characters, character.toNat < 256

namespace WTFString

def empty : WTFString := ⟨true, [], fun _ => nofun⟩

def length (string : WTFString) : ℕ := string.characters.length

/-- `String(const LChar*, unsigned)`. -/
def ofLChars (characters : List UInt8) : WTFString where
  is8Bit := true
  characters := characters.map fun character => UInt16.ofNat character.toNat
  narrow _ character h := by
    obtain ⟨byte, -, rfl⟩ := List.mem_map.mp h
    have hlt : byte.toNat < 256 := byte.toNat_lt
    have hsize : byte.toNat < UInt16.size := Nat.lt_trans hlt (by decide)
    rwa [UInt16.toNat_ofNat_of_lt' hsize]

/-- `String(const UChar*, unsigned)`. -/
def ofUChars (characters : List UInt16) : WTFString :=
  if characters = [] then empty else ⟨false, characters, nofun⟩

end WTFString

inductive ActionType
  | blockLoad
  | blockCookies
  | cssDisplayNoneSelector
  | cssDisplayNoneStyleSheet
  | ignorePreviousRules
  | invalidAction
  deriving DecidableEq, Repr

namespace ActionType

def toByte : ActionType → UInt8
  | .blockLoad => 0
  | .blockCookies => 1
  | .cssDisplayNoneSelector => 2
  | .cssDisplayNoneStyleSheet => 3
  | .ignorePreviousRules => 4
  | .invalidAction => 5

/-- `none` for a byte that is no action type. -/
def ofByte (byte : UInt8) : Option ActionType :=
  if byte = 0 then some .blockLoad
  else if byte = 1 then some .blockCookies
  else if byte = 2 then some .cssDisplayNoneSelector
  else if byte = 3 then some .cssDisplayNoneStyleSheet
  else if byte = 4 then some .ignorePreviousRules
  else if byte = 5 then some .invalidAction
  else none

end ActionType

/-- A filter is never null, and is compared by its characters. -/
structure Trigger where
  urlFilter : List UInt16
  urlFilterIsCaseSensitive : Bool := false
  flags : UInt16 := 0
  deriving DecidableEq

/-- A null string is `none`. -/
structure Action where
  extensionIdentifier : Option WTFString := none
  type : ActionType
  actionID : UInt32
  stringArgument : Option WTFString

namespace Action

/-- The default of `actionID`, `std::numeric_limits<uint32_t>::max()`. -/
def defaultActionID : UInt32 := 0xFFFFFFFF

/-- `Action(ActionType, uint32_t)`. -/
def ofType (type : ActionType) (actionID : UInt32) : Action :=
  { type := type, actionID := actionID, stringArgument := none }

/-- `Action(ActionType, const String&, uint32_t)`. -/
def ofString (type : ActionType) (stringArgument : WTFString) (actionID : UInt32) : Action :=
  { type := type, actionID := actionID, stringArgument := some stringArgument }

/-- `operator==`; strings are equal if their characters are, and a null string equals no other. -/
def isEqual (action other : Action) : Bool :=
  action.type = other.type &&
    action.extensionIdentifier.map (·.characters) = other.extensionIdentifier.map (·.characters) &&
    action.actionID = other.actionID &&
    action.stringArgument.map (·.characters) = other.stringArgument.map (·.characters)

/-- The characters of `stringArgument()`; a null string has none. -/
def string (action : Action) : WTFString := action.stringArgument.getD .empty

end Action

structure ContentExtensionRule where
  trigger : Trigger
  action : Action

inductive ContentExtensionError
  | jsonInvalidActionType
  | jsonInvalidCSSDisplayNoneActionType
  deriving DecidableEq

/-- `loadAction` with the type and the selector of the parsed object, if that is a string. -/
def loadAction (actionType : String) (selector : Option WTFString) :
    Except ContentExtensionError Action :=
  if actionType = "block" then .ok (.ofType .blockLoad Action.defaultActionID)
  else if actionType = "ignore-previous-rules" then
    .ok (.ofType .ignorePreviousRules Action.defaultActionID)
  else if actionType = "block-cookies" then .ok (.ofType .blockCookies Action.defaultActionID)
  else if actionType = "css-display-none" then
    match selector with
    | none => .error .jsonInvalidCSSDisplayNoneActionType
    | some selector => .ok (.ofString .cssDisplayNoneSelector selector Action.defaultActionID)
  else .error .jsonInvalidActionType

/-- A rule of a parsed rule list. -/
structure ContentExtensionRule.IsParsed (rule : ContentExtensionRule) : Prop where
  urlFilter_ne : rule.trigger.urlFilter ≠ []
  action_eq : ∃ actionType selector, loadAction actionType selector = .ok rule.action

def loadBytes (actions : List UInt8) (location size : ℕ) : Except Failure (List UInt8) :=
  if location + size ≤ actions.length then pure ((actions.drop location).take size)
  else throw .badAccess

def loadUChar (actions : List UInt8) (location : ℕ) : Except Failure UInt16 := do
  let bytes ← loadBytes actions location 2
  pure (UInt16.ofNat (Bits.ofBytes bytes))

def releaseAssert (condition : Prop) [Decidable condition] : Except Failure Unit :=
  if condition then pure () else throw .crash

/-- The sizes in the record of a selector: one byte for the type, four for the length and one
for the width. A byte that is no action type is undefined behaviour. -/
def Action.deserialize (actions : List UInt8) (actionsLength location : UInt32) :
    Except Failure Action := do
  match ActionType.ofByte (← load actions location.toNat) with
  | some .blockCookies => pure (.ofType .blockCookies location)
  | some .blockLoad => pure (.ofType .blockLoad location)
  | some .ignorePreviousRules => pure (.ofType .ignorePreviousRules location)
  | some .cssDisplayNoneSelector =>
    let stringStartIndex := UInt32.ofNat (location.toNat + 1 + 4 + 1)
    releaseAssert (stringStartIndex ≤ actionsLength)
    let selectorLength := Bits.ofBytes (← loadBytes actions (location.toNat + 1) 4)
    let wideCharacters ← load actions (location.toNat + 1 + 4)
    if wideCharacters ≠ 0 then
      releaseAssert (stringStartIndex.toNat + selectorLength * 2 ≤ actionsLength.toNat)
      let characters ← (List.range selectorLength).mapM fun i =>
        loadUChar actions (stringStartIndex.toNat + i * 2)
      pure (.ofString .cssDisplayNoneSelector (.ofUChars characters) location)
    else
      releaseAssert (stringStartIndex.toNat + selectorLength ≤ actionsLength.toNat)
      let characters ← loadBytes actions stringStartIndex.toNat selectorLength
      pure (.ofString .cssDisplayNoneSelector (.ofLChars characters) location)
  | some .cssDisplayNoneStyleSheet => throw .crash
  | some .invalidAction => throw .crash
  | none => throw .badAccess

/-- Whether a container can grow to a size. -/
structure Memory where
  canHold : ℕ → Bool
  lt_of_canHold : ∀ size, canHold size = true → size < 2 ^ 32

namespace Memory

variable (memory : Memory)

def grow (size : ℕ) : Except Failure Unit :=
  if memory.canHold size then pure () else throw .crash

/-- `Vector::append`. -/
def append (actions : List UInt8) (byte : UInt8) : Except Failure (List UInt8) := do
  memory.grow (actions.length + 1)
  pure (actions ++ [byte])

/-- `Vector::resize`, and the new bytes are written through a pointer. -/
def resize (actions bytes : List UInt8) : Except Failure (List UInt8) := do
  memory.grow (actions.length + bytes.length)
  pure (actions ++ bytes)

/-- `StringBuilder::append(const String&)`. -/
def appendString (builder string : WTFString) : Except Failure WTFString := do
  if string.length = 0 then pure builder
  -- If we're appending to an empty string, just retain the string.
  else if builder.length = 0 then pure string
  else
    memory.grow (builder.length + string.length)
    if h : builder.is8Bit = true ∧ (string.is8Bit = true ∨
        string.length = 1 ∧ ∀ character ∈ string.characters, character.toNat < 256) then
      pure
        { is8Bit := true
          characters := builder.characters ++ string.characters
          narrow := fun _ => List.forall_mem_append.mpr
            ⟨builder.narrow h.1, h.2.elim string.narrow And.right⟩ }
    else pure ⟨false, builder.characters ++ string.characters, nofun⟩

/-- `StringBuilder::append(char)`. -/
def appendLChar (builder : WTFString) (character : UInt8) : Except Failure WTFString := do
  memory.grow (builder.length + 1)
  pure
    { is8Bit := builder.is8Bit
      characters := builder.characters ++ (WTFString.ofLChars [character]).characters
      narrow := fun h => List.forall_mem_append.mpr
        ⟨builder.narrow h, (WTFString.ofLChars [character]).narrow rfl⟩ }

end Memory

/-- The `unsigned` for a size. -/
def bytesOfUnsigned (size : ℕ) : List UInt8 := Bits.toBytes 4 size

def serializeSelector (memory : Memory) (actions : List UInt8) (selector : WTFString) :
    Except Failure (List UInt8) := do
  -- Append action type (1 byte).
  let actions ← memory.append actions ActionType.cssDisplayNoneSelector.toByte
  -- Append selector length (4 bytes).
  let actions ← memory.resize actions (bytesOfUnsigned selector.length)
  let wideCharacters := !selector.is8Bit
  let actions ← memory.append actions (if wideCharacters then 1 else 0)
  -- Append selector.
  if wideCharacters then
    memory.resize actions (selector.characters.flatMap fun character =>
      Bits.toBytes 2 character.toNat)
  else
    selector.characters.foldlM (fun actions character =>
      memory.append actions (UInt8.ofNat character.toNat)) actions

/-- What `serializeActions` has written. -/
structure SerializedActions where
  actions : List UInt8 := []
  actionLocations : List ℕ := []

/-- The following rules are consolidated with a rule for a selector. -/
def consolidates (rule next : ContentExtensionRule) : Bool :=
  rule.trigger = next.trigger && next.action.type = .cssDisplayNoneSelector

/-- The inner loop: every rule that is consolidated gets the same location, and its selector is
appended. -/
def consolidateSelectors (memory : Memory) (selector : WTFString) :
    List ContentExtensionRule → Except Failure WTFString
  | [] => pure selector
  | rule :: rules => do
    let selector ← memory.appendLChar selector 44
    let selector ← memory.appendString selector rule.action.string
    consolidateSelectors memory selector rules

/-- The actions that take a byte. -/
def serializeAction (memory : Memory) (actions : List UInt8) (type : ActionType) :
    Except Failure (List UInt8) :=
  match type with
  | .cssDisplayNoneSelector | .cssDisplayNoneStyleSheet | .invalidAction => throw .crash
  | .blockLoad | .blockCookies | .ignorePreviousRules => memory.append actions type.toByte

/-- The loop from a rule on, with the rule before it. -/
def serializeActionsFrom (memory : Memory) (previous : Option ContentExtensionRule)
    (written : SerializedActions) : List ContentExtensionRule → Except Failure SerializedActions
  | [] => pure written
  | rule :: rules => do
    let location := written.actions.length
    if rule.action.type = .cssDisplayNoneSelector then
      -- Consolidate css selectors with identical triggers.
      let consolidated := rules.takeWhile (consolidates rule)
      let selector ← memory.appendString .empty rule.action.string
      let selector ← consolidateSelectors memory selector consolidated
      let actions ← serializeSelector memory written.actions selector
      serializeActionsFrom memory ((rule :: consolidated).getLast?)
        ⟨actions, written.actionLocations ++ List.replicate (consolidated.length + 1) location⟩
        (rules.dropWhile (consolidates rule))
    else if previous.any (fun previous => rule.action.isEqual previous.action) then
      -- Identical sequential actions should not be rewritten.
      serializeActionsFrom memory (some rule)
        { written with
          actionLocations := written.actionLocations ++
            [written.actionLocations.getLast?.getD 0] } rules
    else
      let actions ← serializeAction memory written.actions rule.action.type
      serializeActionsFrom memory (some rule) ⟨actions, written.actionLocations ++ [location]⟩ rules
  termination_by rules => rules.length
  decreasing_by
    · have hle := (List.dropWhile_sublist (consolidates rule) (l := rules)).length_le
      simp only [List.length_cons]
      omega
    · simp
    · simp

/-- The locations of the rules, and the actions. -/
def serializeActions (memory : Memory) (ruleList : List ContentExtensionRule) :
    Except Failure SerializedActions :=
  serializeActionsFrom memory none {} ruleList

end WebKit.ContentExtensions
