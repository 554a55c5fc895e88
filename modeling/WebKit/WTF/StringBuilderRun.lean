import WebKit.Transition.Run
import WebKit.WTF.StringBuilderOperations

/-!
# Runs of a program with `StringBuilder`s

In every run the builders and the strings are the sequences of characters that the operations
should give, as long as no operation leaves a builder whose flag is not the width of its
characters (`Safe`).
-/

open List

namespace WebKit.WTF

open Transition

namespace StringBuilderOperation

/-- What an operation does to the sequences. -/
def apply (b : Sequences) : StringBuilderOperation → Sequences
  | .create =>
    { b with
      builders := Function.update b.builders b.builderCount []
      builderCount := b.builderCount + 1 }
  | .newString _ characters => { b with strings := b.strings ++ [characters] }
  | .release k => { b with strings := b.strings.eraseIdx k }
  | .append8 i characters => b.setBuilder i (b.builders i ++ characters)
  | .append16 i characters => b.setBuilder i (b.builders i ++ characters)
  | .appendLChar i c => b.setBuilder i (b.builders i ++ [c])
  | .appendUChar i c => b.setBuilder i (b.builders i ++ [c])
  | .appendString i k => b.setBuilder i (b.builders i ++ b.strings.getD k [])
  | .appendSubstring i k offset length =>
    b.setBuilder i (b.builders i ++
      if offset + length ≤ (b.strings.getD k []).length then
        ((b.strings.getD k []).drop offset).take length else [])
  | .appendBuilder i j => b.setBuilder i (b.builders i ++ b.builders j)
  | .resize i newSize => b.setBuilder i ((b.builders i).take newSize)
  | .reserveCapacity _ _ => b
  | .shrinkToFit _ => b
  | .toString i => { b with strings := b.strings ++ [b.builders i] }
  | .toStringPreserveCapacity i => { b with strings := b.strings ++ [b.builders i] }
  | .clear i => b.setBuilder i []
  | .swap i j => (b.setBuilder i (b.builders j)).setBuilder j (b.builders i)

/-- The builders exist, lengths are `unsigned`, and `resize` does not get a larger length. -/
def Legal (b : Sequences) : StringBuilderOperation → Prop
  | .create => True
  | .newString _ characters => characters.length < 2 ^ 32
  | .release _ => True
  | .append8 i characters => i < b.builderCount ∧ characters.length < 2 ^ 32
  | .append16 i characters => i < b.builderCount ∧ characters.length < 2 ^ 32
  | .appendLChar i _ => i < b.builderCount
  | .appendUChar i _ => i < b.builderCount
  | .appendString i _ => i < b.builderCount
  | .appendSubstring i _ _ _ => i < b.builderCount
  | .appendBuilder i j => i < b.builderCount ∧ j < b.builderCount ∧ i ≠ j
  | .resize i newSize => i < b.builderCount ∧ newSize ≤ (b.builders i).length
  | .reserveCapacity i _ => i < b.builderCount
  | .shrinkToFit i => i < b.builderCount
  | .toString i => i < b.builderCount
  | .toStringPreserveCapacity i => i < b.builderCount
  | .clear i => i < b.builderCount
  | .swap i j => i < b.builderCount ∧ j < b.builderCount

/-- An empty builder without a buffer takes over a string of its own width only, and gets a
buffer only when it is an 8 bit builder; and the end of a substring is computed without
overflow, or is not in the string. -/
def Safe (s : StringBuilders) : StringBuilderOperation → Prop
  | .appendBuilder i j =>
    (s.builders i).length = 0 → (s.builders i).buffer = none → (s.builders j).length ≠ 0 →
      (s.builders j).string ≠ none → (s.builders i).is8Bit = (s.builders j).is8Bit
  | .reserveCapacity i newCapacity =>
    (s.builders i).length = 0 → (s.builders i).buffer = none → 0 < newCapacity →
      (s.builders i).is8Bit = true
  | .appendSubstring _ k offset length =>
    ∀ string, s.strings[k]? = some string →
      (offset + length) % 2 ^ 32 ≤ string.length → offset + length < 2 ^ 32
  | _ => True

end StringBuilderOperation

namespace StringBuilders

variable {s : StringBuilders} {b : Sequences}

theorem represents_initial : initial.Represents ⟨fun _ => [], 0, []⟩ where
  builderCount_eq := rfl
  implCount_pos := Nat.zero_lt_one
  empty_eq := rfl
  length_lt := fun _ => Nat.two_pow_pos 32
  builder := fun _ => initial.holds_empty
  unused := fun _ _ => rfl
  strings_valid := nofun
  strings_eq := rfl
  buffer_unique := nofun
  shown := nofun

theorem Represents.getD_strings (h : s.Represents b) {k : ℕ} {string : StringRef}
    (hk : s.strings[k]? = some string) : b.strings.getD k [] = s.contents string := by
  rw [← h.strings_eq, getD_eq_getElem?_getD, getElem?_map, hk]
  rfl

theorem Represents.getD_strings_none (h : s.Represents b) {k : ℕ}
    (hk : s.strings[k]? = none) : b.strings.getD k [] = [] := by
  rw [← h.strings_eq, getD_eq_getElem?_getD, getElem?_map, hk]
  rfl

/-- A legal and safe operation does what it does to the sequences, or there is no memory. -/
theorem Represents.perform (h : s.Represents b) (uninitialized : ℕ → UInt16)
    {operation : StringBuilderOperation} (hlegal : operation.Legal b) (hsafe : operation.Safe s) :
    Outcome (· = .crash) (fun t => t.Represents (operation.apply b))
      (s.perform uninitialized operation) := by
  cases operation with
  | create => exact h.create
  | newString is8Bit characters => exact h.newString hlegal
  | release k => exact h.release k
  | append8 i characters => exact h.append8 uninitialized hlegal.1 hlegal.2
  | append16 i characters => exact h.append16 uninitialized hlegal.1 hlegal.2
  | appendLChar i c => exact h.appendLChar uninitialized hlegal c
  | appendUChar i c => exact h.appendUChar uninitialized hlegal c
  | appendString i k =>
    rw [StringBuilders.perform, StringBuilderOperation.apply]
    rcases hk : s.strings[k]? with _ | string
    · rw [h.getD_strings_none hk]
      exact h.appended_nil
    · rw [h.getD_strings hk]
      exact h.appendString uninitialized hlegal (.inl (mem_of_getElem? hk))
  | appendSubstring i k offset length =>
    rw [StringBuilders.perform, StringBuilderOperation.apply]
    rcases hk : s.strings[k]? with _ | string
    · rw [h.getD_strings_none hk, drop_nil, take_nil, ite_self]
      exact h.appended_nil
    · rw [h.getD_strings hk]
      exact h.appendSubstring uninitialized hlegal (.inl (mem_of_getElem? hk)) (hsafe string hk)
  | appendBuilder i j => exact h.appendBuilder uninitialized hlegal.1 hsafe
  | resize i newSize => exact h.resize uninitialized hlegal.1 hlegal.2
  | reserveCapacity i newCapacity => exact h.reserveCapacity uninitialized hlegal hsafe
  | shrinkToFit i => exact h.shrinkToFit uninitialized hlegal
  | toString i => exact h.toString uninitialized hlegal
  | toStringPreserveCapacity i => exact h.toStringPreserveCapacity hlegal
  | clear i => exact h.clear hlegal
  | swap i j => exact h.swap hlegal.1 hlegal.2

/-- The builder is the sequence, as far as its users can see, and its flag is the width of the
characters that are read. -/
structure Agrees (s : StringBuilders) (i : ℕ) (content : List UInt16) : Prop where
  length_eq : (s.builders i).length = content.length
  characterAt_eq : ∀ k (hk : k < content.length), s.characterAt i k = .ok content[k]
  string_is8Bit : ∀ string, (s.builders i).string = some string → 0 < (s.builders i).length →
    (s.impls string.impl).is8Bit = (s.builders i).is8Bit
  buffer_is8Bit : ∀ impl, (s.builders i).buffer = some impl →
    (s.impls impl).is8Bit = (s.builders i).is8Bit

theorem Represents.agrees (h : s.Represents b) (i : ℕ) : s.Agrees i (b.builders i) where
  length_eq := (h.builder i).length_eq
  characterAt_eq := fun _ hk => h.characterAt hk
  string_is8Bit := (h.builder i).string_is8Bit
  buffer_is8Bit := (h.builder i).buffer_is8Bit

end StringBuilders

/-- The builders of a program and what they should hold. -/
structure StringBuilderState where
  builders : StringBuilders
  sequences : Sequences

namespace StringBuilderState

def start : StringBuilderState := ⟨.initial, ⟨fun _ => [], 0, []⟩⟩

structure Step (uninitialized : ℕ → UInt16) (state : StringBuilderState)
    (operation : StringBuilderOperation) (state' : StringBuilderState) : Prop where
  legal : operation.Legal state.sequences
  perform : state.builders.perform uninitialized operation = .ok state'.builders
  apply : state'.sequences = operation.apply state.sequences

def Safe (state : StringBuilderState) (operation : StringBuilderOperation) : Prop :=
  operation.Safe state.builders

/-- All builders and all strings are what they should be. -/
def Agree (state : StringBuilderState) : Prop :=
  (∀ i < state.sequences.builderCount, state.builders.Agrees i (state.sequences.builders i)) ∧
    state.builders.strings.map state.builders.contents = state.sequences.strings

variable {uninitialized : ℕ → UInt16} {state : StringBuilderState}
  {operations : List StringBuilderOperation}

theorem represents_of_run (hrun : Run (guarded (Step uninitialized) Safe) start operations state) :
    state.builders.Represents state.sequences := by
  refine hrun.preserves (I := fun state => state.builders.Represents state.sequences) ?_
    StringBuilders.represents_initial
  intro s operation t h ⟨hsafe, hstep⟩
  rw [hstep.apply]
  exact (h.perform uninitialized hstep.legal hsafe).of_ok hstep.perform

end StringBuilderState

end WebKit.WTF
