import WebKit.Platform.SegmentedStringAdvance
import WebKit.Transition.Run

/-!
# Advancing past a literal

`advancePast` looks at the characters of the current substring when there are enough of them, and
otherwise takes the characters one by one and puts them back when they are not the literal. What it
puts back is a substring of its own, so pushed characters that are still pending stay in front of
it, and it does not exclude line numbers.
-/

open List Function

namespace WebKit.Platform

open CharacterQueue SegmentedString SegmentedSubstring

namespace CharacterQueue

variable {q : CharacterQueue} {n : ℕ}

theorem advance_iterate (hle : n ≤ q.cells.length) :
    advance^[n] q = { q with cells := q.cells.drop n, consumed := q.consumed + n } := by
  induction n generalizing q with
  | zero =>
    apply CharacterQueue.ext
    · rfl
    · exact (add_zero q.consumed).symm
    · rfl
  | succ n ih =>
    obtain ⟨cells, consumed, line⟩ := q
    cases cells with
    | nil => cases hle
    | cons cell cells =>
      have hle' : n ≤ cells.length := Nat.le_of_succ_le_succ hle
      refine (ih (q := ⟨cells, consumed + 1, line⟩) hle').trans ?_
      apply CharacterQueue.ext
      · rfl
      · show consumed + 1 + (n : ℤ) = consumed + ((n + 1 : ℕ) : ℤ)
        omega
      · rfl

/-- Only newlines end lines. -/
def LinesEnd (q : CharacterQueue) : Prop :=
  ∀ cell ∈ q.cells, cell.endsLine = true → cell.character = newline

/-- To put the characters that have been taken back, in a fresh substring, changes nothing when the
newlines among them end lines. -/
theorem putBack_advance_iterate (hle : n ≤ q.cells.length) (hlines : q.LinesEnd)
    (hnewlines : ∀ cell ∈ q.cells.take n, cell.character = newline → cell.endsLine = true) :
    (advance^[n] q).putBack ((q.content.take n).map (CharacterCell.read true)) = q := by
  have hcells : (q.content.take n).map (CharacterCell.read true) = q.cells.take n := by
    unfold content
    rw [← map_take, map_map]
    refine (map_congr_left ?_).trans (map_id _)
    intro cell hmem
    have hends : cell.endsLine = decide (cell.character = newline) := by
      rw [Bool.eq_iff_iff, decide_eq_true_iff]
      exact ⟨hlines cell (mem_of_mem_take hmem), hnewlines cell hmem⟩
    show (⟨cell.character, decide (cell.character = newline) && true⟩ : CharacterCell) = cell
    rw [Bool.and_true, ← hends]
  rw [advance_iterate hle, hcells]
  apply CharacterQueue.ext
  · exact take_append_drop n q.cells
  · show q.consumed + n - (q.cells.take n).length = q.consumed
    rw [length_take_of_le hle, add_sub_cancel_right]
  · rfl

end CharacterQueue

namespace SegmentedString

variable {s : SegmentedString} {foldCase : UChar → UChar} {literal : List UChar}
  {caseSensitive : Bool}

theorem startsWith_take (characters : List UChar) :
    startsWith foldCase (characters.take literal.length) literal caseSensitive =
      startsWith foldCase characters literal caseSensitive := by
  unfold startsWith
  rw [Bool.eq_iff_iff, isPrefixOf_iff_prefix, isPrefixOf_iff_prefix, map_take,
    prefix_take_iff, length_map]
  exact and_iff_left le_rfl

theorem length_le_of_startsWith {characters : List UChar}
    (h : startsWith foldCase characters literal caseSensitive = true) :
    literal.length ≤ characters.length := by
  have hle := isPrefixOf_iff_prefix.mp h |>.length_le
  rwa [length_map, length_map] at hle

theorem linesEnd_toQueue (s : SegmentedString) : s.toQueue.LinesEnd := by
  intro cell hmem hends
  rcases mem_append.mp hmem with hpushed | hrest
  · obtain ⟨c, -, rfl⟩ := mem_map.mp hpushed
    cases hends
  · have hread : ∃ flag c, cell = CharacterCell.read flag c := by
      rcases mem_append.mp hrest with hcur | hsubs
      · obtain ⟨c, -, rfl⟩ := mem_map.mp hcur
        exact ⟨_, c, rfl⟩
      · obtain ⟨substring, -, hcell⟩ := mem_flatMap.mp hsubs
        obtain ⟨c, -, rfl⟩ := mem_map.mp hcell
        exact ⟨_, c, rfl⟩
    obtain ⟨flag, c, rfl⟩ := hread
    exact decide_eq_true_iff.mp (Bool.and_eq_true_iff.mp hends).1

theorem WellFormed.content_eq_cons (h : s.WellFormed) (hlen : 0 < s.toQueue.content.length) :
    s.toQueue.content = s.currentChar :: s.toQueue.advance.content := by
  have hchar := h.firstChar_eq
  rw [← h.currentChar_eq] at hchar
  unfold CharacterQueue.advance CharacterQueue.content at *
  cases hcells : s.toQueue.cells with
  | nil =>
    rw [hcells] at hlen
    cases hlen
  | cons cell cells =>
    rw [hcells] at hchar
    rw [hchar]
    rfl

theorem WellFormed.advancePastNonNewlines {count : ℕ} (h : s.WellFormed)
    (hle : count ≤ s.toQueue.content.length) :
    (advancePastNonNewlines count s).1 = s.toQueue.content.take count ∧
      (advancePastNonNewlines count s).2.WellFormed ∧
      (advancePastNonNewlines count s).2.toQueue = CharacterQueue.advance^[count] s.toQueue ∧
      (advancePastNonNewlines count s).2.numberOfPushedCharacters =
        s.numberOfPushedCharacters - count := by
  induction count generalizing s with
  | zero => exact ⟨rfl, h, rfl, rfl⟩
  | succ count ih =>
    obtain ⟨hs, hq⟩ := h.advance
    have hcons := h.content_eq_cons (lt_of_lt_of_le (Nat.succ_pos count) hle)
    rw [← hq] at hcons
    have hle' : count ≤ s.advance.toQueue.content.length := by
      rw [hcons, length_cons] at hle
      exact Nat.le_of_succ_le_succ hle
    obtain ⟨hconsumed, ht, hq', hpushed⟩ := ih hs hle'
    refine ⟨?_, ht, ?_, ?_⟩
    · rw [hcons, take_succ_cons, ← hconsumed]
      rfl
    · rw [iterate_succ_apply, ← hq, ← hq']
      rfl
    · rw [h.numberOfPushedCharacters_advance] at hpushed
      refine hpushed.trans ?_
      omega

theorem ofString_eq (string : SourceString) : (ofString string).pushedChar1 = 0 ∧
      (ofString string).currentString = SegmentedSubstring.ofString string ∧
      (ofString string).substrings = [] := by
  unfold ofString
  rw [updateAdvanceFunctionPointers_eq]
  exact ⟨rfl, rfl, rfl⟩

/-- The characters need not be taken one by one, or they are the literal or too few, or they can be
put back. -/
def CanAdvancePast (s : SegmentedString) (foldCase : UChar → UChar) (literal : List UChar)
    (caseSensitive : Bool) : Prop :=
  s.pushedChar1 = 0 ∧ literal.length ≤ s.currentString.length ∨
    startsWith foldCase s.toList literal caseSensitive = true ∨ s.length < literal.length ∨
    s.numberOfPushedCharacters ≤ literal.length ∧
      ∀ cell ∈ s.toQueue.cells.take literal.length, cell.character = newline → cell.endsLine = true

theorem WellFormed.advancePastSlowCase (h : s.WellFormed)
    (hput : startsWith foldCase s.toList literal caseSensitive = true ∨
      s.length < literal.length ∨ s.numberOfPushedCharacters ≤ literal.length ∧
        ∀ cell ∈ s.toQueue.cells.take literal.length, cell.character = newline →
          cell.endsLine = true) :
    (s.advancePastSlowCase foldCase literal caseSensitive).1 =
        s.toQueue.advancePastResult foldCase literal caseSensitive ∧
      (s.advancePastSlowCase foldCase literal caseSensitive).2.WellFormed ∧
      (s.advancePastSlowCase foldCase literal caseSensitive).2.toQueue =
        s.toQueue.advancePast foldCase literal caseSensitive := by
  rw [toList_eq] at hput
  have hlen := h.length_eq
  unfold SegmentedString.advancePastSlowCase CharacterQueue.advancePastResult
    CharacterQueue.advancePast CharacterQueue.startsWith
  by_cases hshort : s.length < literal.length
  · have hno : ¬startsWith foldCase s.toQueue.content literal caseSensitive = true := by
      intro hstarts
      have hle := length_le_of_startsWith hstarts
      omega
    have hshort' : s.toQueue.content.length < literal.length := by omega
    rw [if_pos hshort, if_neg hno, if_pos hshort', if_neg hno]
    exact ⟨rfl, h, rfl⟩
  have hle : literal.length ≤ s.toQueue.content.length := by omega
  obtain ⟨hconsumed, ht, hq, hpushed⟩ := h.advancePastNonNewlines hle
  rw [if_neg hshort]
  dsimp only
  rw [hconsumed, startsWith_take]
  by_cases hstarts : startsWith foldCase s.toQueue.content literal caseSensitive = true
  · rw [if_pos hstarts, if_pos hstarts, if_pos hstarts]
    exact ⟨rfl, ht, hq⟩
  · rw [if_neg hstarts, if_neg hstarts, if_neg hstarts, if_neg (by omega)]
    obtain ⟨hpend, hnewlines⟩ := (hput.resolve_left hstarts).resolve_left hshort
    have hzero : (SegmentedString.advancePastNonNewlines literal.length s).2.pushedChar1 = 0 := by
      rw [pushedChar1_eq_zero_iff, hpushed]
      omega
    obtain ⟨hfresh, hfreshQueue⟩ := ofString_spec ⟨s.toQueue.content.take literal.length, false⟩
    obtain ⟨hfreshPushed, hcur, hsubs⟩ :=
      ofString_eq ⟨s.toQueue.content.take literal.length, false⟩
    obtain ⟨hu, hq'⟩ := ht.pushBack hzero hfresh.toLinked hfreshPushed fun substring hmem => by
      rw [hsubs, mem_singleton, hcur] at hmem
      rw [hmem]
      exact .inr (consumed_ofString _)
    refine ⟨rfl, hu, ?_⟩
    have hle' : literal.length ≤ s.toQueue.cells.length := by
      unfold content at hle
      rwa [length_map] at hle
    rw [hq', hq, hfreshQueue]
    exact putBack_advance_iterate hle' s.linesEnd_toQueue hnewlines

theorem Linked.currentSubString_eq {n : ℕ} (h : s.Linked) (hpushed : s.pushedChar1 = 0)
    (hle : n ≤ s.currentString.length) :
    s.currentString.currentSubString n = s.toQueue.content.take n := by
  have hlen : n ≤ s.currentString.toList.length := by
    rw [toList_eq_map, length_map, h.current.length_cells]
    exact hle
  rw [← toList_eq]
  unfold toList
  rw [pushedCharacters_of_eq_zero hpushed, nil_append, take_append_of_le_length hlen]
  unfold SegmentedSubstring.toList SegmentedSubstring.currentSubString
  rw [take_take, min_eq_left hle]

theorem WellFormed.advancePast (h : s.WellFormed)
    (hput : s.CanAdvancePast foldCase literal caseSensitive) :
    (s.advancePast foldCase literal caseSensitive).1 =
        s.toQueue.advancePastResult foldCase literal caseSensitive ∧
      (s.advancePast foldCase literal caseSensitive).2.WellFormed ∧
      (s.advancePast foldCase literal caseSensitive).2.toQueue =
        s.toQueue.advancePast foldCase literal caseSensitive := by
  unfold SegmentedString.advancePast
  by_cases hcur : s.pushedChar1 = 0 ∧ literal.length ≤ s.currentString.length
  · obtain ⟨hpushed, hle⟩ := hcur
    have htake := h.currentSubString_eq hpushed hle
    have hle' : literal.length ≤ s.toQueue.content.length := by
      have hlen := h.length_eq
      unfold length at hlen
      omega
    unfold CharacterQueue.advancePastResult CharacterQueue.advancePast CharacterQueue.startsWith
    rw [if_pos ⟨hpushed, hle⟩, htake, startsWith_take]
    by_cases hstarts : startsWith foldCase s.toQueue.content literal caseSensitive = true
    · rw [if_pos hstarts, if_pos hstarts, if_pos hstarts]
      obtain ⟨-, ht, hq, -⟩ := h.advancePastNonNewlines hle'
      exact ⟨rfl, ht, hq⟩
    · rw [if_neg hstarts, if_neg hstarts, if_neg hstarts, if_neg (by omega)]
      exact ⟨rfl, h, rfl⟩
  · rw [if_neg hcur]
    exact h.advancePastSlowCase (hput.resolve_left hcur)

end SegmentedString

/-!
## Programs with segmented strings

A program with any number of segmented strings does to the queues they stand for what its operations
say, as long as every operation is `Safe`. In other words a string is not copied while two different
characters are pushed, nothing is pushed onto an empty string or behind another pushed character, a
substring that has been consumed in part is not appended to an empty string, and a literal that does
not match is not compared with more than the pushed characters allow.
-/

open Transition

inductive SegmentedStringOperation
  | create (i : ℕ) (string : SourceString)
  /-- A copy or an assignment. -/
  | copy (i j : ℕ)
  | append (i j : ℕ) (excludeLineNumbers : Bool)
  | pushBack (i j : ℕ) (excludeLineNumbers : Bool)
  | push (i : ℕ) (c : UChar)
  | pushTwo (i : ℕ) (c d : UChar)
  | advance (i : ℕ)
  | advanceAndUpdateLineNumber (i : ℕ)
  | advancePastNewlineAndUpdateLineNumber (i : ℕ)
  | advancePast (i : ℕ) (literal : List UChar) (caseSensitive : Bool)

variable {s : SegmentedString}

namespace SegmentedString

/-- The string itself, or a copy without line numbers. -/
def excluding (s : SegmentedString) (exclude : Bool) : SegmentedString :=
  if exclude then s.copy.setExcludeLineNumbers else s

/-- What can be observed of a string that stands for a queue. -/
structure Agrees (s : SegmentedString) (q : CharacterQueue) : Prop where
  toList_eq : s.toList = q.content
  currentChar_eq : s.currentChar = q.content.headD 0
  isEmpty_iff : s.empty = true ↔ q.content = []
  length_eq : s.length = q.content.length
  consumed_eq : s.numberOfCharactersConsumed = q.consumed
  currentLine_eq : s.currentLine = q.line

def CanCopy (s : SegmentedString) : Prop := s.pushedChar2 = 0 ∨ s.pushedChar2 = s.pushedChar1

theorem WellFormed.agrees (h : s.WellFormed) : s.Agrees s.toQueue where
  toList_eq := s.toList_eq
  currentChar_eq := h.currentChar_eq.trans h.firstChar_eq
  isEmpty_iff := h.isEmpty_iff
  length_eq := h.length_eq
  consumed_eq := rfl
  currentLine_eq := rfl

end SegmentedString

namespace CharacterQueue

def excluding (q : CharacterQueue) (exclude : Bool) : CharacterQueue :=
  if exclude then q.excludeLines else q

end CharacterQueue

namespace SegmentedString

theorem pushedChar1_excluding (s : SegmentedString) (exclude : Bool) :
    (s.excluding exclude).pushedChar1 = s.pushedChar1 := by
  cases exclude with
  | false | true => rfl

theorem Linked.excluding (h : s.Linked) (exclude : Bool) : (s.excluding exclude).Linked := by
  cases exclude with
  | false => exact h
  | true =>
    have hcopy : s.copy.Linked := ⟨h.current, h.substrings, h.composite⟩
    exact hcopy.setExcludeLineNumbers

theorem toQueue_excluding (s : SegmentedString) (exclude : Bool) :
    (s.excluding exclude).toQueue = s.toQueue.excluding exclude := by
  cases exclude with
  | false => rfl
  | true => exact toQueue_setExcludeLineNumbers s.copy

end SegmentedString

namespace SegmentedStringOperation

variable (foldCase : UChar → UChar)

def apply (s : ℕ → SegmentedString) : SegmentedStringOperation → ℕ → SegmentedString
  | .create i string => update s i (.ofString string)
  | .copy i j => update s i (s j).copy
  | .append i j excludeLineNumbers =>
    update s i ((s i).append ((s j).excluding excludeLineNumbers))
  | .pushBack i j excludeLineNumbers =>
    update s i ((s i).pushBack ((s j).excluding excludeLineNumbers))
  | .push i c => update s i ((s i).push c)
  | .pushTwo i c d => update s i (((s i).push c).push d)
  | .advance i => update s i (s i).advance
  | .advanceAndUpdateLineNumber i => update s i (s i).advanceAndUpdateLineNumber
  | .advancePastNewlineAndUpdateLineNumber i =>
    update s i (s i).advancePastNewlineAndUpdateLineNumber
  | .advancePast i literal caseSensitive =>
    update s i ((s i).advancePast foldCase literal caseSensitive).2

/-- What the operation is for. -/
def applyQueue (q : ℕ → CharacterQueue) : SegmentedStringOperation → ℕ → CharacterQueue
  | .create i string => update q i (.ofString string)
  | .copy i j => update q i (q j)
  | .append i j excludeLineNumbers =>
    update q i ((q i).append ((q j).excluding excludeLineNumbers))
  | .pushBack i j excludeLineNumbers =>
    update q i ((q i).putBack ((q j).excluding excludeLineNumbers).cells)
  | .push i c => update q i ((q i).putBack [.pushed c])
  | .pushTwo i c d => update q i ((q i).putBack [.pushed c, .pushed d])
  | .advance i => update q i (q i).advance
  | .advanceAndUpdateLineNumber i => update q i (q i).advanceAndUpdateLineNumber
  | .advancePastNewlineAndUpdateLineNumber i =>
    update q i (q i).advanceAndUpdateLineNumber
  | .advancePast i literal caseSensitive =>
    update q i ((q i).advancePast foldCase literal caseSensitive)

/-- What the assertions ask for, and that no NUL is pushed. -/
def Legal (s : ℕ → SegmentedString) : SegmentedStringOperation → Prop
  | .append i j _ => i ≠ j ∧ (s j).pushedChar1 = 0
  | .pushBack i j _ => i ≠ j ∧ (s i).pushedChar1 = 0 ∧ (s j).pushedChar1 = 0 ∧
    ∀ substring ∈ (s j).currentString :: (s j).substrings, substring.numberOfCharactersConsumed = 0
  | .push i c => c ≠ 0 ∧ (s i).pushedChar2 = 0
  | .pushTwo i c d => c ≠ 0 ∧ d ≠ 0 ∧ (s i).pushedChar1 = 0
  | .advancePastNewlineAndUpdateLineNumber i => (s i).currentChar = newline
  | _ => True

def Safe (s : ℕ → SegmentedString) : SegmentedStringOperation → Prop
  | .copy _ j => (s j).CanCopy
  | .append i j _ => (s j).currentString.length = 0 ∨ (s i).currentString.length ≠ 0 ∨
    (s j).currentString.numberOfCharactersConsumed = 0
  | .push i _ => (s i).pushedChar1 = 0 ∧ (s i).currentString.length ≠ 0
  | .pushTwo i _ _ => (s i).currentString.length ≠ 0
  | .advancePast i literal caseSensitive => (s i).CanAdvancePast foldCase literal caseSensitive
  | _ => True

end SegmentedStringOperation

/-- The strings of a program, and the queues that they should stand for. -/
structure SegmentedStringState where
  strings : ℕ → SegmentedString
  queues : ℕ → CharacterQueue

namespace SegmentedStringState

variable {foldCase : UChar → UChar} {state t : SegmentedStringState}
  {operation : SegmentedStringOperation} {operations : List SegmentedStringOperation}

def start : SegmentedStringState := ⟨fun _ => .create, fun _ => .empty⟩

def Step (foldCase : UChar → UChar) (state : SegmentedStringState)
    (operation : SegmentedStringOperation) (t : SegmentedStringState) : Prop :=
  operation.Legal state.strings ∧ t.strings = operation.apply foldCase state.strings ∧
    t.queues = operation.applyQueue foldCase state.queues

def Safe (foldCase : UChar → UChar) (state : SegmentedStringState)
    (operation : SegmentedStringOperation) : Prop :=
  operation.Safe foldCase state.strings

/-- Every string is well formed and stands for its queue. -/
def Represents (strings : ℕ → SegmentedString) (queues : ℕ → CharacterQueue) : Prop :=
  ∀ i, (strings i).WellFormed ∧ (strings i).toQueue = queues i

theorem represents_start : Represents start.strings start.queues :=
  fun _ => ⟨wellFormed_create, rfl⟩

theorem Represents.update {strings : ℕ → SegmentedString} {queues : ℕ → CharacterQueue} {q : CharacterQueue} (h : Represents strings queues) (i : ℕ)
    (hs : s.WellFormed) (hq : s.toQueue = q) :
    Represents (update strings i s) (update queues i q) := by
  intro j
  by_cases hij : j = i
  · rw [hij, update_self, update_self]
    exact ⟨hs, hq⟩
  · rw [update_of_ne hij, update_of_ne hij]
    exact h j

theorem Represents.apply {s : ℕ → SegmentedString} {q : ℕ → CharacterQueue}
    (h : Represents s q) (hlegal : operation.Legal s) (hsafe : operation.Safe foldCase s) :
    Represents (operation.apply foldCase s) (operation.applyQueue foldCase q) := by
  cases operation with
  | create i string =>
    obtain ⟨hs, hq⟩ := ofString_spec string
    exact h.update i hs hq
  | copy i j =>
    obtain ⟨hs, hq⟩ := h j
    have hcopy := hs.copy_eq hsafe
    exact h.update i (hcopy.symm ▸ hs) (by rw [hcopy, hq])
  | append i j excludeLineNumbers =>
    obtain ⟨-, hpushed⟩ := hlegal
    obtain ⟨hs, hq⟩ := h i
    obtain ⟨hs', hq'⟩ := h j
    have hconsumed : ((s j).excluding excludeLineNumbers).currentString.length = 0 ∨
        (s i).currentString.length ≠ 0 ∨
        ((s j).excluding excludeLineNumbers).currentString.numberOfCharactersConsumed = 0 := by
      cases excludeLineNumbers with
      | false => exact hsafe
      | true => exact hsafe
    obtain ⟨ht, hqueue⟩ := hs.append (hs'.toLinked.excluding excludeLineNumbers)
      ((pushedChar1_excluding _ _).trans hpushed) hconsumed
    apply h.update i ht
    rw [hqueue, toQueue_excluding, hq, hq']
  | pushBack i j excludeLineNumbers =>
    obtain ⟨-, hpushed, hpushed', hfresh⟩ := hlegal
    obtain ⟨hs, hq⟩ := h i
    obtain ⟨hs', hq'⟩ := h j
    have hconsumed : ∀ substring ∈ ((s j).excluding excludeLineNumbers).currentString ::
        ((s j).excluding excludeLineNumbers).substrings,
        substring.length = 0 ∨ substring.numberOfCharactersConsumed = 0 := by
      intro substring hmem
      apply Or.inr
      cases excludeLineNumbers with
      | false => exact hfresh substring hmem
      | true =>
        rcases mem_cons.mp hmem with rfl | hrest
        · exact hfresh (s j).currentString mem_cons_self
        · obtain ⟨substring, hold, rfl⟩ := mem_map.mp hrest
          exact hfresh substring (mem_cons_of_mem _ hold)
    obtain ⟨ht, hqueue⟩ := hs.pushBack hpushed (hs'.toLinked.excluding excludeLineNumbers)
      ((pushedChar1_excluding _ _).trans hpushed') hconsumed
    apply h.update i ht
    rw [hqueue, toQueue_excluding, hq, hq']
  | push i c =>
    obtain ⟨hs, hq⟩ := h i
    obtain ⟨ht, -, -, hqueue⟩ := hs.push hsafe.1 hsafe.2 hlegal.1
    apply h.update i ht
    rw [hqueue, hq]
  | pushTwo i c d =>
    obtain ⟨hs, hq⟩ := h i
    obtain ⟨ht, hqueue⟩ := hs.push_second hlegal.2.2 hsafe hlegal.1 hlegal.2.1
    apply h.update i ht
    rw [hqueue, hq]
  | advance i =>
    obtain ⟨hs, hq⟩ := h i
    apply h.update i hs.advance.1
    rw [hs.advance.2, hq]
  | advanceAndUpdateLineNumber i =>
    obtain ⟨hs, hq⟩ := h i
    apply h.update i hs.advanceAndUpdateLineNumber.1
    rw [hs.advanceAndUpdateLineNumber.2, hq]
  | advancePastNewlineAndUpdateLineNumber i =>
    obtain ⟨hs, hq⟩ := h i
    obtain ⟨ht, hqueue⟩ := hs.advancePastNewlineAndUpdateLineNumber hlegal
    apply h.update i ht
    rw [hqueue, hq]
  | advancePast i literal caseSensitive =>
    obtain ⟨hs, hq⟩ := h i
    obtain ⟨-, ht, hqueue⟩ := hs.advancePast hsafe
    apply h.update i ht
    rw [hqueue, hq]

theorem represents_of_run (hrun : Run (guarded (Step foldCase) (Safe foldCase)) start operations
    state) : Represents state.strings state.queues := by
  refine hrun.preserves (I := fun state => Represents state.strings state.queues) ?_
    represents_start
  intro state operation t h ⟨hsafe, hlegal, hstrs, hqueues⟩
  rw [hstrs, hqueues]
  exact h.apply hlegal hsafe

end SegmentedStringState

end WebKit.Platform
