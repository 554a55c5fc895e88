import Mathlib.Data.List.GetD
import Mathlib.Data.List.Infix
import WebKit.Platform.SegmentedString

/-!
# Well-formed segmented strings

A `SegmentedString` stands for a `CharacterQueue` (`toQueue`). In a well-formed string the pointers,
the cached functions and `currentChar` agree with the substrings, so the observers are functions of
the queue.
-/

open List

namespace WebKit.Platform

open SegmentedSubstring CharacterQueue CharacterCell

/-! ## Substrings -/

namespace SegmentedSubstring

variable {substring : SegmentedSubstring}

def cells (substring : SegmentedSubstring) : List CharacterCell :=
  substring.toList.map (read substring.doNotExcludeLineNumbers)

/-- The pointer is where the characters that are left begin. -/
structure Valid (substring : SegmentedSubstring) : Prop where
  length_le : substring.length ≤ substring.string.characters.length
  data_eq : substring.length ≠ 0 →
    substring.data = some (substring.string.characters.length - substring.length)

theorem valid_empty : empty.Valid := ⟨le_rfl, fun h => absurd rfl h⟩

section

variable (string : SourceString)

theorem valid_ofString : (ofString string).Valid := by
  unfold ofString
  split
  · exact ⟨le_rfl, fun _ => by rw [Nat.sub_self]⟩
  · exact ⟨Nat.zero_le _, fun h => absurd rfl h⟩

theorem length_ofString :
    (ofString string).length = string.characters.length := by
  unfold ofString
  split
  · rfl
  · rename_i h
    exact (not_not.mp h).symm

theorem string_ofString : (ofString string).string = string := by
  unfold ofString
  split <;> rfl

theorem consumed_ofString :
    (ofString string).numberOfCharactersConsumed = 0 := by
  unfold numberOfCharactersConsumed
  rw [length_ofString, string_ofString, Int.sub_self]

end

theorem Valid.setExcludeLineNumbers (h : substring.Valid) :
    substring.setExcludeLineNumbers.Valid := ⟨h.length_le, h.data_eq⟩

theorem toList_eq (substring : SegmentedSubstring) : substring.toList =
    substring.string.characters.drop (substring.string.characters.length - substring.length) := by
  apply take_of_length_le
  rw [length_drop]
  omega

theorem cells_of_length_eq_zero (h : substring.length = 0) : substring.cells = [] := by
  unfold cells toList
  rw [h]
  rfl

theorem Valid.length_cells (h : substring.Valid) : substring.cells.length = substring.length := by
  unfold cells
  rw [length_map, substring.toList_eq, length_drop]
  have hle := h.length_le
  omega

theorem Valid.cells_eq_cons (h : substring.Valid) (hne : substring.length ≠ 0) : substring.cells =
      read substring.doNotExcludeLineNumbers substring.getCurrentChar ::
        cells { substring with length := substring.length - 1 } := by
  have hle := h.length_le
  have hlt : substring.string.characters.length - substring.length <
      substring.string.characters.length := by omega
  have hnext : substring.string.characters.length - (substring.length - 1) =
      substring.string.characters.length - substring.length + 1 := by omega
  have hrest : toList { substring with length := substring.length - 1 } =
      substring.string.characters.drop
        (substring.string.characters.length - (substring.length - 1)) := toList_eq _
  unfold cells
  rw [substring.toList_eq, hrest, hnext, drop_eq_getElem_cons hlt, map_cons]
  unfold getCurrentChar
  rw [h.data_eq hne]
  dsimp only
  rw [getD_eq_getElem _ _ hlt]

theorem cells_setExcludeLineNumbers (substring : SegmentedSubstring) :
    substring.setExcludeLineNumbers.cells = substring.cells.map excludeLine := by
  unfold cells
  rw [map_map]
  apply map_congr_left
  intro c _
  show (⟨c, decide (c = newline) && false⟩ : CharacterCell) = ⟨c, false⟩
  rw [Bool.and_false]

theorem toList_eq_map (substring : SegmentedSubstring) :
    substring.toList = substring.cells.map character := by
  unfold cells
  rw [map_map]
  exact (map_id _).symm

end SegmentedSubstring

namespace SegmentedString

variable {s : SegmentedString}

/-! ## Well-formed strings -/

/-- The queue that a string stands for. -/
def toQueue (s : SegmentedString) : CharacterQueue where
  cells := s.pushedCharacters.map pushed ++
    (s.currentString.cells ++ s.substrings.flatMap SegmentedSubstring.cells)
  consumed := s.numberOfCharactersConsumed
  line := s.currentLine

/-- What `currentChar` should be. -/
def firstChar (s : SegmentedString) : UChar :=
  if s.pushedChar1 ≠ 0 then s.pushedChar1 else s.frontChar

def fastPath (s : SegmentedString) : Prop := 1 < s.currentString.length ∧ s.pushedChar1 = 0

instance : Decidable s.fastPath := inferInstanceAs (Decidable (_ ∧ _))

/-- The flags and functions that advance. -/
def cached (s : SegmentedString) : Bool × Bool × AdvanceFunction × AdvanceFunction :=
  (s.use8BitAdvance, s.use8BitAdvanceAndUpdateLineNumbers, s.advanceFunc,
    s.advanceAndUpdateLineNumberFunc)

/-- What `updateAdvanceFunctionPointers` caches. -/
def chosen (s : SegmentedString) : Bool × Bool × AdvanceFunction × AdvanceFunction :=
  if s.fastPath then
    if s.currentString.is8Bit then
      (true, s.currentString.doNotExcludeLineNumbers, .advance8,
        if s.currentString.doNotExcludeLineNumbers then .advanceAndUpdateLineNumber8 else .advance8)
    else
      (false, false, .advance16,
        if s.currentString.doNotExcludeLineNumbers then .advanceAndUpdateLineNumber16
        else .advance16)
  else (false, false, .advanceSlowCase, .advanceAndUpdateLineNumberSlowCase)

/-- The substrings that a string is made of. -/
structure Linked (s : SegmentedString) : Prop where
  current : s.currentString.Valid
  substrings : ∀ substring ∈ s.substrings, substring.Valid ∧ substring.length ≠ 0
  composite : s.currentString.length = 0 → s.substrings = []

/-- The parts of a string are right, whatever it has cached. -/
structure Built (s : SegmentedString) : Prop extends Linked s where
  pushed : s.pushedChar1 ≠ 0 → s.currentString.length ≠ 0
  pushed₂ : s.pushedChar1 = 0 → s.pushedChar2 = 0

/-- A string whose `currentChar` may be out of date. -/
structure Consistent (s : SegmentedString) : Prop extends Built s where
  empty_eq : s.empty = decide (s.currentString.length = 0)
  functions : s.cached = s.chosen ∨
    s.currentString.length = 0 ∧ s.cached = (false, false, .advanceEmpty, .advanceEmpty)

structure WellFormed (s : SegmentedString) : Prop extends Consistent s where
  currentChar_eq : s.currentChar = s.firstChar

theorem pushedCharacters_of_eq_zero (h : s.pushedChar1 = 0) : s.pushedCharacters = [] := by
  unfold pushedCharacters
  rw [if_neg (not_not.mpr h)]

theorem numberOfPushedCharacters_eq (s : SegmentedString) :
    s.numberOfPushedCharacters = s.pushedCharacters.length := by
  unfold numberOfPushedCharacters pushedCharacters
  split
  · split <;> rfl
  · rfl

theorem numberOfPushedCharacters_of_eq_zero (h : s.pushedChar1 = 0) :
    s.numberOfPushedCharacters = 0 := by
  rw [numberOfPushedCharacters_eq, pushedCharacters_of_eq_zero h]
  rfl

theorem Consistent.pushed_of_length_eq_zero (h : s.Consistent)
    (hlen : s.currentString.length = 0) : s.pushedChar1 = 0 := by
  by_contra hpushed
  exact h.pushed hpushed hlen

theorem Consistent.cells_of_length_eq_zero (h : s.Consistent)
    (hlen : s.currentString.length = 0) : s.toQueue.cells = [] := by
  unfold toQueue
  rw [pushedCharacters_of_eq_zero (h.pushed_of_length_eq_zero hlen), h.composite hlen,
    SegmentedSubstring.cells_of_length_eq_zero hlen]
  rfl

theorem toList_eq (s : SegmentedString) : s.toList = s.toQueue.content := by
  unfold toList toQueue CharacterQueue.content
  rw [map_append, map_append, map_map, map_flatMap, toList_eq_map, append_assoc]
  have hpushed : s.pushedCharacters.map (character ∘ pushed) = s.pushedCharacters := map_id _
  rw [hpushed]
  congr 2
  apply flatMap_congr
  intro substring _
  exact substring.toList_eq_map

theorem Linked.length_eq (h : s.Linked) : s.length = s.toQueue.content.length := by
  have hrest : (s.substrings.map SegmentedSubstring.length).sum =
      (s.substrings.flatMap SegmentedSubstring.cells).length := by
    rw [length_flatMap]
    congr 1
    apply map_congr_left
    intro substring hmem
    exact (h.substrings substring hmem).1.length_cells.symm
  unfold length toQueue CharacterQueue.content
  rw [length_map, length_append, length_append, length_map,
    h.current.length_cells, numberOfPushedCharacters_eq, hrest]
  omega

theorem Consistent.isEmpty_iff (h : s.Consistent) : s.empty = true ↔ s.toQueue.content = [] := by
  rw [h.empty_eq, decide_eq_true_iff]
  constructor
  · intro hlen
    unfold content
    rw [h.cells_of_length_eq_zero hlen]
    rfl
  · intro hcont
    have hlen := h.length_eq
    rw [hcont] at hlen
    unfold length at hlen
    rw [length_nil] at hlen
    omega

theorem Consistent.firstChar_eq (h : s.Consistent) : s.firstChar = s.toQueue.content.headD 0 := by
  unfold firstChar frontChar
  by_cases hpushed : s.pushedChar1 = 0
  · rw [if_neg (not_not.mpr hpushed)]
    unfold toQueue content
    rw [pushedCharacters_of_eq_zero hpushed]
    split
    · rename_i hlen
      rw [h.current.cells_eq_cons hlen]
      rfl
    · rename_i hlen
      rw [not_not] at hlen
      rw [SegmentedSubstring.cells_of_length_eq_zero hlen, h.composite hlen]
      rfl
  · rw [if_pos hpushed]
    unfold toQueue content pushedCharacters
    rw [if_pos hpushed]
    split <;> rfl

theorem chosen_of_not_fastPath (h : ¬s.fastPath) :
    s.chosen = (false, false, .advanceSlowCase, .advanceAndUpdateLineNumberSlowCase) := by
  unfold chosen
  rw [if_neg h]

theorem chosen_of_fastPath (h : s.fastPath) : s.chosen = if s.currentString.is8Bit then
      (true, s.currentString.doNotExcludeLineNumbers, .advance8,
        if s.currentString.doNotExcludeLineNumbers then .advanceAndUpdateLineNumber8 else .advance8)
    else
      (false, false, .advance16,
        if s.currentString.doNotExcludeLineNumbers then .advanceAndUpdateLineNumber16
        else .advance16) := by
  unfold chosen
  rw [if_pos h]

theorem updateAdvanceFunctionPointers_eq (s : SegmentedString) : s.updateAdvanceFunctionPointers =
      { s with
        use8BitAdvance := s.chosen.1
        use8BitAdvanceAndUpdateLineNumbers := s.chosen.2.1
        advanceFunc := s.chosen.2.2.1
        advanceAndUpdateLineNumberFunc := s.chosen.2.2.2 } := by
  unfold updateAdvanceFunctionPointers
  by_cases hfast : s.fastPath
  · have hcond : 1 < s.currentString.length ∧ s.pushedChar1 = 0 := hfast
    rw [chosen_of_fastPath hfast, if_pos hcond]
    by_cases h8 : s.currentString.is8Bit = true
    · simp only [if_pos h8]
    · simp only [if_neg h8]
  · have hcond : ¬(1 < s.currentString.length ∧ s.pushedChar1 = 0) := hfast
    rw [chosen_of_not_fastPath hfast, if_neg hcond]
    rfl

theorem toQueue_updateAdvanceFunctionPointers (s : SegmentedString) :
    s.updateAdvanceFunctionPointers.toQueue = s.toQueue := by
  rw [updateAdvanceFunctionPointers_eq]
  rfl

theorem Built.updateAdvanceFunctionPointers (h : s.Built)
    (hempty : s.empty = decide (s.currentString.length = 0)) :
    s.updateAdvanceFunctionPointers.Consistent := by
  rw [updateAdvanceFunctionPointers_eq]
  exact { h with
    empty_eq := hempty
    functions := .inl rfl }

theorem Consistent.updateCurrentChar (h : s.Consistent) : s.updateCurrentChar.WellFormed :=
  { h with currentChar_eq := rfl }

/-! ## New strings -/

theorem wellFormed_create : create.WellFormed where
  current := valid_empty
  substrings _ hmem := nomatch hmem
  composite _ := rfl
  pushed hpushed := absurd rfl hpushed
  pushed₂ _ := rfl
  empty_eq := rfl
  functions := .inr ⟨rfl, rfl⟩
  currentChar_eq := rfl

theorem ofString_spec (string : SourceString) : (ofString string).WellFormed ∧
      (ofString string).toQueue = CharacterQueue.ofString string := by
  have hlen := length_ofString string
  have hvalid := valid_ofString string
  have hflag : (SegmentedSubstring.ofString string).doNotExcludeLineNumbers = true := by
    unfold SegmentedSubstring.ofString
    split <;> rfl
  constructor
  · unfold ofString
    rw [updateAdvanceFunctionPointers_eq]
    exact {
      current := hvalid
      substrings := fun _ hmem => nomatch hmem
      composite := fun _ => rfl
      pushed := fun hpushed => absurd rfl hpushed
      pushed₂ := fun _ => rfl
      empty_eq := by
        rw [hlen]
        cases string.characters with
        | nil | cons => rfl
      functions := .inl rfl
      currentChar_eq := rfl }
  · unfold ofString
    rw [toQueue_updateAdvanceFunctionPointers]
    have hcells : (SegmentedSubstring.ofString string).cells =
        string.characters.map (read true) := by
      unfold SegmentedSubstring.cells
      rw [SegmentedSubstring.toList_eq, hflag, hlen, SegmentedSubstring.string_ofString, Nat.sub_self]
      rfl
    apply CharacterQueue.ext
    · show (SegmentedSubstring.ofString string).cells ++ [] = _
      rw [hcells, append_nil]
      rfl
    · show (0 : ℤ) + (SegmentedSubstring.ofString string).numberOfCharactersConsumed - 0 = 0
      rw [consumed_ofString]
      rfl
    · rfl

/-- A copy with at most one pushed character is the string itself. -/
theorem WellFormed.copy_eq (h : s.WellFormed)
    (hpushed : s.pushedChar2 = 0 ∨ s.pushedChar2 = s.pushedChar1) : s.copy = s := by
  have hchar : (if s.pushedChar2 ≠ 0 then s.pushedChar2
      else if s.pushedChar1 ≠ 0 then s.pushedChar1
      else s.frontChar) = s.currentChar := by
    rw [h.currentChar_eq]
    unfold firstChar
    rcases hpushed with hzero | heq
    · rw [if_neg (not_not.mpr hzero)]
    · rw [heq]
      split <;> rfl
  unfold copy
  rw [hchar]

theorem Linked.setExcludeLineNumbers (h : s.Linked) : s.setExcludeLineNumbers.Linked where
  current := h.current.setExcludeLineNumbers
  substrings substring hmem := by
    obtain ⟨substring, hold, rfl⟩ := mem_map.mp hmem
    obtain ⟨hvalid, hne⟩ := h.substrings substring hold
    exact ⟨hvalid.setExcludeLineNumbers, hne⟩
  composite hlen := by
    show s.substrings.map SegmentedSubstring.setExcludeLineNumbers = []
    rw [h.composite hlen]
    rfl

theorem toQueue_setExcludeLineNumbers (s : SegmentedString) :
    s.setExcludeLineNumbers.toQueue = s.toQueue.excludeLines := by
  apply CharacterQueue.ext
  · show s.pushedCharacters.map CharacterCell.pushed ++ (s.currentString.setExcludeLineNumbers.cells ++
      (s.substrings.map SegmentedSubstring.setExcludeLineNumbers).flatMap
        SegmentedSubstring.cells) = map CharacterCell.excludeLine s.toQueue.cells
    unfold toQueue
    rw [map_append, map_append, map_map, map_flatMap, flatMap_map, cells_setExcludeLineNumbers]
    congr 2
    apply flatMap_congr
    intro substring _
    exact substring.cells_setExcludeLineNumbers
  · rfl
  · rfl

/-!
## Appending, putting back and pushing

What these do to the queue of a well-formed string. A substring that becomes the current one when it
is appended must not have been consumed in part, as only `advanceSubstring` accounts for that; and a
character is pushed onto a string that is not empty, as `push` leaves `empty` alone.
-/

variable {s other : SegmentedString} {substring : SegmentedSubstring} {c d : UChar}

theorem Consistent.appendSubstring (h : s.Consistent) (hvalid : substring.Valid)
    (hconsumed : substring.length = 0 ∨ s.currentString.length ≠ 0 ∨
      substring.numberOfCharactersConsumed = 0) :
    (s.appendSubstring substring).Consistent ∧ (s.appendSubstring substring).toQueue =
        { s.toQueue with cells := s.toQueue.cells ++ substring.cells } := by
  unfold SegmentedString.appendSubstring
  by_cases hzero : substring.length = 0
  · rw [if_pos hzero, SegmentedSubstring.cells_of_length_eq_zero hzero, append_nil]
    exact ⟨h, rfl⟩
  rw [if_neg hzero]
  by_cases hlen : s.currentString.length = 0
  · rw [if_pos hlen, updateAdvanceFunctionPointers_eq]
    have hpushed := h.pushed_of_length_eq_zero hlen
    have hfresh : substring.numberOfCharactersConsumed = 0 := by
      rcases hconsumed with h' | h' | h'
      · exact absurd h' hzero
      · exact absurd hlen h'
      · exact h'
    constructor
    · exact {
        current := hvalid
        substrings := h.substrings
        composite := fun h' => absurd h' hzero
        pushed := fun _ => hzero
        pushed₂ := h.pushed₂
        empty_eq := (decide_eq_false hzero).symm
        functions := .inl rfl }
    · apply CharacterQueue.ext
      · show s.pushedCharacters.map CharacterCell.pushed ++ (substring.cells ++
          s.substrings.flatMap SegmentedSubstring.cells) = s.toQueue.cells ++ substring.cells
        rw [h.cells_of_length_eq_zero hlen, pushedCharacters_of_eq_zero hpushed, h.composite hlen]
        exact append_nil _
      · show s.numberOfCharactersConsumedPriorToCurrentString +
            s.currentString.numberOfCharactersConsumed + substring.numberOfCharactersConsumed -
              s.numberOfPushedCharacters = s.numberOfCharactersConsumed
        rw [hfresh, add_zero]
        rfl
      · rfl
  · rw [if_neg hlen]
    constructor
    · exact { h with
        substrings := fun x hmem => by
          rcases mem_append.mp hmem with hold | hnew
          · exact h.substrings x hold
          · rw [mem_singleton.mp hnew]
            exact ⟨hvalid, hzero⟩
        composite := fun h' => absurd h' hlen
        empty_eq := (decide_eq_false hlen).symm }
    · apply CharacterQueue.ext
      · show s.pushedCharacters.map CharacterCell.pushed ++ (s.currentString.cells ++
          (s.substrings ++ [substring]).flatMap SegmentedSubstring.cells) =
            s.toQueue.cells ++ substring.cells
        unfold toQueue
        rw [flatMap_append, flatMap_singleton, append_assoc, append_assoc]
      · rfl
      · rfl

theorem length_appendSubstring_ne_zero (h : s.currentString.length ≠ 0 ∨ substring.length ≠ 0) :
    (s.appendSubstring substring).currentString.length ≠ 0 := by
  unfold SegmentedString.appendSubstring
  split
  · rename_i hzero
    exact h.resolve_right (not_not.mpr hzero)
  · rename_i hzero
    split
    · rw [updateAdvanceFunctionPointers_eq]
      exact hzero
    · rename_i hlen
      exact hlen

theorem Consistent.foldl_appendSubstring {substrings : List SegmentedSubstring}
    (h : s.Consistent) (hlen : s.currentString.length ≠ 0)
    (hvalid : ∀ substring ∈ substrings, substring.Valid) :
    (substrings.foldl SegmentedString.appendSubstring s).Consistent ∧
      (substrings.foldl SegmentedString.appendSubstring s).toQueue =
        { s.toQueue with
          cells := s.toQueue.cells ++ substrings.flatMap SegmentedSubstring.cells } := by
  induction substrings generalizing s with
  | nil =>
    rw [flatMap_nil, append_nil]
    exact ⟨h, rfl⟩
  | cons substring substrings ih =>
    obtain ⟨hs, hq⟩ := h.appendSubstring (hvalid substring mem_cons_self) (.inr (.inl hlen))
    obtain ⟨ht, hq'⟩ := ih hs (length_appendSubstring_ne_zero (.inl hlen))
      fun x hmem => hvalid x (mem_cons_of_mem _ hmem)
    refine ⟨ht, ?_⟩
    rw [foldl_cons, hq', hq, flatMap_cons, append_assoc]

theorem WellFormed.append (h : s.WellFormed) (hother : other.Linked)
    (hpushed : other.pushedChar1 = 0)
    (hconsumed : other.currentString.length = 0 ∨ s.currentString.length ≠ 0 ∨
      other.currentString.numberOfCharactersConsumed = 0) :
    (s.append other).WellFormed ∧ (s.append other).toQueue = s.toQueue.append other.toQueue := by
  have hcells : other.toQueue.cells =
      other.currentString.cells ++ other.substrings.flatMap SegmentedSubstring.cells := by
    unfold toQueue
    rw [pushedCharacters_of_eq_zero hpushed]
    rfl
  obtain ⟨hs, hq⟩ := h.toConsistent.appendSubstring hother.current hconsumed
  have hfold : (other.substrings.foldl appendSubstring
        (s.appendSubstring other.currentString)).Consistent ∧
      (other.substrings.foldl appendSubstring (s.appendSubstring other.currentString)).toQueue =
        s.toQueue.append other.toQueue := by
    by_cases hlen : other.currentString.length = 0
    · rw [hother.composite hlen] at hcells ⊢
      refine ⟨hs, hq.trans ?_⟩
      unfold CharacterQueue.append
      rw [hcells, flatMap_nil, append_nil]
    · obtain ⟨ht, hq'⟩ := hs.foldl_appendSubstring (length_appendSubstring_ne_zero (.inr hlen))
        fun x hmem => (hother.substrings x hmem).1
      refine ⟨ht, ?_⟩
      rw [hq', hq]
      unfold CharacterQueue.append
      rw [hcells, append_assoc]
  exact ⟨hfold.1.updateCurrentChar, hfold.2⟩

theorem Consistent.pushBackSubstring (h : s.Consistent) (hpushed : s.pushedChar1 = 0)
    (hvalid : substring.Valid)
    (hconsumed : substring.length = 0 ∨ substring.numberOfCharactersConsumed = 0) :
    (s.pushBackSubstring substring).Consistent ∧ (s.pushBackSubstring substring).pushedChar1 = 0 ∧
      (s.pushBackSubstring substring).toQueue = s.toQueue.putBack substring.cells := by
  unfold SegmentedString.pushBackSubstring
  by_cases hzero : substring.length = 0
  · rw [if_pos hzero, SegmentedSubstring.cells_of_length_eq_zero hzero]
    refine ⟨h, hpushed, ?_⟩
    unfold putBack
    rw [nil_append, length_nil, Nat.cast_zero, sub_zero]
  rw [if_neg hzero]
  have hfresh := hconsumed.resolve_left hzero
  dsimp only
  have hconsumed : s.numberOfCharactersConsumedPriorToCurrentString +
      s.currentString.numberOfCharactersConsumed - substring.length +
        substring.numberOfCharactersConsumed - s.numberOfPushedCharacters =
      s.numberOfCharactersConsumed - substring.cells.length := by
    unfold numberOfCharactersConsumed
    rw [hfresh, hvalid.length_cells]
    ring
  by_cases hlen : s.currentString.length = 0
  · rw [if_pos hlen, updateAdvanceFunctionPointers_eq]
    refine ⟨?_, hpushed, ?_⟩
    · exact {
        current := hvalid
        substrings := h.substrings
        composite := fun h' => absurd h' hzero
        pushed := fun _ => hzero
        pushed₂ := h.pushed₂
        empty_eq := (decide_eq_false hzero).symm
        functions := .inl rfl }
    · apply CharacterQueue.ext
      · show s.pushedCharacters.map CharacterCell.pushed ++ (substring.cells ++
          s.substrings.flatMap SegmentedSubstring.cells) = substring.cells ++ s.toQueue.cells
        rw [h.cells_of_length_eq_zero hlen, pushedCharacters_of_eq_zero hpushed, h.composite hlen]
        rfl
      · exact hconsumed
      · rfl
  · rw [if_neg hlen, updateAdvanceFunctionPointers_eq]
    refine ⟨?_, hpushed, ?_⟩
    · exact {
        current := hvalid
        substrings := fun x hmem => by
          rcases mem_cons.mp hmem with rfl | hold
          · exact ⟨h.current, hlen⟩
          · exact h.substrings x hold
        composite := fun h' => absurd h' hzero
        pushed := fun _ => hzero
        pushed₂ := h.pushed₂
        empty_eq := (decide_eq_false hzero).symm
        functions := .inl rfl }
    · apply CharacterQueue.ext
      · show s.pushedCharacters.map CharacterCell.pushed ++ (substring.cells ++
          (s.currentString :: s.substrings).flatMap SegmentedSubstring.cells) =
            substring.cells ++ s.toQueue.cells
        unfold toQueue
        rw [pushedCharacters_of_eq_zero hpushed]
        rfl
      · exact hconsumed
      · rfl

theorem Consistent.foldr_pushBackSubstring {substrings : List SegmentedSubstring}
    (h : s.Consistent) (hpushed : s.pushedChar1 = 0)
    (hvalid : ∀ substring ∈ substrings, substring.Valid ∧
      substring.numberOfCharactersConsumed = 0) :
    (substrings.foldr (fun substring s => s.pushBackSubstring substring) s).Consistent ∧
      (substrings.foldr (fun substring s => s.pushBackSubstring substring) s).pushedChar1 = 0 ∧
      (substrings.foldr (fun substring s => s.pushBackSubstring substring) s).toQueue =
        s.toQueue.putBack (substrings.flatMap SegmentedSubstring.cells) := by
  induction substrings with
  | nil =>
    refine ⟨h, hpushed, ?_⟩
    unfold CharacterQueue.putBack
    rw [flatMap_nil, nil_append, length_nil, Nat.cast_zero, sub_zero]
    rfl
  | cons substring substrings ih =>
    obtain ⟨hs, hzero, hq⟩ := ih fun x hmem => hvalid x (mem_cons_of_mem _ hmem)
    obtain ⟨hfirst, hfresh⟩ := hvalid substring mem_cons_self
    obtain ⟨ht, hzero', hq'⟩ := hs.pushBackSubstring hzero hfirst (.inr hfresh)
    refine ⟨ht, hzero', ?_⟩
    rw [foldr_cons, hq', hq, flatMap_cons, putBack_putBack]

section

variable (h : s.WellFormed) (hpushed : s.pushedChar1 = 0)
include h hpushed

theorem WellFormed.pushBack (hother : other.Linked) (hpushed' : other.pushedChar1 = 0)
    (hconsumed : ∀ substring ∈ other.currentString :: other.substrings,
      substring.length = 0 ∨ substring.numberOfCharactersConsumed = 0) :
    (s.pushBack other).WellFormed ∧
      (s.pushBack other).toQueue = s.toQueue.putBack other.toQueue.cells := by
  have hcells : other.toQueue.cells =
      other.currentString.cells ++ other.substrings.flatMap SegmentedSubstring.cells := by
    unfold toQueue
    rw [pushedCharacters_of_eq_zero hpushed']
    rfl
  obtain ⟨hs, hzero, hq⟩ := h.toConsistent.foldr_pushBackSubstring hpushed
    fun x hmem => ⟨(hother.substrings x hmem).1,
      (hconsumed x (mem_cons_of_mem _ hmem)).resolve_left (hother.substrings x hmem).2⟩
  obtain ⟨ht, -, hq'⟩ := hs.pushBackSubstring hzero hother.current (hconsumed _ mem_cons_self)
  unfold SegmentedString.pushBack
  rw [foldl_reverse]
  refine ⟨ht.updateCurrentChar, ?_⟩
  rw [hcells, ← putBack_putBack, ← hq]
  exact hq'

theorem WellFormed.push (hlen : s.currentString.length ≠ 0) (hc : c ≠ 0) :
    (s.push c).WellFormed ∧ (s.push c).pushedChar1 = c ∧ (s.push c).pushedChar2 = 0 ∧
      (s.push c).toQueue = s.toQueue.putBack [pushed c] := by
  have hpushed2 := h.pushed₂ hpushed
  unfold SegmentedString.push
  rw [if_pos hpushed, if_pos hc]
  refine ⟨?_, rfl, hpushed2, ?_⟩
  · exact { h with
      pushed := fun _ => hlen
      pushed₂ := fun hzero => absurd hzero hc
      functions := .inl (chosen_of_not_fastPath fun hfast => hc hfast.2).symm
      currentChar_eq := (if_pos hc).symm }
  · have hchars : pushedCharacters { s with pushedChar1 := c } = [c] := by
      show (if c ≠ 0 then if s.pushedChar2 ≠ 0 then [c, s.pushedChar2] else [c] else []) = [c]
      rw [if_pos hc, if_neg (not_not.mpr hpushed2)]
    have hcount : numberOfPushedCharacters { s with pushedChar1 := c } = 1 := by
      rw [numberOfPushedCharacters_eq, hchars]
      rfl
    apply CharacterQueue.ext
    · show (pushedCharacters { s with pushedChar1 := c }).map CharacterCell.pushed ++
        (s.currentString.cells ++ s.substrings.flatMap SegmentedSubstring.cells) =
          [pushed c] ++ s.toQueue.cells
      rw [hchars]
      unfold toQueue
      rw [pushedCharacters_of_eq_zero hpushed]
      rfl
    · show s.numberOfCharactersConsumedPriorToCurrentString +
          s.currentString.numberOfCharactersConsumed -
            numberOfPushedCharacters { s with pushedChar1 := c } =
          s.numberOfCharactersConsumed - 1
      unfold numberOfCharactersConsumed
      rw [hcount, numberOfPushedCharacters_of_eq_zero hpushed]
      ring
    · rfl

theorem WellFormed.push_second (hlen : s.currentString.length ≠ 0) (hc : c ≠ 0) (hd : d ≠ 0) :
    ((s.push c).push d).WellFormed ∧
      ((s.push c).push d).toQueue = s.toQueue.putBack [pushed c, pushed d] := by
  obtain ⟨hs, hfirst, hsnd, hq⟩ := h.push hpushed hlen hc
  have hne : (s.push c).pushedChar1 ≠ 0 := by
    rw [hfirst]
    exact hc
  have hpush : (s.push c).push d = { s.push c with pushedChar2 := d } := by
    rw [SegmentedString.push, if_neg hne]
  rw [hpush]
  constructor
  · exact { hs with
      pushed₂ := fun hzero => absurd hzero hne }
  · have hchars : pushedCharacters { s.push c with pushedChar2 := d } = [c, d] := by
      show (if (s.push c).pushedChar1 ≠ 0 then
        if d ≠ 0 then [(s.push c).pushedChar1, d] else [(s.push c).pushedChar1] else []) = [c, d]
      rw [if_pos hne, if_pos hd, hfirst]
    have hchars' : (s.push c).pushedCharacters = [c] := by
      unfold pushedCharacters
      rw [if_pos hne, if_neg (not_not.mpr hsnd), hfirst]
    have hcells : (s.push c).currentString.cells ++
        (s.push c).substrings.flatMap SegmentedSubstring.cells = s.toQueue.cells := by
      have h' := congrArg CharacterQueue.cells hq
      unfold toQueue at h'
      rw [hchars'] at h'
      exact cons_injective h'
    have hconsumed := congrArg consumed hq
    have hline := congrArg line hq
    apply CharacterQueue.ext
    · show (pushedCharacters { s.push c with pushedChar2 := d }).map CharacterCell.pushed ++
        ((s.push c).currentString.cells ++ (s.push c).substrings.flatMap SegmentedSubstring.cells) =
          [pushed c, pushed d] ++ s.toQueue.cells
      rw [hchars, hcells]
      rfl
    · show (s.push c).numberOfCharactersConsumedPriorToCurrentString +
          (s.push c).currentString.numberOfCharactersConsumed -
            numberOfPushedCharacters { s.push c with pushedChar2 := d } =
          s.toQueue.consumed - 2
      have hconsumed' : (s.push c).numberOfCharactersConsumed = s.toQueue.consumed - 1 := hconsumed
      unfold numberOfCharactersConsumed at hconsumed'
      rw [numberOfPushedCharacters_eq, hchars'] at hconsumed'
      rw [numberOfPushedCharacters_eq, hchars]
      have hone : (([c] : List UChar).length : ℤ) = 1 := rfl
      have htwo : (([c, d] : List UChar).length : ℤ) = 2 := rfl
      omega
    · exact hline

end

end SegmentedString

end WebKit.Platform
