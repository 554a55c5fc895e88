import WebKit.Platform.SegmentedStringSpec

/-!
# Advancing in a segmented string

Whichever function is cached, to advance takes one character off the queue, and the operations that
update the line number do the same after they have counted the line (`countLine`).
-/

namespace WebKit.Platform

open SegmentedString CharacterCell Prod

namespace SegmentedString

variable {s : SegmentedString}

/-- Whether the next character ends a line that is counted. -/
def EndsLine (s : SegmentedString) : Prop :=
  s.pushedChar1 = 0 ∧ s.currentString.length ≠ 0 ∧
    s.currentString.getCurrentChar = newline ∧ s.currentString.doNotExcludeLineNumbers = true

instance : Decidable s.EndsLine := inferInstanceAs (Decidable (_ ∧ _ ∧ _ ∧ _))

def countLine (s : SegmentedString) : SegmentedString := if s.EndsLine then s.countNewline else s

theorem WellFormed.countNewline (h : s.WellFormed) : s.countNewline.WellFormed := { h with }

theorem WellFormed.countLine (h : s.WellFormed) : s.countLine.WellFormed := by
  unfold SegmentedString.countLine
  split
  · exact h.countNewline
  · exact h

theorem Linked.cells_eq_cons (h : s.Linked) (hpushed : s.pushedChar1 = 0)
    (hlen : s.currentString.length ≠ 0) :
    s.toQueue.cells = read s.currentString.doNotExcludeLineNumbers s.currentString.getCurrentChar ::
        s.decrementLength.toQueue.cells := by
  have hpushed' : s.decrementLength.pushedCharacters = [] := pushedCharacters_of_eq_zero hpushed
  unfold toQueue
  rw [pushedCharacters_of_eq_zero hpushed, hpushed', h.current.cells_eq_cons hlen]
  rfl

theorem endsLine_iff (h : s.WellFormed) :
    s.EndsLine ↔ (s.toQueue.cells.head?.map endsLine).getD false = true := by
  by_cases hpushed : s.pushedChar1 = 0
  · by_cases hlen : s.currentString.length = 0
    · rw [h.cells_of_length_eq_zero hlen]
      exact iff_of_false (fun hends => hends.2.1 hlen) Bool.false_ne_true
    · rw [h.cells_eq_cons hpushed hlen]
      show s.EndsLine ↔ (decide (s.currentString.getCurrentChar = newline) &&
        s.currentString.doNotExcludeLineNumbers) = true
      rw [Bool.and_eq_true, decide_eq_true_iff]
      exact ⟨fun hends => hends.2.2, fun hends => ⟨hpushed, hlen, hends⟩⟩
  · refine iff_of_false (fun hends => hpushed hends.1) ?_
    unfold toQueue pushedCharacters
    rw [if_pos hpushed]
    split <;> exact Bool.false_ne_true

theorem WellFormed.toQueue_countLine (h : s.WellFormed) :
    s.countLine.toQueue = s.toQueue.endLine := by
  unfold SegmentedString.countLine CharacterQueue.endLine
  by_cases hends : s.EndsLine
  · rw [if_pos hends, if_pos ((endsLine_iff h).mp hends)]
    rfl
  · rw [if_neg hends, if_neg (fun h' => hends ((endsLine_iff h).mpr h')), add_zero]

/-! ## One character -/

theorem Linked.toQueue_decrementLength (h : s.Linked) (hpushed : s.pushedChar1 = 0)
    (hlen : s.currentString.length ≠ 0) :
    s.decrementLength.toQueue = s.toQueue.advance := by
  have hadv : s.toQueue.advance =
      { s.toQueue with
        cells := s.decrementLength.toQueue.cells
        consumed := s.toQueue.consumed + 1 } := by
    unfold CharacterQueue.advance
    rw [h.cells_eq_cons hpushed hlen]
  rw [hadv]
  apply CharacterQueue.ext
  · rfl
  · show s.numberOfCharactersConsumedPriorToCurrentString +
        ((s.currentString.string.characters.length : ℤ) - (s.currentString.length - 1 : ℕ)) -
          s.numberOfPushedCharacters =
        s.numberOfCharactersConsumedPriorToCurrentString +
          ((s.currentString.string.characters.length : ℤ) - s.currentString.length) -
          s.numberOfPushedCharacters + 1
    omega
  · rfl

theorem advance_of_cells_eq_nil {q : CharacterQueue} (h : q.cells = []) : q.advance = q := by
  unfold CharacterQueue.advance
  rw [h]

theorem advanceInSubstring_eq (s : SegmentedString) : s.advanceInSubstring =
    if s.currentString.length - 1 = 1 then
      s.decrementLength.incrementAndGetCurrentChar.updateSlowCaseFunctionPointers
    else s.decrementLength.incrementAndGetCurrentChar := by
  unfold advanceInSubstring decrementAndCheckLength
  by_cases hone : s.currentString.length - 1 = 1
  · have hone' : s.decrementLength.currentString.length = 1 := hone
    rw [if_pos hone, if_pos hone']
    rfl
  · have hone' : ¬s.decrementLength.currentString.length = 1 := hone
    rw [if_neg hone, if_neg hone']

theorem WellFormed.advanceInSubstring (h : s.WellFormed) (hfast : s.fastPath) :
    s.advanceInSubstring.WellFormed ∧ s.advanceInSubstring.toQueue = s.toQueue.advance := by
  obtain ⟨hlt, hpushed⟩ := hfast
  have hle := h.current.length_le
  have hne : s.currentString.length ≠ 0 := by omega
  have hvalid : s.decrementLength.currentString.increment.Valid := by
    constructor
    · show s.currentString.length - 1 ≤ s.currentString.string.characters.length
      omega
    · intro _
      show s.currentString.data.map (· + 1) =
        some (s.currentString.string.characters.length - (s.currentString.length - 1))
      rw [h.current.data_eq hne]
      show some (s.currentString.string.characters.length - s.currentString.length + 1) = _
      congr 1
      omega
  have hlen : s.currentString.length - 1 ≠ 0 := by omega
  have hempty : s.empty = decide (s.currentString.length - 1 = 0) := by
    rw [h.empty_eq, decide_eq_false hne, decide_eq_false hlen]
  have hchar : s.decrementLength.currentString.increment.getCurrentChar =
      s.decrementLength.incrementAndGetCurrentChar.firstChar := by
    have hpushed' : ¬s.decrementLength.incrementAndGetCurrentChar.pushedChar1 ≠ 0 :=
      not_not.mpr hpushed
    have hlen' : s.decrementLength.incrementAndGetCurrentChar.currentString.length ≠ 0 := hlen
    unfold firstChar frontChar
    rw [if_neg hpushed', if_pos hlen']
    rfl
  have hqueue : s.decrementLength.incrementAndGetCurrentChar.toQueue = s.toQueue.advance :=
    h.toQueue_decrementLength hpushed hne
  rw [advanceInSubstring_eq]
  split
  · refine ⟨?_, hqueue⟩
    exact {
      current := hvalid
      substrings := h.substrings
      composite := fun h' => absurd h' hlen
      pushed := fun _ => hlen
      pushed₂ := h.pushed₂
      empty_eq := hempty
      functions := Or.inl (chosen_of_not_fastPath fun hfast => by
        have hlt' : 1 < s.currentString.length - 1 := hfast.1
        omega).symm
      currentChar_eq := hchar }
  · have hfast : s.fastPath := ⟨hlt, hpushed⟩
    have hfast' : s.decrementLength.incrementAndGetCurrentChar.fastPath := by
      refine ⟨?_, hpushed⟩
      show 1 < s.currentString.length - 1
      omega
    refine ⟨?_, hqueue⟩
    exact {
      current := hvalid
      substrings := h.substrings
      composite := fun h' => absurd h' hlen
      pushed := fun _ => hlen
      pushed₂ := h.pushed₂
      empty_eq := hempty
      functions := by
        apply Or.inl
        rcases h.functions with hcached | ⟨hzero, -⟩
        · rw [chosen_of_fastPath hfast']
          rw [chosen_of_fastPath hfast] at hcached
          exact hcached
        · exact absurd hzero hne
      currentChar_eq := hchar }

theorem Consistent.frontChar (h : s.Consistent) (hpushed : s.pushedChar1 = 0) :
    WellFormed { s with currentChar := s.frontChar } :=
  { h with currentChar_eq := (if_neg (not_not.mpr hpushed)).symm }

theorem Consistent.becomeEmpty (h : s.Linked) (hlen : s.currentString.length = 0)
    (hpushed : s.pushedChar1 = 0) (hpushed2 : s.pushedChar2 = 0) (hsubs : s.substrings = []) :
    s.becomeEmpty.Consistent ∧ s.becomeEmpty.toQueue = s.toQueue := by
  constructor
  · exact {
      current := ⟨Nat.zero_le _, fun h' => absurd rfl h'⟩
      substrings := h.substrings
      composite := fun _ => hsubs
      pushed := fun h' => absurd hpushed h'
      pushed₂ := fun _ => hpushed2
      empty_eq := rfl
      functions := .inr ⟨rfl, rfl⟩ }
  · apply CharacterQueue.ext
    · show s.pushedCharacters.map CharacterCell.pushed ++ (s.currentString.clear.cells ++
        s.substrings.flatMap SegmentedSubstring.cells) = s.toQueue.cells
      unfold toQueue
      rw [SegmentedSubstring.cells_of_length_eq_zero hlen,
        SegmentedSubstring.cells_of_length_eq_zero (show s.currentString.clear.length = 0 from rfl)]
    · show s.numberOfCharactersConsumedPriorToCurrentString +
          ((s.currentString.string.characters.length : ℤ) - (0 : ℕ)) - s.numberOfPushedCharacters =
          s.numberOfCharactersConsumedPriorToCurrentString +
          ((s.currentString.string.characters.length : ℤ) - s.currentString.length) -
          s.numberOfPushedCharacters
      rw [hlen]
    · rfl

theorem advanceSubstring_spec
    (hsubs : ∀ substring ∈ s.substrings, substring.Valid ∧ substring.length ≠ 0)
    (hlen : s.currentString.length = 0) (hpushed : s.pushedChar1 = 0)
    (hpushed2 : s.pushedChar2 = 0) (hempty : s.empty = false) :
    s.advanceSubstring.Consistent ∧ s.advanceSubstring.pushedChar1 = 0 ∧
      s.advanceSubstring.toQueue = s.toQueue := by
  unfold advanceSubstring
  cases heq : s.substrings with
  | nil =>
    obtain ⟨h, hq⟩ := Consistent.becomeEmpty
      ⟨⟨hlen ▸ Nat.zero_le _, fun h' => absurd hlen h'⟩, hsubs, fun _ => heq⟩ hlen
      hpushed hpushed2 heq
    exact ⟨h, hpushed, hq⟩
  | cons substring substrings =>
    rw [heq] at hsubs
    obtain ⟨hvalid, hne⟩ := hsubs substring List.mem_cons_self
    dsimp only
    rw [updateAdvanceFunctionPointers_eq]
    refine ⟨?_, hpushed, ?_⟩
    · exact {
        current := hvalid
        substrings := fun x hmem => hsubs x (List.mem_cons_of_mem _ hmem)
        composite := fun h' => absurd h' hne
        pushed := fun h' => absurd hpushed h'
        pushed₂ := fun _ => hpushed2
        empty_eq := hempty.trans (decide_eq_false hne).symm
        functions := .inl rfl }
    · apply CharacterQueue.ext
      · show s.pushedCharacters.map CharacterCell.pushed ++ (substring.cells ++
          substrings.flatMap SegmentedSubstring.cells) = s.toQueue.cells
        unfold toQueue
        rw [heq, SegmentedSubstring.cells_of_length_eq_zero hlen, List.flatMap_cons,
          List.nil_append]
      · show s.numberOfCharactersConsumedPriorToCurrentString +
            s.currentString.numberOfCharactersConsumed - substring.numberOfCharactersConsumed +
            substring.numberOfCharactersConsumed - s.numberOfPushedCharacters =
            s.numberOfCharactersConsumed
        unfold numberOfCharactersConsumed
        ring
      · rfl

/-- What the slow functions do when a character has been pushed. -/
def takePushed (s : SegmentedString) : SegmentedString :=
  if s.shiftPushed.pushedChar1 ≠ 0 then
    { s.shiftPushed with currentChar := s.shiftPushed.pushedChar1 }
  else
    { s.shiftPushed.updateAdvanceFunctionPointers with
      currentChar := s.shiftPushed.updateAdvanceFunctionPointers.frontChar }

theorem WellFormed.takePushed (h : s.WellFormed) (hpushed : s.pushedChar1 ≠ 0) :
    s.takePushed.WellFormed ∧ s.takePushed.toQueue = s.toQueue.advance := by
  have hlen := h.pushed hpushed
  have hqueue : s.shiftPushed.toQueue = s.toQueue.advance := by
    by_cases hsnd : s.pushedChar2 = 0
    · have hchars : s.pushedCharacters = [s.pushedChar1] := by
        unfold pushedCharacters
        rw [if_pos hpushed, if_neg (not_not.mpr hsnd)]
      have hchars' : s.shiftPushed.pushedCharacters = [] := pushedCharacters_of_eq_zero hsnd
      unfold CharacterQueue.advance toQueue numberOfCharactersConsumed
      rw [numberOfPushedCharacters_eq, numberOfPushedCharacters_eq, hchars, hchars']
      apply CharacterQueue.ext
      · rfl
      · show s.numberOfCharactersConsumedPriorToCurrentString +
            s.currentString.numberOfCharactersConsumed - 0 =
          s.numberOfCharactersConsumedPriorToCurrentString +
            s.currentString.numberOfCharactersConsumed - 1 + 1
        ring
      · rfl
    · have hchars : s.pushedCharacters = [s.pushedChar1, s.pushedChar2] := by
        unfold pushedCharacters
        rw [if_pos hpushed, if_pos hsnd]
      have hchars' : s.shiftPushed.pushedCharacters = [s.pushedChar2] := by
        show (if s.pushedChar2 ≠ 0 then if (0 : UChar) ≠ 0 then [s.pushedChar2, 0]
          else [s.pushedChar2] else []) = [s.pushedChar2]
        rw [if_pos hsnd]
        rfl
      unfold CharacterQueue.advance toQueue numberOfCharactersConsumed
      rw [numberOfPushedCharacters_eq, numberOfPushedCharacters_eq, hchars, hchars']
      apply CharacterQueue.ext
      · rfl
      · show s.numberOfCharactersConsumedPriorToCurrentString +
            s.currentString.numberOfCharactersConsumed - 1 =
          s.numberOfCharactersConsumedPriorToCurrentString +
            s.currentString.numberOfCharactersConsumed - 2 + 1
        ring
      · rfl
  have hfuns : s.cached = (false, false, .advanceSlowCase,
      .advanceAndUpdateLineNumberSlowCase) := by
    rcases h.functions with hcached | ⟨hzero, -⟩
    · rw [hcached]
      exact chosen_of_not_fastPath fun hfast => hpushed hfast.2
    · exact absurd hzero hlen
  unfold SegmentedString.takePushed
  split
  · rename_i hsnd
    refine ⟨?_, hqueue⟩
    exact { h with
      pushed := fun _ => hlen
      pushed₂ := fun _ => rfl
      functions := .inl (hfuns.trans (chosen_of_not_fastPath fun hfast => hsnd hfast.2).symm)
      currentChar_eq := (if_pos hsnd).symm }
  · rename_i hsnd
    have hbuilt : s.shiftPushed.Built := { h with
      pushed := fun _ => hlen
      pushed₂ := fun _ => rfl }
    have hpushed' : s.shiftPushed.updateAdvanceFunctionPointers.pushedChar1 = 0 := by
      rw [updateAdvanceFunctionPointers_eq]
      exact not_not.mp hsnd
    refine ⟨(hbuilt.updateAdvanceFunctionPointers h.empty_eq).frontChar hpushed', ?_⟩
    rw [← hqueue, ← toQueue_updateAdvanceFunctionPointers s.shiftPushed]
    rfl

theorem WellFormed.advanceSlowCase (h : s.WellFormed) (hslow : ¬s.fastPath) :
    s.advanceSlowCase.WellFormed ∧ s.advanceSlowCase.toQueue = s.toQueue.advance := by
  unfold SegmentedString.advanceSlowCase
  by_cases hpushed : s.pushedChar1 = 0
  · rw [if_neg (not_not.mpr hpushed)]
    have hpushed2 := h.pushed₂ hpushed
    by_cases hlen : s.currentString.length = 0
    · have hsubs := h.composite hlen
      have hnot : (!s.isComposite) = true := by
        unfold isComposite
        rw [hsubs]
        rfl
      rw [if_neg (not_not.mpr hlen), if_pos hnot,
        advance_of_cells_eq_nil (h.cells_of_length_eq_zero hlen)]
      obtain ⟨hs, hq⟩ := Consistent.becomeEmpty h.toLinked hlen hpushed hpushed2 hsubs
      exact ⟨hs.frontChar hpushed, hq⟩
    · have hle : ¬1 < s.currentString.length := fun hlt => hslow ⟨hlt, hpushed⟩
      have hzero : s.decrementLength.currentString.length = 0 := by
        show s.currentString.length - 1 = 0
        omega
      rw [if_pos hlen]
      rw [if_pos hzero]
      obtain ⟨hs, hpushed', hq⟩ :=
        advanceSubstring_spec (s := s.decrementLength) h.substrings hzero hpushed hpushed2
          (h.empty_eq.trans (decide_eq_false hlen))
      exact ⟨hs.frontChar hpushed', hq.trans (h.toQueue_decrementLength hpushed hlen)⟩
  · rw [if_pos hpushed]
    exact h.takePushed hpushed

theorem WellFormed.cached_of_fastPath (h : s.WellFormed) (hfast : s.fastPath) :
    s.cached = s.chosen := by
  apply h.functions.resolve_right
  rintro ⟨hzero, -⟩
  have hlt := hfast.1
  omega

theorem WellFormed.advance_eq_of_fastPath (h : s.WellFormed) (hfast : s.fastPath) :
    s.advance = s.advanceInSubstring := by
  have hcached := h.cached_of_fastPath hfast
  rw [chosen_of_fastPath hfast] at hcached
  unfold advance
  by_cases h8 : s.currentString.is8Bit = true
  · rw [if_pos h8] at hcached
    have huse : s.use8BitAdvance = true := congrArg fst hcached
    rw [if_pos huse, advanceInSubstring_eq]
  · rw [if_neg h8] at hcached
    have huse : s.use8BitAdvance = false := congrArg fst hcached
    have hfunc : s.advanceFunc = .advance16 := congrArg (fun f => f.2.2.1) hcached
    rw [huse, hfunc]
    rfl

theorem advance_eq_of_cached_slow
    (h : s.cached = (false, false, .advanceSlowCase, .advanceAndUpdateLineNumberSlowCase)) :
    s.advance = s.advanceSlowCase ∧
      s.advanceAndUpdateLineNumber = s.advanceAndUpdateLineNumberSlowCase := by
  have huse : s.use8BitAdvance = false := congrArg fst h
  have hfunc : s.advanceFunc = .advanceSlowCase := congrArg (fun f => f.2.2.1) h
  have hfunc' : s.advanceAndUpdateLineNumberFunc = .advanceAndUpdateLineNumberSlowCase :=
    congrArg (fun f => f.2.2.2) h
  unfold advance advanceAndUpdateLineNumber
  rw [huse, hfunc, hfunc']
  exact ⟨rfl, rfl⟩

theorem advance_eq_of_cached_empty (h : s.cached = (false, false, .advanceEmpty, .advanceEmpty)) :
    s.advance = s.advanceEmpty ∧ s.advanceAndUpdateLineNumber = s.advanceEmpty := by
  have huse : s.use8BitAdvance = false := congrArg fst h
  have hfunc : s.advanceFunc = .advanceEmpty := congrArg (fun f => f.2.2.1) h
  have hfunc' : s.advanceAndUpdateLineNumberFunc = .advanceEmpty := congrArg (fun f => f.2.2.2) h
  unfold advance advanceAndUpdateLineNumber
  rw [huse, hfunc, hfunc']
  exact ⟨rfl, rfl⟩

theorem WellFormed.currentChar_of_empty (h : s.WellFormed) (hlen : s.currentString.length = 0) :
    s.currentChar = 0 := by
  rw [h.currentChar_eq, firstChar, if_neg (not_not.mpr (h.pushed_of_length_eq_zero hlen)),
    frontChar, if_neg (not_not.mpr hlen)]

theorem WellFormed.advanceEmpty_eq (h : s.WellFormed) (hlen : s.currentString.length = 0) :
    s.advanceEmpty = s := by
  unfold advanceEmpty
  rw [← h.currentChar_of_empty hlen]

theorem WellFormed.advance (h : s.WellFormed) :
    s.advance.WellFormed ∧ s.advance.toQueue = s.toQueue.advance := by
  by_cases hfast : s.fastPath
  · rw [h.advance_eq_of_fastPath hfast]
    exact h.advanceInSubstring hfast
  · rcases h.functions with hcached | ⟨hlen, hcached⟩
    · rw [chosen_of_not_fastPath hfast] at hcached
      rw [(advance_eq_of_cached_slow hcached).1]
      exact h.advanceSlowCase hfast
    · rw [(advance_eq_of_cached_empty hcached).1, h.advanceEmpty_eq hlen,
        advance_of_cells_eq_nil (h.cells_of_length_eq_zero hlen)]
      exact ⟨h, rfl⟩

theorem advance_of_pushed (h : s.WellFormed) (hpushed : s.pushedChar1 ≠ 0) :
    s.advance = s.takePushed := by
  have hslow : ¬s.fastPath := fun hfast => hpushed hfast.2
  rcases h.functions with hcached | ⟨hlen, -⟩
  · rw [chosen_of_not_fastPath hslow] at hcached
    rw [(advance_eq_of_cached_slow hcached).1]
    unfold advanceSlowCase
    rw [if_pos hpushed]
    rfl
  · exact absurd hlen (h.pushed hpushed)

theorem pushedChar1_advanceInSubstring (s : SegmentedString) :
    s.advanceInSubstring.pushedChar1 = s.pushedChar1 := by
  rw [advanceInSubstring_eq]
  split <;> rfl

theorem pushedChar1_advanceSubstring (s : SegmentedString) :
    s.advanceSubstring.pushedChar1 = s.pushedChar1 := by
  unfold advanceSubstring
  split
  · rfl
  · rw [updateAdvanceFunctionPointers_eq]

theorem WellFormed.pushedChar1_advance (h : s.WellFormed) (hpushed : s.pushedChar1 = 0) :
    s.advance.pushedChar1 = 0 := by
  by_cases hfast : s.fastPath
  · rw [h.advance_eq_of_fastPath hfast, pushedChar1_advanceInSubstring, hpushed]
  · rcases h.functions with hcached | ⟨-, hcached⟩
    · rw [chosen_of_not_fastPath hfast] at hcached
      rw [(advance_eq_of_cached_slow hcached).1]
      unfold SegmentedString.advanceSlowCase
      rw [if_neg (not_not.mpr hpushed)]
      dsimp only
      split
      · split
        · rw [pushedChar1_advanceSubstring]
          exact hpushed
        · exact hpushed
      · split <;> exact hpushed
    · rw [(advance_eq_of_cached_empty hcached).1]
      exact hpushed

theorem WellFormed.numberOfPushedCharacters_advance (h : s.WellFormed) :
    s.advance.numberOfPushedCharacters = s.numberOfPushedCharacters - 1 := by
  by_cases hpushed : s.pushedChar1 = 0
  · rw [numberOfPushedCharacters_of_eq_zero hpushed,
      numberOfPushedCharacters_of_eq_zero (h.pushedChar1_advance hpushed)]
  · rw [advance_of_pushed h hpushed]
    unfold SegmentedString.takePushed
    by_cases hsnd : s.pushedChar2 = 0
    · have hzero : s.shiftPushed.pushedChar1 = 0 := hsnd
      have hone : s.numberOfPushedCharacters = 1 := by
        unfold numberOfPushedCharacters
        rw [if_pos hpushed, if_neg (not_not.mpr hsnd)]
      rw [if_neg (not_not.mpr hzero), hone, updateAdvanceFunctionPointers_eq]
      exact numberOfPushedCharacters_of_eq_zero hzero
    · have hne : s.shiftPushed.pushedChar1 ≠ 0 := hsnd
      have htwo : s.numberOfPushedCharacters = 2 := by
        unfold numberOfPushedCharacters
        rw [if_pos hpushed, if_pos hsnd]
      rw [if_pos hne, htwo]
      unfold numberOfPushedCharacters
      rw [if_pos hne]
      rfl

theorem pushedChar1_eq_zero_iff : s.pushedChar1 = 0 ↔ s.numberOfPushedCharacters = 0 := by
  constructor
  · exact numberOfPushedCharacters_of_eq_zero
  · intro hzero
    by_contra hpushed
    unfold numberOfPushedCharacters at hzero
    rw [if_pos hpushed] at hzero
    split at hzero <;> cases hzero

/-! ## The line number -/

theorem fastPath_countLine : s.countLine.fastPath ↔ s.fastPath := by
  unfold countLine
  split <;> exact Iff.rfl

theorem cached_countLine : s.countLine.cached = s.cached := by
  unfold countLine
  split <;> rfl

theorem WellFormed.endsLine_iff_of_fastPath (h : s.WellFormed) (hfast : s.fastPath) :
    s.EndsLine ↔ s.currentChar = newline ∧ s.currentString.doNotExcludeLineNumbers = true := by
  have hlen : s.currentString.length ≠ 0 := by
    have hlt := hfast.1
    omega
  have hchar : s.currentChar = s.currentString.getCurrentChar := by
    rw [h.currentChar_eq, firstChar, if_neg (not_not.mpr hfast.2), frontChar, if_pos hlen]
  rw [hchar]
  exact ⟨fun hends => hends.2.2, fun hends => ⟨hfast.2, hlen, hends⟩⟩

/-- The number of characters consumed before the next line, computed after the newline has been
consumed. -/
theorem consumed_decrementLength (hpushed : s.pushedChar1 = 0) (hlen : s.currentString.length ≠ 0) :
    s.numberOfCharactersConsumedPriorToCurrentString +
        s.decrementLength.incrementAndGetCurrentChar.currentString.numberOfCharactersConsumed =
      s.numberOfCharactersConsumed + 1 := by
  unfold numberOfCharactersConsumed
  rw [numberOfPushedCharacters_of_eq_zero hpushed]
  show s.numberOfCharactersConsumedPriorToCurrentString +
      ((s.currentString.string.characters.length : ℤ) - (s.currentString.length - 1 : ℕ)) =
    s.numberOfCharactersConsumedPriorToCurrentString +
      ((s.currentString.string.characters.length : ℤ) - s.currentString.length) - (0 : ℕ) + 1
  omega

theorem WellFormed.advanceAndUpdateLineNumber_eq_of_fastPath (h : s.WellFormed)
    (hfast : s.fastPath) : s.advanceAndUpdateLineNumber = s.countLine.advance := by
  have hlen : s.currentString.length ≠ 0 := by
    have hlt := hfast.1
    omega
  have hends := h.endsLine_iff_of_fastPath hfast
  have hcached := h.cached_of_fastPath hfast
  rw [chosen_of_fastPath hfast] at hcached
  rw [h.countLine.advance_eq_of_fastPath (fastPath_countLine.mpr hfast)]
  unfold advanceAndUpdateLineNumber
  by_cases h8 : s.currentString.is8Bit = true
  · rw [if_pos h8] at hcached
    have huse : s.use8BitAdvance = true := congrArg fst hcached
    have hflag : s.use8BitAdvanceAndUpdateLineNumbers =
      s.currentString.doNotExcludeLineNumbers := congrArg (fun f => f.2.1) hcached
    rw [if_pos huse, advanceInSubstring_eq, hflag]
    dsimp only
    unfold SegmentedString.countLine
    by_cases hnewline : s.EndsLine
    · rw [if_pos hnewline, if_pos (hends.mp hnewline)]
      have hprior : s.decrementLength.incrementAndGetCurrentChar.numberOfCharactersConsumedPriorToCurrentString +
          s.decrementLength.incrementAndGetCurrentChar.currentString.numberOfCharactersConsumed =
            s.numberOfCharactersConsumed + 1 := consumed_decrementLength hfast.2 hlen
      rw [hprior]
      rfl
    · rw [if_neg hnewline, if_neg (fun h' => hnewline (hends.mpr h'))]
  · rw [if_neg h8] at hcached
    have huse : s.use8BitAdvance = false := congrArg fst hcached
    have hfunc : s.advanceAndUpdateLineNumberFunc =
        if s.currentString.doNotExcludeLineNumbers then .advanceAndUpdateLineNumber16
        else .advance16 := congrArg (fun f => f.2.2.2) hcached
    rw [huse, hfunc, if_neg Bool.false_ne_true]
    unfold SegmentedString.countLine
    by_cases hflag : s.currentString.doNotExcludeLineNumbers = true
    · rw [if_pos hflag]
      show (if s.currentChar = newline then s.countNewline else s).advanceInSubstring = _
      by_cases hnewline : s.currentChar = newline
      · rw [if_pos hnewline, if_pos (hends.mpr ⟨hnewline, hflag⟩)]
      · rw [if_neg hnewline, if_neg fun h' => hnewline (hends.mp h').1]
    · rw [if_neg hflag, if_neg fun h' => hflag (hends.mp h').2]
      rfl

theorem advanceAndUpdateLineNumberSlowCase_eq (hslow : ¬s.fastPath) :
    s.advanceAndUpdateLineNumberSlowCase = s.countLine.advanceSlowCase := by
  by_cases hpushed : s.pushedChar1 = 0
  · by_cases hlen : s.currentString.length = 0
    · have hcount : s.countLine = s := if_neg fun hends => hends.2.1 hlen
      rw [hcount]
      unfold advanceAndUpdateLineNumberSlowCase advanceSlowCase
      rw [if_neg (not_not.mpr hpushed), if_neg (not_not.mpr hpushed),
        if_neg (not_not.mpr hlen), if_neg (not_not.mpr hlen)]
    · have hle : ¬1 < s.currentString.length := fun hlt => hslow ⟨hlt, hpushed⟩
      have hzero : s.currentString.length - 1 = 0 := by omega
      have hdec : s.decrementLength.currentString.length = 0 := hzero
      have hdec' : s.countNewline.decrementLength.currentString.length = 0 := hzero
      have hpushed' : s.countNewline.pushedChar1 = 0 := hpushed
      have hlen' : s.countNewline.currentString.length ≠ 0 := hlen
      unfold advanceAndUpdateLineNumberSlowCase advanceSlowCase countLine
      rw [if_neg (not_not.mpr hpushed), if_pos hlen]
      by_cases hends : s.EndsLine
      · rw [if_pos hends, if_neg (not_not.mpr hpushed'), if_pos hlen', if_pos hends.2.2]
        rw [if_pos hdec', if_pos hdec']
      · rw [if_neg hends, if_neg (not_not.mpr hpushed), if_pos hlen,
          if_neg fun h' => hends ⟨hpushed, hlen, h'⟩]
        rw [if_pos hdec, if_pos hdec]
  · have hcount : s.countLine = s := if_neg fun hends => hpushed hends.1
    rw [hcount]
    unfold advanceAndUpdateLineNumberSlowCase advanceSlowCase
    rw [if_pos hpushed, if_pos hpushed]

theorem WellFormed.advanceAndUpdateLineNumber_eq (h : s.WellFormed) :
    s.advanceAndUpdateLineNumber = s.countLine.advance := by
  by_cases hfast : s.fastPath
  · exact h.advanceAndUpdateLineNumber_eq_of_fastPath hfast
  · rcases h.functions with hcached | ⟨hlen, hcached⟩
    · rw [chosen_of_not_fastPath hfast] at hcached
      rw [(advance_eq_of_cached_slow hcached).2,
        (advance_eq_of_cached_slow (cached_countLine.trans hcached)).1]
      exact advanceAndUpdateLineNumberSlowCase_eq hfast
    · have hcount : s.countLine = s := if_neg fun hends => hends.2.1 hlen
      rw [hcount, (advance_eq_of_cached_empty hcached).1, (advance_eq_of_cached_empty hcached).2]

theorem WellFormed.advanceAndUpdateLineNumber (h : s.WellFormed) :
    s.advanceAndUpdateLineNumber.WellFormed ∧
      s.advanceAndUpdateLineNumber.toQueue = s.toQueue.advanceAndUpdateLineNumber := by
  obtain ⟨hs, hq⟩ := h.countLine.advance
  rw [h.advanceAndUpdateLineNumber_eq]
  rw [h.toQueue_countLine] at hq
  exact ⟨hs, hq⟩

theorem WellFormed.advancePastNewlineAndUpdateLineNumber_eq (h : s.WellFormed)
    (hnewline : s.currentChar = newline) :
    s.advancePastNewlineAndUpdateLineNumber = s.countLine.advance := by
  unfold advancePastNewlineAndUpdateLineNumber
  by_cases hfast : s.fastPath
  · have hends := h.endsLine_iff_of_fastPath hfast
    have hcount : s.countLine =
        if s.currentString.doNotExcludeLineNumbers = true then s.countNewline else s := by
      unfold SegmentedString.countLine
      by_cases hflag : s.currentString.doNotExcludeLineNumbers = true
      · rw [if_pos hflag, if_pos (hends.mpr ⟨hnewline, hflag⟩)]
      · rw [if_neg hflag, if_neg fun h' => hflag (hends.mp h').2]
    rw [h.countLine.advance_eq_of_fastPath (fastPath_countLine.mpr hfast),
      if_pos ⟨hfast.2, hfast.1⟩, hcount]
  · rw [if_neg fun hcond => hfast ⟨hcond.2, hcond.1⟩, advanceAndUpdateLineNumberSlowCase_eq hfast]
    rcases h.functions with hcached | ⟨hlen, -⟩
    · rw [chosen_of_not_fastPath hfast] at hcached
      rw [(advance_eq_of_cached_slow (cached_countLine.trans hcached)).1]
    · rw [h.currentChar_of_empty hlen] at hnewline
      cases hnewline

theorem WellFormed.advancePastNewlineAndUpdateLineNumber (h : s.WellFormed)
    (hnewline : s.currentChar = newline) :
    s.advancePastNewlineAndUpdateLineNumber.WellFormed ∧
      s.advancePastNewlineAndUpdateLineNumber.toQueue = s.toQueue.advanceAndUpdateLineNumber := by
  obtain ⟨hs, hq⟩ := h.countLine.advance
  rw [h.advancePastNewlineAndUpdateLineNumber_eq hnewline]
  rw [h.toQueue_countLine] at hq
  exact ⟨hs, hq⟩

end SegmentedString

end WebKit.Platform
