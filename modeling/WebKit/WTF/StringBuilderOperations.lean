import Mathlib.Logic.Equiv.Basic
import WebKit.WTF.StringBuilderAppend

/-!
# The operations of a `StringBuilder`

A string is retained by an empty builder only when its width is the width of the builder, and
the buffer is shortened only when no string shows it.
-/

open List Function

namespace WebKit.WTF.StringBuilders

open Blocks Transition StringRef Equiv

variable {s t : StringBuilders} {b : Sequences} {i j : ℕ} {is8Bit : Bool} {string : StringRef}

/-! ## Strings -/

theorem ValidString.length_contents (h : s.ValidString string) :
    (s.contents string).length = string.length := by
  have hend := h.end_le
  rw [contents, length_take, length_drop]
  omega

theorem Represents.valid_of_held (h : s.Represents b) (hheld : s.Held string) :
    s.ValidString string := by
  rcases hheld with hs | ⟨j, hs⟩
  · exact h.strings_valid string hs
  · exact (h.builder j).valid_string string hs

theorem Represents.length_contents_lt (h : s.Represents b) (hheld : s.Held string) :
    (s.contents string).length < 2 ^ 32 := by
  have hvalid := h.valid_of_held hheld
  have hend := hvalid.end_le
  have hlt := h.length_lt string.impl
  rw [hvalid.length_contents]
  omega

theorem Represents.valid_empty (h : s.Represents b) : s.ValidString .empty where
  impl_lt := h.implCount_pos
  end_le := Nat.zero_le _

theorem contents_empty (s : StringBuilders) : s.contents .empty = [] := take_zero

theorem Represents.content_eq_nil (h : s.Represents b) (hzero : (s.builders i).length = 0) :
    b.builders i = [] :=
  eq_nil_of_length_eq_zero ((h.builder i).length_eq.symm.trans hzero)

/-- An empty builder without a buffer retains a string of its width. -/
theorem Represents.retain (h : s.Represents b) (hi : i < b.builderCount)
    (hbuf : (s.builders i).buffer = none) (hheld : s.Held string) (hpos : 0 < string.length)
    (hwidth : (s.impls string.impl).is8Bit = is8Bit) :
    (s.setBuilder i
      { s.builders i with
        string := some string, length := string.length, is8Bit := is8Bit }).Represents
      (b.setBuilder i (s.contents string)) := by
  have hvalid := h.valid_of_held hheld
  have hlen := hvalid.length_contents
  exact h.setBuilder_string (h.lt_builderCount hi) (h.frees_self i) _ hbuf rfl
    (hlen ▸ h.length_contents_lt hheld) hlen.symm hvalid (fun _ => hwidth)
    (fun hzero => absurd hzero (Nat.ne_of_gt hpos)) fun j _ hb => h.shown j _ hb string hheld rfl

variable (uninitialized : ℕ → UInt16)

theorem Represents.appendString (h : s.Represents b) (hi : i < b.builderCount)
    (hheld : s.Held string) :
    Outcome (· = .crash) (Appended b i (s.contents string))
      (s.appendString uninitialized i string) := by
  rw [StringBuilders.appendString]
  by_cases hzero : string.length = 0
  · rw [if_pos hzero]
    have hnil : s.contents string = [] := by
      rw [contents, hzero, take_zero]
    rw [hnil]
    exact h.appended_nil
  · rw [if_neg hzero]
    by_cases hempty : (s.builders i).length = 0 ∧ (s.builders i).buffer = none
    · rw [if_pos hempty]
      have hretain := h.retain hi hempty.2 hheld (Nat.pos_of_ne_zero hzero) rfl
      show Represents _ (b.setBuilder i (b.builders i ++ s.contents string))
      rw [h.content_eq_nil hempty.1, nil_append]
      exact hretain
    · rw [if_neg hempty]
      exact h.appendCharacters uninitialized hi (h.length_contents_lt hheld)

theorem readCharacters_eq {characters : List UInt16} {offset length : ℕ}
    (h : offset + length ≤ characters.length) :
    readCharacters characters offset length = .ok ((characters.drop offset).take length) :=
  if_pos h

theorem Represents.appendSubstring (h : s.Represents b) (hi : i < b.builderCount)
    (hheld : s.Held string) {offset length : ℕ}
    (hsafe : (offset + length) % 2 ^ 32 ≤ string.length → offset + length < 2 ^ 32) :
    Outcome (· = .crash) (Appended b i (if offset + length ≤ (s.contents string).length then
          ((s.contents string).drop offset).take length else []))
      (s.appendSubstring uninitialized i string offset length) := by
  have hlen := (h.valid_of_held hheld).length_contents
  rw [StringBuilders.appendSubstring]
  by_cases hzero : string.length = 0
  · rw [if_pos hzero]
    have hnil : s.contents string = [] := eq_nil_of_length_eq_zero (hlen.trans hzero)
    rw [hnil, drop_nil, take_nil, ite_self]
    exact h.appended_nil
  · rw [if_neg hzero]
    by_cases hle : string.length < (offset + length) % 2 ^ 32
    · have hout : ¬ offset + length ≤ (s.contents string).length := by
        have hmod := Nat.mod_le (offset + length) (2 ^ 32)
        omega
      rw [if_pos hle, if_neg hout]
      exact h.appended_nil
    · have hin : offset + length ≤ (s.contents string).length := by omega
      rw [if_neg hle, if_pos hin, readCharacters_eq hin]
      apply h.appendCharacters uninitialized hi
      rw [List.length_take]
      omega

/-- The characters behind the pointer that the builder returns begin with its content. -/
theorem Represents.characters (h : s.Represents b) (i : ℕ) :
    ∃ characters, s.characters i (s.builders i).is8Bit = .ok characters ∧
      characters.take (s.builders i).length = b.builders i := by
  have hbld := h.builder i
  rw [StringBuilders.characters]
  by_cases hzero : (s.builders i).length = 0
  · refine ⟨[], if_pos hzero, ?_⟩
    rw [take_nil, h.content_eq_nil hzero]
  · rw [if_neg hzero]
    rcases hstr : (s.builders i).string with _ | string
    · rcases hbuf : (s.builders i).buffer with _ | impl
      · exact absurd (hbld.length_eq_zero hbuf hstr) hzero
      · refine ⟨_, if_pos (hbld.buffer_is8Bit impl hbuf), ?_⟩
        exact hbld.take_buffer impl hbuf
    · have hwidth := hbld.string_is8Bit string hstr (Nat.pos_of_ne_zero hzero)
      refine ⟨_, if_pos hwidth, ?_⟩
      rw [hbld.contents_string string hstr, hbld.length_eq, take_length]

theorem Represents.appendBuilder (h : s.Represents b) (hi : i < b.builderCount)
    (hsafe : (s.builders i).length = 0 → (s.builders i).buffer = none →
      (s.builders j).length ≠ 0 → (s.builders j).string ≠ none →
        (s.builders i).is8Bit = (s.builders j).is8Bit) :
    Outcome (· = .crash) (Appended b i (b.builders j)) (s.appendBuilder uninitialized i j) := by
  have hother := h.builder j
  have hcopy : Outcome (· = .crash) (Appended b i (b.builders j)) (do
        let characters ← s.characters j (s.builders j).is8Bit
        let characters ← readCharacters characters 0 (s.builders j).length
        s.appendCharacters uninitialized i (s.builders j).is8Bit characters) := by
    obtain ⟨characters, hchars, htake⟩ := h.characters j
    have hroom : 0 + (s.builders j).length ≤ characters.length := by
      rw [Nat.zero_add]
      exact h.length_take htake
    rw [hchars]
    dsimp only [bind, Except.bind]
    rw [readCharacters_eq hroom, drop_zero, htake]
    apply h.appendCharacters uninitialized hi
    rw [← hother.length_eq]
    exact hother.length_lt
  rw [StringBuilders.appendBuilder]
  by_cases hzero : (s.builders j).length = 0
  · rw [if_pos hzero, h.content_eq_nil hzero]
    exact h.appended_nil
  · rw [if_neg hzero]
    rcases hstr : (s.builders j).string with _ | string
    · exact hcopy
    · dsimp only
      by_cases hempty : (s.builders i).length = 0 ∧ (s.builders i).buffer = none
      · rw [if_pos hempty]
        have hflags := hsafe hempty.1 hempty.2 hzero (by rw [hstr]; nofun)
        have hwidth := hother.string_is8Bit string hstr (Nat.pos_of_ne_zero hzero)
        have hcont := hother.contents_string string hstr
        have hlen : (s.builders j).length = string.length := by
          rw [hother.length_eq, ← hcont]
          exact (hother.valid_string string hstr).length_contents
        have hretain := h.retain hi hempty.2 (.inr ⟨j, hstr⟩)
          (by rw [← hlen]; exact Nat.pos_of_ne_zero hzero) (hwidth.trans hflags.symm)
        rw [hcont, ← hlen] at hretain
        show Represents _ (b.setBuilder i (b.builders i ++ b.builders j))
        rw [h.content_eq_nil hempty.1, nil_append]
        exact hretain
      · rw [if_neg hempty]
        exact hcopy

theorem Represents.characterAt (h : s.Represents b) {k : ℕ} (hk : k < (b.builders i).length) :
    s.characterAt i k = .ok (b.builders i)[k] := by
  obtain ⟨characters, hchars, htake⟩ := h.characters i
  have hget : characters[k]? = some (b.builders i)[k] := by
    have hlt : k < (s.builders i).length := by
      rw [(h.builder i).length_eq]
      exact hk
    rw [← getElem?_take_of_lt hlt, htake, getElem?_eq_getElem hk]
  rw [StringBuilders.characterAt, hchars]
  dsimp only [bind, Except.bind]
  rw [hget]

section

variable (h : s.Represents b) (hi : i < b.builderCount)
include h hi

theorem Represents.shorten {impl newSize : ℕ}
    (hbuf : (s.builders i).buffer = some impl) (hstr : (s.builders i).string = none)
    (hunshared : s.Unshared i) (hle : newSize ≤ (s.builders i).length) :
    (s.setBuilder i { s.builders i with length := newSize }).Represents
      (b.setBuilder i ((b.builders i).take newSize)) := by
  have hbld := h.builder i
  apply h.setBuilder (h.lt_builderCount hi) (h.frees_self i)
  · exact
      { hbld with
        length_eq := by
          rw [List.length_take, ← hbld.length_eq]
          exact (Nat.min_eq_left hle).symm
        length_lt := Nat.lt_of_le_of_lt hle hbld.length_lt
        contents_string := fun _ hs => nomatch hstr.symm.trans hs
        string_is8Bit := fun _ hs => nomatch hstr.symm.trans hs
        empty_is8Bit := fun _ hs => nomatch hstr.symm.trans hs
        length_le := fun k hk => Nat.le_trans hle (hbld.length_le k hk)
        take_buffer := fun k hk => by
          rw [← hbld.take_buffer k hk, take_take]
          rw [Nat.min_eq_left hle]
        length_eq_zero := fun hnone => nomatch hnone.symm.trans hbuf }
  · exact fun _ hb => hb
  · rintro k hk string' (hs | hs) himpl
    · exact absurd himpl (hunshared k hk string' hs.held)
    · exact nomatch hstr.symm.trans hs
  · exact fun _ hs => nomatch hstr.symm.trans hs

theorem Represents.resize {newSize : ℕ} (hle : newSize ≤ (b.builders i).length) :
    Outcome (· = .crash) (fun t => t.Represents (b.setBuilder i ((b.builders i).take newSize)))
      (s.resize uninitialized i newSize) := by
  have hbld := h.builder i
  have hlen := hbld.length_eq
  rw [StringBuilders.resize]
  by_cases heq : newSize = (s.builders i).length
  · rw [if_pos heq, heq, hlen, take_length, Represents.setBuilder_self]
    exact h
  · rw [if_neg heq]
    have hlt : newSize < (s.builders i).length := by omega
    rcases hbuf : (s.builders i).buffer with _ | impl
    · rcases hstr : (s.builders i).string with _ | string
      · have hzero := hbld.length_eq_zero hbuf hstr
        omega
      · have hvalid := hbld.valid_string string hstr
        have hcont := hbld.contents_string string hstr
        have hstringLength : string.length = (s.builders i).length := by
          rw [hlen, ← hcont, hvalid.length_contents]
        have hend := hvalid.end_le
        have hleft : s.contents (string.left newSize) = (b.builders i).take newSize := by
          by_cases hzero : newSize = 0
          · rw [left, if_pos hzero, contents_empty, hzero, take_zero]
          · rw [left, if_neg hzero, ← hcont, contents, contents,
              take_take, Nat.min_eq_left (by omega)]
        rw [← hleft]
        refine h.setBuilder_string (h.lt_builderCount hi) (h.frees_self i)
          { s.builders i with length := newSize, string := some (string.left newSize) }
          hbuf rfl ?_ ?_ ?_ ?_ ?_ ?_
        · exact Nat.lt_trans hlt hbld.length_lt
        · rw [hleft, List.length_take]
          exact (Nat.min_eq_left hle).symm
        · by_cases hzero : newSize = 0
          · rw [left, if_pos hzero]
            exact h.valid_empty
          · rw [left, if_neg hzero]
            refine ⟨hvalid.impl_lt, Nat.le_trans ?_ hend⟩
            show string.offset + newSize ≤ _
            omega
        · intro hpos
          rw [left, if_neg (Nat.ne_of_gt hpos)]
          exact hbld.string_is8Bit string hstr (by omega)
        · intro hzero
          rw [left, if_pos hzero]
          show (s.impls 0).is8Bit = true
          rw [h.empty_eq]
        · intro j hj hb
          by_cases hzero : newSize = 0
          · rw [left, if_pos hzero]
            exact Nat.zero_le _
          · rw [left, if_neg hzero] at hb ⊢
            have hshown := h.shown j _ hb string (.inr ⟨i, hstr⟩) rfl
            show string.offset + newSize ≤ _
            omega
    · have hdrop := h.dropString hi hbuf
      have hcap := hbld.length_le impl hbuf
      have hwidth := hbld.buffer_is8Bit impl hbuf
      have htake := hbld.take_buffer impl hbuf
      have hself := setBuilder_builder s i { s.builders i with string := none }
      -- the buffer is copied unless nothing else refers to it
      have hown : Outcome (· = .crash)
          (fun t => t.Represents b ∧ t.Unshared i ∧ (t.builders i).string = none ∧
            ∃ impl, (t.builders i).buffer = some impl)
          (if (s.setBuilder i { s.builders i with string := none }).hasOneRef impl = true then
            .ok (s.setBuilder i { s.builders i with string := none })
          else
            (s.setBuilder i { s.builders i with string := none }).allocateBuffer uninitialized i
              (s.impls impl).is8Bit (s.impls impl).characters
              (s.impls impl).characters.length) := by
        have hbuf' : ((s.setBuilder i { s.builders i with string := none }).builders i).buffer =
            some impl := by rw [hself, hbuf]
        by_cases hone : (s.setBuilder i { s.builders i with string := none }).hasOneRef impl = true
        · rw [if_pos hone]
          exact ⟨hdrop, hdrop.unshared hbuf' hone, by rw [hself], impl, hbuf'⟩
        · rw [if_neg hone]
          refine (hdrop.allocateBuffer uninitialized hi (by rw [hself, hwidth]) ?_ (by omega)
            (by rw [hself]; exact hcap)).mono ?_
          · rw [hself]
            exact htake
          · rintro t ⟨ht, hunshared⟩
            obtain ⟨impl', himpl', -⟩ := ht.exists_buffer
            exact ⟨ht.represents, hunshared, ht.string_eq, impl', himpl'⟩
      refine hown.bind ?_
      rintro t ⟨ht, hunshared, hstr, impl', himpl'⟩
      apply ht.shorten hi himpl' hstr hunshared
      rw [(ht.builder i).length_eq]
      exact hle

theorem Represents.reserveCapacity {newCapacity : ℕ}
    (hsafe : (s.builders i).length = 0 → (s.builders i).buffer = none → 0 < newCapacity →
      (s.builders i).is8Bit = true) :
    Outcome (· = .crash) (fun t => t.Represents b)
      (s.reserveCapacity uninitialized i newCapacity) := by
  have hbld := h.builder i
  rw [StringBuilders.reserveCapacity]
  rcases hbuf : (s.builders i).buffer with _ | impl
  · by_cases hgrow : (s.builders i).length < newCapacity
    · rw [if_pos hgrow]
      by_cases hzero : (s.builders i).length = 0
      · rw [if_pos hzero]
        refine (h.allocateBuffer uninitialized hi (hsafe hzero hbuf (by omega)) ?_ (by omega)
          (by omega)).mono fun t ht => ht.1.represents
        rw [take_nil, h.content_eq_nil hzero]
      · rw [if_neg hzero]
        rcases hstr : (s.builders i).string with _ | string
        · exact absurd (hbld.length_eq_zero hbuf hstr) hzero
        · have hwidth := hbld.string_is8Bit string hstr (Nat.pos_of_ne_zero hzero)
          refine (h.allocateBuffer uninitialized hi hwidth.symm ?_ (by omega)
            (by omega)).mono fun t ht => ht.1.represents
          rw [hbld.contents_string string hstr, hbld.length_eq, take_length]
    · rw [if_neg hgrow]
      exact h
  · dsimp only
    by_cases hgrow : (s.impls impl).characters.length < newCapacity
    · rw [if_pos hgrow]
      have hle := hbld.length_le impl hbuf
      exact (h.reallocateBuffer uninitialized hi (hbld.buffer_is8Bit impl hbuf).symm hbuf
        (by omega) (by omega)).mono fun t ht => ht.represents
    · rw [if_neg hgrow]
      exact h

theorem Represents.setEmpty (hfrees : Frees s t i)
    {builder : StringBuilder} (hlen : builder.length = 0) (hnil : b.builders i = [])
    (hstr : builder.string = some .empty) (hbuf : builder.buffer = none) :
    (t.setBuilder i builder).Represents b := by
  have hpos : 0 < t.implCount := by
    rw [hfrees.implCount_eq]
    exact h.implCount_pos
  have hcont : t.contents .empty = b.builders i := (contents_empty t).trans hnil.symm
  rw [← Represents.setBuilder_self b i, ← hcont]
  apply h.setBuilder_string (h.lt_builderCount hi) hfrees _ hbuf hstr
  · rw [hlen]
    exact Nat.two_pow_pos 32
  · rw [hlen, contents_empty]
    rfl
  · exact ⟨hpos, Nat.zero_le _⟩
  · exact fun hlt => absurd hlen (Nat.ne_of_gt hlt)
  · intro _
    show (t.impls 0).is8Bit = true
    rw [hfrees.empty_eq, h.empty_eq]
  · exact fun j _ _ => Nat.zero_le _

/-- The buffer of an empty builder is replaced by the empty impl. -/
theorem Represents.reallocateBuffer_zero {impl : ℕ} (hbuf : (s.builders i).buffer = some impl)
    (hzero : (s.builders i).length = 0) :
    ∃ s' t builder, s'.Represents b ∧ Frees s' t i ∧ builder.length = 0 ∧ builder.buffer = some 0 ∧
      s.reallocateBuffer uninitialized i (s.builders i).is8Bit 0 =
        .ok (t.setBuilder i builder) := by
  have hdrop := h.dropString hi hbuf
  have hwidth := (h.builder i).buffer_is8Bit impl hbuf
  rw [StringBuilders.reallocateBuffer]
  generalize hs' : s.setBuilder i { s.builders i with string := none } = s' at hdrop ⊢
  have hself : s'.builders i = { s.builders i with string := none } := by
    rw [← hs', setBuilder_builder]
  have himpls : s'.impls = s.impls := by rw [← hs']; rfl
  have hbuf' : (s'.builders i).buffer = some impl := by rw [hself]; exact hbuf
  have hzero' : (s'.builders i).length = 0 := by rw [hself]; exact hzero
  rw [hbuf']
  dsimp only
  have hwide : ¬ ((s.builders i).is8Bit = false ∧ (s'.impls impl).is8Bit = true) := by
    rw [himpls, hwidth]
    rintro ⟨hfalse, htrue⟩
    rw [hfalse] at htrue
    cases htrue
  rw [if_neg hwide, implCharacters, if_pos (by rw [himpls]; exact hwidth)]
  dsimp only [bind, Except.bind]
  by_cases hone : s'.hasOneRef impl = true
  · have hfrees := hdrop.frees hbuf' (hdrop.unshared hbuf' hone)
    rw [himpls, hwidth] at hfrees
    rw [if_pos hone, reallocate, if_pos rfl]
    exact ⟨s', _, { s'.builders i with buffer := some 0, bufferCharacters := none }, hdrop, hfrees,
      hzero', rfl, rfl⟩
  · have hnone : ¬ (s'.impls impl).characters.length < (s'.builders i).length := by
      rw [hzero']
      exact Nat.not_lt_zero _
    rw [if_neg hone, StringBuilders.allocateBuffer]
    rw [if_neg hnone, createUninitialized, if_pos rfl, hzero', take_zero]
    exact ⟨s', s',
      { s'.builders i with buffer := some 0, bufferCharacters := none, string := none }, hdrop,
      hdrop.frees_self i, hzero', rfl, rfl⟩

theorem Represents.shrinkToFit :
    Outcome (· = .crash) (fun t => t.Represents b) (s.shrinkToFit uninitialized i) := by
  rw [StringBuilders.shrinkToFit]
  by_cases hshrink : s.canShrink i = true
  · rw [if_pos hshrink]
    rw [canShrink] at hshrink
    rcases hbuf : (s.builders i).buffer with _ | impl
    · rw [hbuf] at hshrink
      cases hshrink
    · by_cases hzero : (s.builders i).length = 0
      · obtain ⟨s', t, builder, hs', hfrees, hlen, hbld, heq⟩ :=
          h.reallocateBuffer_zero uninitialized hi hbuf hzero
        have hempty : (t.setBuilder i builder).impls 0 = ⟨true, []⟩ :=
          hfrees.empty_eq.trans hs'.empty_eq
        rw [hzero, heq]
        dsimp only [bind, Except.bind]
        rw [setBuilder_builder, hbld]
        dsimp only
        rw [setBuilder_setBuilder, hempty]
        exact hs'.setEmpty hi hfrees hlen (h.content_eq_nil hzero) rfl rfl
      · refine (h.reallocateBuffer uninitialized hi rfl hbuf (Nat.pos_of_ne_zero hzero)
          (Nat.le_refl _)).bind fun t ht => ?_
        obtain ⟨impl', himpl', hcap⟩ := ht.exists_buffer
        have hbld := ht.represents.builder i
        have hlen : (s.builders i).length = (t.builders i).length := by
          rw [(h.builder i).length_eq, hbld.length_eq]
        rw [hlen] at hcap
        rw [himpl']
        have hset := ht.represents.setBuilder (ht.represents.lt_builderCount hi)
          (ht.represents.frees_self i)
          { t.builders i with
            string := some ⟨impl', 0, (t.impls impl').characters.length⟩, buffer := none }
          (b.builders i)
        rw [Represents.setBuilder_self] at hset
        apply hset
        · exact
            { length_eq := hbld.length_eq
              length_lt := hbld.length_lt
              valid_string := by
                rintro string ⟨⟩
                exact ⟨hbld.buffer_lt impl' himpl', Nat.le_of_eq (Nat.zero_add _)⟩
              contents_string := by
                rintro string ⟨⟩
                rw [contents, drop_zero, hcap]
                exact hbld.take_buffer impl' himpl'
              string_is8Bit := by
                rintro string ⟨⟩ -
                exact hbld.buffer_is8Bit impl' himpl'
              empty_is8Bit := fun _ _ hnone => absurd (hlen.trans hnone) hzero
              buffer_lt := by rintro impl ⟨⟩
              buffer_is8Bit := by rintro impl ⟨⟩
              length_le := by rintro impl ⟨⟩
              take_buffer := by rintro impl ⟨⟩
              bufferCharacters_eq := by rintro impl ⟨⟩
              length_eq_zero := by rintro - ⟨⟩ }
        · rintro impl ⟨⟩
        · rintro impl ⟨⟩
        · rintro string ⟨⟩ j hj hb
          exact absurd (ht.represents.buffer_unique j i impl' hb himpl') hj
  · rw [if_neg hshrink]
    exact h

end

theorem Represents.reifyString (h : s.Represents b) (hi : i < b.builderCount) :
    ∃ t string, s.reifyString i = .ok t ∧ t.Represents b ∧ (t.builders i).string = some string := by
  have hbld := h.builder i
  rw [StringBuilders.reifyString]
  rcases hstr : (s.builders i).string with _ | string
  · dsimp only
    rcases hbuf : (s.builders i).buffer with _ | impl
    · have hzero := hbld.length_eq_zero hbuf hstr
      refine ⟨_, .empty, if_pos hzero, ?_, by rw [setBuilder_builder]⟩
      exact h.setEmpty hi (h.frees_self i) hzero (h.content_eq_nil hzero) rfl rfl
    · -- the string is empty, or the beginning of the buffer
      have hreify : ∀ string, string = .empty ∧ (s.builders i).length = 0 ∨
          string = ⟨impl, 0, (s.builders i).length⟩ ∧ (s.builders i).length ≠ 0 →
          (s.setBuilder i { s.builders i with string := some string }).Represents b := by
        intro string hcases
        have hset := h.setBuilder (h.lt_builderCount hi) (h.frees_self i)
          { s.builders i with string := some string } (b.builders i)
        rw [Represents.setBuilder_self] at hset
        have hend : string.offset + string.length ≤ (s.builders i).length := by
          rcases hcases with ⟨rfl, -⟩ | ⟨rfl, -⟩
          · exact Nat.zero_le _
          · exact Nat.le_of_eq (Nat.zero_add _)
        apply hset
        · exact
            { hbld with
              valid_string := by
                rintro string' ⟨⟩
                rcases hcases with ⟨rfl, -⟩ | ⟨rfl, -⟩
                · exact h.valid_empty
                · exact ⟨hbld.buffer_lt impl hbuf, Nat.le_trans hend (hbld.length_le impl hbuf)⟩
              contents_string := by
                rintro string' ⟨⟩
                rcases hcases with ⟨rfl, hzero⟩ | ⟨rfl, -⟩
                · rw [contents_empty, h.content_eq_nil hzero]
                · exact hbld.take_buffer impl hbuf
              string_is8Bit := by
                rintro string' ⟨⟩ hpos
                rcases hcases with ⟨-, hzero⟩ | ⟨rfl, -⟩
                · exact absurd hzero (Nat.ne_of_gt hpos)
                · exact hbld.buffer_is8Bit impl hbuf
              empty_is8Bit := by
                rintro string' ⟨⟩ hnone
                rcases hcases with ⟨rfl, -⟩ | ⟨-, hzero⟩
                · show (s.impls 0).is8Bit = true
                  rw [h.empty_eq]
                · exact absurd hnone hzero
              length_eq_zero := fun _ hnone => nomatch hnone }
        · exact fun _ hb => hb
        · rintro k hk string' (hs | hs) himpl
          · exact h.shown i k hk string' hs.held himpl
          · cases hs
            exact hend
        · rintro string' ⟨⟩ j hj hb
          rcases hcases with ⟨rfl, -⟩ | ⟨rfl, -⟩
          · exact Nat.zero_le _
          · exact absurd (h.buffer_unique j i impl hb hbuf) hj
      by_cases hzero : (s.builders i).length = 0
      · refine ⟨_, .empty, if_pos hzero, ?_, by rw [setBuilder_builder]⟩
        rw [← hbuf]
        exact hreify _ (.inl ⟨rfl, hzero⟩)
      · refine ⟨_, _, if_neg hzero, ?_, by rw [setBuilder_builder]⟩
        rw [← hbuf]
        exact hreify _ (.inr ⟨rfl, hzero⟩)
  · exact ⟨s, string, rfl, h, hstr⟩

variable (string) in
section

variable (h : s.Represents b)
include h

/-- One more string is held, and it ends where the builder with its buffer does. -/
theorem Represents.addString (hvalid : s.ValidString string)
    (hshown : ∀ i impl, (s.builders i).buffer = some impl → string.impl = impl →
      string.offset + string.length ≤ (s.builders i).length) :
    Represents { s with strings := s.strings ++ [string] }
      { b with strings := b.strings ++ [s.contents string] } where
  builderCount_eq := h.builderCount_eq
  implCount_pos := h.implCount_pos
  empty_eq := h.empty_eq
  length_lt := h.length_lt
  builder := fun i =>
    { h.builder i with
      valid_string := fun string' hs =>
        ⟨((h.builder i).valid_string string' hs).impl_lt,
          ((h.builder i).valid_string string' hs).end_le⟩ }
  unused := h.unused
  strings_valid := by
    intro string' hs
    have hvalid' : s.ValidString string' := by
      rcases mem_append.mp hs with hs | hs
      · exact h.strings_valid string' hs
      · rw [mem_singleton.mp hs]
        exact hvalid
    exact ⟨hvalid'.impl_lt, hvalid'.end_le⟩
  strings_eq := by
    rw [map_append, ← h.strings_eq]
    rfl
  buffer_unique := h.buffer_unique
  shown := by
    rintro i impl hb string' hheld himpl
    rcases hheld with hs | hs
    · rcases mem_append.mp hs with hs | hs
      · exact h.shown i impl hb string' (.inl hs) himpl
      · obtain rfl := mem_singleton.mp hs
        exact hshown i impl hb himpl
    · exact h.shown i impl hb string' (.inr hs) himpl

theorem Represents.toStringPreserveCapacity (hi : i < b.builderCount) :
    Outcome (· = .crash) (fun t => t.Represents { b with strings := b.strings ++ [b.builders i] })
      (s.toStringPreserveCapacity i) := by
  obtain ⟨t, string, heq, ht, hstr⟩ := h.reifyString hi
  have hbld := ht.builder i
  rw [StringBuilders.toStringPreserveCapacity, heq]
  dsimp only [bind, Except.bind]
  rw [handOut, hstr]
  have hadd := ht.addString string (hbld.valid_string string hstr) fun j impl hb himpl =>
    ht.shown j impl hb string (.inr ⟨i, hstr⟩) himpl
  rw [hbld.contents_string string hstr] at hadd
  exact hadd

theorem Represents.toString (hi : i < b.builderCount) :
    Outcome (· = .crash) (fun t => t.Represents { b with strings := b.strings ++ [b.builders i] })
      (s.toString uninitialized i) :=
  (h.shrinkToFit uninitialized hi).bind fun _ ht => ht.toStringPreserveCapacity hi

theorem Represents.addImpl (value : StringImpl)
    (hlt : value.characters.length < 2 ^ 32) : (s.addImpl value).Represents b := by
  have hold : ∀ impl, impl < s.implCount → (s.addImpl value).impls impl = s.impls impl := by
    intro impl himpl
    exact update_of_ne (Nat.ne_of_lt himpl) ..
  have hkeeps : ∀ string, s.Held string → Keeps s (s.addImpl value) string :=
    fun string hs => Keeps.of_impls_eq (hold _ (h.valid_of_held hs).impl_lt)
  exact
    { builderCount_eq := h.builderCount_eq
      implCount_pos := Nat.succ_pos _
      empty_eq := by rw [hold 0 h.implCount_pos, h.empty_eq]
      length_lt := by
        intro impl
        by_cases himpl : impl = s.implCount
        · rw [himpl, show (s.addImpl value).impls s.implCount = value from
            update_self ..]
          exact hlt
        · rw [show (s.addImpl value).impls impl = s.impls impl from
            update_of_ne himpl ..]
          exact h.length_lt impl
      builder := by
        intro i
        have hbld := h.builder i
        have hkeep : ∀ string, (s.builders i).string = some string →
            Keeps s (s.addImpl value) string := fun string hs => hkeeps string (.inr ⟨i, hs⟩)
        have hbuf : ∀ impl, (s.builders i).buffer = some impl →
            (s.addImpl value).impls impl = s.impls impl :=
          fun impl hb => hold impl (hbld.buffer_lt impl hb)
        exact
          { length_eq := hbld.length_eq
            length_lt := hbld.length_lt
            valid_string := fun string hs =>
              (hbld.valid_string string hs).keep (hkeep string hs) (Nat.le_succ _)
            contents_string := fun string hs => by
              rw [(hkeep string hs).contents_eq]
              exact hbld.contents_string string hs
            string_is8Bit := fun string hs hpos => by
              rw [(hkeep string hs).is8Bit_eq]
              exact hbld.string_is8Bit string hs hpos
            empty_is8Bit := fun string hs hzero => by
              rw [(hkeep string hs).is8Bit_eq]
              exact hbld.empty_is8Bit string hs hzero
            buffer_lt := fun impl hb => Nat.lt_succ_of_lt (hbld.buffer_lt impl hb)
            buffer_is8Bit := fun impl hb => by
              rw [hbuf impl hb]
              exact hbld.buffer_is8Bit impl hb
            length_le := fun impl hb => by
              rw [hbuf impl hb]
              exact hbld.length_le impl hb
            take_buffer := fun impl hb => by
              rw [hbuf impl hb]
              exact hbld.take_buffer impl hb
            bufferCharacters_eq := hbld.bufferCharacters_eq
            length_eq_zero := hbld.length_eq_zero }
      unused := h.unused
      strings_valid := fun string hs =>
        (h.strings_valid string hs).keep (hkeeps string (.inl hs)) (Nat.le_succ _)
      strings_eq := by
        rw [← h.strings_eq]
        exact map_congr_left fun string hs => (hkeeps string (.inl hs)).contents_eq
      buffer_unique := h.buffer_unique
      shown := h.shown }

theorem Represents.newString {characters : List UInt16}
    (hlt : characters.length < 2 ^ 32) :
    Represents
      { s.addImpl ⟨is8Bit, characters⟩ with
        strings := s.strings ++ [⟨s.implCount, 0, characters.length⟩] }
      { b with strings := b.strings ++ [characters] } := by
  have himpl : (s.addImpl ⟨is8Bit, characters⟩).impls s.implCount = ⟨is8Bit, characters⟩ :=
    update_self ..
  have hadd := (h.addImpl ⟨is8Bit, characters⟩ hlt).addString
    ⟨s.implCount, 0, characters.length⟩ ?_ ?_
  · rw [contents, himpl, drop_zero, take_length] at hadd
    exact hadd
  · refine ⟨Nat.lt_succ_self _, ?_⟩
    rw [himpl]
    exact Nat.le_of_eq (Nat.zero_add _)
  · rintro i impl hb rfl
    exact absurd ((h.builder i).buffer_lt _ hb) (Nat.lt_irrefl _)

end

theorem map_eraseIdx {α β : Type*} (f : α → β) (l : List α) (k : ℕ) :
    (l.eraseIdx k).map f = (l.map f).eraseIdx k := by
  rw [eraseIdx_eq_take_drop_succ, eraseIdx_eq_take_drop_succ, map_append, map_take, map_drop]

theorem Represents.release (h : s.Represents b) (k : ℕ) :
    Represents { s with strings := s.strings.eraseIdx k }
      { b with strings := b.strings.eraseIdx k } where
  builderCount_eq := h.builderCount_eq
  implCount_pos := h.implCount_pos
  empty_eq := h.empty_eq
  length_lt := h.length_lt
  builder := fun i =>
    { h.builder i with
      valid_string := fun string hs =>
        ⟨((h.builder i).valid_string string hs).impl_lt,
          ((h.builder i).valid_string string hs).end_le⟩ }
  unused := h.unused
  strings_valid := by
    intro string hs
    have hvalid := h.strings_valid string (mem_of_mem_eraseIdx hs)
    exact ⟨hvalid.impl_lt, hvalid.end_le⟩
  strings_eq := by
    rw [← h.strings_eq]
    exact map_eraseIdx _ _ k
  buffer_unique := h.buffer_unique
  shown := by
    rintro i impl hb string (hs | hs) himpl
    · exact h.shown i impl hb string (.inl (mem_of_mem_eraseIdx hs)) himpl
    · exact h.shown i impl hb string (.inr hs) himpl

theorem Represents.create (h : s.Represents b) : Represents
      { s with
        builders := Function.update s.builders s.builderCount .empty
        builderCount := s.builderCount + 1 }
      { b with
        builders := Function.update b.builders b.builderCount []
        builderCount := b.builderCount + 1 } := by
  have hempty := h.unused s.builderCount (Nat.le_refl _)
  have hnil : b.builders s.builderCount = [] := h.content_eq_nil (by rw [hempty]; rfl)
  rw [← hempty, Function.update_eq_self, ← h.builderCount_eq, ← hnil, Function.update_eq_self]
  exact
    { builderCount_eq := rfl
      implCount_pos := h.implCount_pos
      empty_eq := h.empty_eq
      length_lt := h.length_lt
      builder := fun i =>
        { h.builder i with
          valid_string := fun string hs =>
            ⟨((h.builder i).valid_string string hs).impl_lt,
              ((h.builder i).valid_string string hs).end_le⟩ }
      unused := fun i hi => h.unused i (Nat.le_of_succ_le hi)
      strings_valid := fun string hs =>
        ⟨(h.strings_valid string hs).impl_lt, (h.strings_valid string hs).end_le⟩
      strings_eq := h.strings_eq
      buffer_unique := h.buffer_unique
      shown := h.shown }

theorem Represents.clear (h : s.Represents b) (hi : i < b.builderCount) :
    (s.clear i).Represents (b.setBuilder i []) := by
  exact h.setBuilder (h.lt_builderCount hi) (h.frees_self i) .empty [] s.holds_empty
    nofun nofun nofun

theorem Represents.rename (h : s.Represents b) (σ : ℕ → ℕ) (hσ : Function.Injective σ)
    (hunused : ∀ i, s.builderCount ≤ i → σ i = i) :
    Represents { s with builders := fun i => s.builders (σ i) }
      { b with builders := fun i => b.builders (σ i) } where
  builderCount_eq := h.builderCount_eq
  implCount_pos := h.implCount_pos
  empty_eq := h.empty_eq
  length_lt := h.length_lt
  builder := fun i =>
    { h.builder (σ i) with
      valid_string := fun string hs =>
        ⟨((h.builder (σ i)).valid_string string hs).impl_lt,
          ((h.builder (σ i)).valid_string string hs).end_le⟩ }
  unused := by
    intro i hi
    show s.builders (σ i) = .empty
    rw [hunused i hi]
    exact h.unused i hi
  strings_valid := fun string hs =>
    ⟨(h.strings_valid string hs).impl_lt, (h.strings_valid string hs).end_le⟩
  strings_eq := h.strings_eq
  buffer_unique := fun i j impl hi hj => hσ (h.buffer_unique (σ i) (σ j) impl hi hj)
  shown := by
    rintro i impl hb string (hs | ⟨j, hs⟩) himpl
    · exact h.shown (σ i) impl hb string (.inl hs) himpl
    · exact h.shown (σ i) impl hb string (.inr ⟨σ j, hs⟩) himpl

theorem update_update_eq_swap {α : Type*} (f : ℕ → α) (i j : ℕ) :
    update (update f i (f j)) j (f i) = fun k => f (Equiv.swap i j k) := by
  funext k
  by_cases hj : k = j
  · subst hj
    rw [update_self, swap_apply_right]
  · by_cases hi : k = i
    · subst hi
      rw [update_of_ne hj, update_self, swap_apply_left]
    · rw [update_of_ne hj, update_of_ne hi, swap_apply_of_ne_of_ne hi hj]

theorem Represents.swap (h : s.Represents b) (hi : i < b.builderCount) (hj : j < b.builderCount) :
    (s.swap i j).Represents ((b.setBuilder i (b.builders j)).setBuilder j (b.builders i)) := by
  have hi' := h.lt_builderCount hi
  have hj' := h.lt_builderCount hj
  have hrename := h.rename (Equiv.swap i j) (Equiv.swap i j).injective ?_
  · rw [← update_update_eq_swap, ← update_update_eq_swap] at hrename
    exact hrename
  · intro k hk
    exact Equiv.swap_apply_of_ne_of_ne (by omega) (by omega)

end WebKit.WTF.StringBuilders
