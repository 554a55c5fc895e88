import WebKit.WTF.StringBuilderSpec

/-!
# Appending to a `StringBuilder`

Appending makes sure that the builder has a buffer with room behind its content (`Buffered`),
and writes the new characters there.
-/

open List Function

namespace WebKit.WTF.StringBuilders

open Blocks Transition

variable {s t : StringBuilders} {b : Sequences} {i : ℕ} {is8Bit : Bool} {requiredLength : ℕ}

/-- No string shows the buffer of the builder. -/
def Unshared (s : StringBuilders) (i : ℕ) : Prop :=
  ∀ impl, (s.builders i).buffer = some impl → ∀ string, s.Held string → string.impl ≠ impl

/-- The builder has a buffer of the given width and capacity, and no string. -/
structure Buffered (s : StringBuilders) (b : Sequences) (i : ℕ) (is8Bit : Bool) (capacity : ℕ) :
    Prop where
  represents : s.Represents b
  is8Bit_eq : (s.builders i).is8Bit = is8Bit
  string_eq : (s.builders i).string = none
  exists_buffer : ∃ impl, (s.builders i).buffer = some impl ∧
    (s.impls impl).characters.length = capacity

section

variable (s : StringBuilders)

theorem setBuilder_setBuilder (i : ℕ) (builder builder' : StringBuilder) :
    (s.setBuilder i builder).setBuilder i builder' = s.setBuilder i builder' := by
  simp only [setBuilder, update_idem]

@[simp] theorem setBuilder_builder (i : ℕ) (builder : StringBuilder) :
    (s.setBuilder i builder).builders i = builder := update_self ..

@[simp] theorem setImpl_impl (impl : ℕ) (value : StringImpl) :
    (s.setImpl impl value).impls impl = value := update_self ..

theorem setImpl_impl_of_ne {impl k : ℕ} (value : StringImpl) (hk : k ≠ impl) :
    (s.setImpl impl value).impls k = s.impls k := update_of_ne hk ..

end

theorem Represents.lt_builderCount (h : s.Represents b) (hi : i < b.builderCount) :
    i < s.builderCount := by
  rw [h.builderCount_eq]
  exact hi

theorem Represents.length_take (h : s.Represents b) {characters : List UInt16}
    (htake : characters.take (s.builders i).length = b.builders i) :
    (s.builders i).length ≤ characters.length := by
  have hlen := congrArg List.length htake
  rw [List.length_take, ← (h.builder i).length_eq] at hlen
  omega

variable {impl : ℕ}

theorem Represents.unshared (h : s.Represents b)
    (hbuf : (s.builders i).buffer = some impl) (hone : s.hasOneRef impl = true) :
    s.Unshared i := by
  intro impl' hbuf' string hheld
  obtain rfl := Option.some.inj (hbuf.symm.trans hbuf')
  rw [hasOneRef, Bool.and_eq_true, Bool.and_eq_true, all_eq_true, all_eq_true] at hone
  obtain ⟨⟨-, hbuilders⟩, hstrs⟩ := hone
  rcases hheld with hs | ⟨j, hs⟩
  · exact of_decide_eq_true (hstrs string hs)
  · by_cases hj : j < s.builderCount
    · have hall := hbuilders j (mem_range.mpr hj)
      rw [hs] at hall
      exact of_decide_eq_true hall
    · rw [h.unused j (Nat.le_of_not_lt hj)] at hs
      cases hs

theorem Represents.frees (h : s.Represents b)
    (hbuf : (s.builders i).buffer = some impl) (hunshared : s.Unshared i) :
    Frees s (s.setImpl impl ⟨(s.impls impl).is8Bit, []⟩) i where
  builders_eq := rfl
  builderCount_eq := rfl
  strings_eq := rfl
  implCount_eq := rfl
  empty_eq := by
    by_cases hzero : impl = 0
    · subst hzero
      rw [h.empty_eq, setImpl_impl]
    · exact setImpl_impl_of_ne s _ (Ne.symm hzero)
  length_lt := by
    intro k
    by_cases hk : k = impl
    · subst hk
      rw [setImpl_impl]
      exact Nat.two_pow_pos 32
    · rw [setImpl_impl_of_ne s _ hk]
      exact h.length_lt k
  string_eq := by
    intro string hs
    exact setImpl_impl_of_ne s _ (hunshared impl hbuf string hs.held)
  buffer_eq := by
    intro j k hj hb
    apply setImpl_impl_of_ne
    rintro rfl
    exact hj (h.buffer_unique j i k hb hbuf)

theorem Represents.dropString (h : s.Represents b) (hi : i < b.builderCount)
    (hbuf : (s.builders i).buffer = some impl) :
    (s.setBuilder i { s.builders i with string := none }).Represents b := by
  have hbld := h.builder i
  have hset := h.setBuilder (h.lt_builderCount hi) (h.frees_self i)
    { s.builders i with string := none } (b.builders i)
  rw [Represents.setBuilder_self] at hset
  apply hset
  · exact
      { hbld with
        valid_string := nofun
        contents_string := nofun
        string_is8Bit := nofun
        empty_is8Bit := nofun
        length_eq_zero := fun hnone => nomatch hnone.symm.trans hbuf }
  · exact fun _ hb => hb
  · rintro k hk string (hs | hs)
    · exact h.shown i k hk string hs.held
    · cases hs
  · nofun

/-! ## The buffer -/

variable (uninitialized : ℕ → UInt16)

theorem maxStringLength_lt (is8Bit : Bool) : maxStringLength is8Bit < 2 ^ 32 := by
  cases is8Bit <;> decide

theorem length_uninitializedCharacters (offset length : ℕ) :
    (uninitializedCharacters uninitialized offset length).length = length := by
  rw [uninitializedCharacters, length_map, length_range']

theorem write_eq (himpl : (s.impls impl).is8Bit = is8Bit) {offset : ℕ}
    {data : List UInt16} (hne : data ≠ [])
    (hroom : offset + data.length ≤ (s.impls impl).characters.length) :
    s.write (some impl) is8Bit offset data =
      .ok (s.setImpl impl ⟨is8Bit, overwrite (s.impls impl).characters offset data⟩) := by
  rw [write, if_neg hne]
  exact if_pos ⟨himpl, hroom⟩

variable (s is8Bit) in
theorem write_addImpl {characters data : List UInt16} (hroom : data.length ≤ characters.length) :
    (s.addImpl ⟨is8Bit, characters⟩).write (some s.implCount) is8Bit 0 data =
      .ok (s.addImpl ⟨is8Bit, overwrite characters 0 data⟩) := by
  have himpl : (s.addImpl ⟨is8Bit, characters⟩).impls s.implCount = ⟨is8Bit, characters⟩ :=
    update_self ..
  by_cases hne : data = []
  · subst hne
    rw [write, if_pos rfl, overwrite_zero]
    rfl
  · rw [write_eq (by rw [himpl]) hne (by rw [himpl, Nat.zero_add]; exact hroom), himpl]
    simp only [setImpl, addImpl, update_idem]

variable (is8Bit) in
/-- A new buffer begins with the content, and nothing refers to it. -/
theorem Represents.buffered_install (h : s.Represents b) (hi : i < b.builderCount)
    (hfrees : Frees s t i) (characters : List UInt16) (hlen : characters.length = requiredLength)
    (hlt : requiredLength < 2 ^ 32) (htake : characters.take (s.builders i).length = b.builders i) :
    Buffered (t.install i is8Bit characters) b i is8Bit requiredLength ∧
      (t.install i is8Bit characters).Unshared i := by
  have hbld := t.install_builder i is8Bit characters
  constructor
  · exact
      { represents := h.install (h.lt_builderCount hi) hfrees (by rw [hlen]; exact hlt)
          (h.length_take htake) htake
        is8Bit_eq := by rw [hbld]
        string_eq := by rw [hbld]
        exists_buffer := by
          rw [hbld]
          refine ⟨t.implCount, rfl, ?_⟩
          rw [install_impl]
          exact hlen }
  · intro impl hbuf string hheld
    rw [hbld] at hbuf
    cases hbuf
    -- strings show older impls only
    have hvalid : string.impl < s.implCount := by
      rcases hheld with hs | ⟨j, hs⟩
      · exact (h.strings_valid string (by rw [← hfrees.strings_eq]; exact hs)).impl_lt
      · by_cases hj : j = i
        · subst hj
          rw [hbld] at hs
          cases hs
        · rw [show (t.install i is8Bit characters).builders j = t.builders j from
            update_of_ne hj .., hfrees.builders_eq] at hs
          exact ((h.builder j).valid_string string hs).impl_lt
    rw [hfrees.implCount_eq]
    omega

variable (is8Bit) in
theorem Represents.allocateBuffer_eq (h : s.Represents b) {currentCharacters : List UInt16}
    (htake : currentCharacters.take (s.builders i).length = b.builders i)
    (hpos : 0 < requiredLength) (hle : (s.builders i).length ≤ requiredLength) :
    ∃ characters, characters.length = requiredLength ∧
      characters.take (s.builders i).length = b.builders i ∧
      Outcome (· = .crash) (fun t => requiredLength < 2 ^ 32 ∧
          t = (s.addImpl ⟨is8Bit, characters⟩).setBuilder i
            { s.builders i with
              buffer := some s.implCount, bufferCharacters := some s.implCount, string := none })
        (s.allocateBuffer uninitialized i is8Bit currentCharacters requiredLength) := by
  have hcur := h.length_take htake
  have hlen := (h.builder i).length_eq
  have hroom : (b.builders i).length ≤
      (uninitializedCharacters uninitialized 0 requiredLength).length := by
    rw [length_uninitializedCharacters, ← hlen]
    exact hle
  refine ⟨overwrite (uninitializedCharacters uninitialized 0 requiredLength) 0 (b.builders i),
    ?_, ?_, ?_⟩
  · rw [length_overwrite (by rw [Nat.zero_add]; exact hroom), length_uninitializedCharacters]
  · rw [overwrite_zero, hlen, take_left]
  · rw [allocateBuffer]
    dsimp only
    rw [if_neg (Nat.not_lt.mpr hcur), createUninitialized, if_neg (by omega)]
    by_cases hmax : maxStringLength is8Bit < requiredLength
    · rw [if_pos hmax]
      exact rfl
    · rw [if_neg hmax, htake]
      have hlt := maxStringLength_lt is8Bit
      have hwrite := write_addImpl s is8Bit hroom
      dsimp only [bind, Except.bind]
      rw [hwrite]
      exact ⟨by omega, rfl⟩

section

variable (h : s.Represents b) (hi : i < b.builderCount)
include h hi

theorem Represents.allocateBuffer
    (his8Bit : (s.builders i).is8Bit = is8Bit) {currentCharacters : List UInt16}
    (htake : currentCharacters.take (s.builders i).length = b.builders i)
    (hpos : 0 < requiredLength) (hle : (s.builders i).length ≤ requiredLength) :
    Outcome (· = .crash) (fun t => Buffered t b i is8Bit requiredLength ∧ t.Unshared i)
      (s.allocateBuffer uninitialized i is8Bit currentCharacters requiredLength) := by
  obtain ⟨characters, hlen, htake', halloc⟩ :=
    h.allocateBuffer_eq is8Bit uninitialized htake hpos hle
  refine halloc.mono ?_
  rintro t ⟨hlt, rfl⟩
  have hinstall := h.buffered_install is8Bit hi (h.frees_self i) characters hlen hlt htake'
  subst his8Bit
  exact hinstall

theorem Represents.allocateBufferUpConvert {currentCharacters : List UInt16}
    (htake : currentCharacters.take (s.builders i).length = b.builders i)
    (hpos : 0 < requiredLength) (hle : (s.builders i).length ≤ requiredLength) :
    Outcome (· = .crash) (fun t => Buffered t b i false requiredLength)
      (s.allocateBufferUpConvert uninitialized i currentCharacters requiredLength) := by
  obtain ⟨characters, hlen, htake', halloc⟩ :=
    h.allocateBuffer_eq false uninitialized htake hpos hle
  refine halloc.bind ?_
  rintro t ⟨hlt, rfl⟩
  have hinstall := h.buffered_install false hi (h.frees_self i) characters hlen hlt htake'
  rw [setBuilder_setBuilder, setBuilder_builder]
  exact hinstall.1

theorem Represents.reallocateBuffer (his8Bit : (s.builders i).is8Bit = is8Bit)
    (hbuf : (s.builders i).buffer = some impl)
    (hpos : 0 < requiredLength) (hle : (s.builders i).length ≤ requiredLength) :
    Outcome (· = .crash) (fun t => Buffered t b i is8Bit requiredLength)
      (s.reallocateBuffer uninitialized i is8Bit requiredLength) := by
  have hdrop := h.dropString hi hbuf
  have hbld := h.builder i
  have himpl : (s.impls impl).is8Bit = is8Bit := (hbld.buffer_is8Bit impl hbuf).trans his8Bit
  have htake := hbld.take_buffer impl hbuf
  rw [StringBuilders.reallocateBuffer]
  generalize hs' : s.setBuilder i { s.builders i with string := none } = s' at hdrop ⊢
  have hself : s'.builders i = { s.builders i with string := none } := by
    rw [← hs']
    exact update_self ..
  have himpls : s'.impls = s.impls := by rw [← hs']; rfl
  have hbuf' : (s'.builders i).buffer = some impl := by rw [hself]; exact hbuf
  have hlen : (s'.builders i).length = (s.builders i).length := by rw [hself]
  rw [hbuf']
  dsimp only
  have hwidth : ¬ (is8Bit = false ∧ (s'.impls impl).is8Bit = true) := by
    rw [himpls, himpl]
    rintro ⟨h, h'⟩
    rw [h] at h'
    cases h'
  rw [if_neg hwidth, implCharacters, if_pos (by rw [himpls]; exact himpl)]
  dsimp only [bind, Except.bind]
  by_cases hone : s'.hasOneRef impl = true
  · rw [if_pos hone, reallocate, if_neg (by omega)]
    by_cases hmax : maxStringLength is8Bit < requiredLength
    · rw [if_pos hmax]
      exact rfl
    · rw [if_neg hmax]
      have hlt := maxStringLength_lt is8Bit
      have hfrees := hdrop.frees hbuf' (hdrop.unshared hbuf' hone)
      rw [himpls, himpl] at hfrees
      have hle' : (s.builders i).length ≤ (s.impls impl).characters.length :=
        hbld.length_le impl hbuf
      have hinstall := hdrop.buffered_install is8Bit hi hfrees
        ((s.impls impl).characters.take requiredLength ++
          uninitializedCharacters uninitialized (s.impls impl).characters.length
            (requiredLength - (s.impls impl).characters.length))
        (?_ : _ = requiredLength) (by omega) ?_
      · refine Eq.mp (congrArg (fun t => Buffered t b i is8Bit requiredLength) ?_) hinstall.1
        subst his8Bit
        rw [← hs']
        simp only [StringBuilders.install, StringBuilders.setBuilder, StringBuilders.setImpl,
          StringBuilders.addImpl, update_self, update_idem]
      · rw [List.length_append, List.length_take, length_uninitializedCharacters]
        omega
      · rw [hlen, List.take_append_of_le_length (by rw [List.length_take]; omega),
          take_take, Nat.min_eq_left hle, htake]
  · rw [if_neg hone, himpls]
    refine (hdrop.allocateBuffer uninitialized hi (by rw [hself]; exact his8Bit) ?_ hpos
      (by rw [hlen]; exact hle)).mono fun t ht => ht.1
    rw [hlen]
    exact htake

end

/-! ## Appending -/

/-- The characters that are behind the pointer of the buffer. -/
theorem Buffered.write {capacity : ℕ} (h : Buffered s b i is8Bit capacity)
    (hi : i < b.builderCount) {data : List UInt16} (hne : data ≠ [])
    (hroom : (s.builders i).length + data.length ≤ capacity) :
    ∃ impl t, s.write (s.builders i).bufferCharacters is8Bit (s.builders i).length data = .ok t ∧
      t = s.setImpl impl ⟨is8Bit, overwrite (s.impls impl).characters (s.builders i).length data⟩ ∧
      (t.setBuilder i
        { s.builders i with length := (s.builders i).length + data.length }).Represents
        (b.setBuilder i (b.builders i ++ data)) ∧
      ∀ length, (s.setBuilder i { s.builders i with length := length }).write
        (s.builders i).bufferCharacters is8Bit (s.builders i).length data =
          .ok (t.setBuilder i { s.builders i with length := length }) := by
  obtain ⟨impl, hbuf, hcap⟩ := h.exists_buffer
  have hbld := h.represents.builder i
  have himpl : (s.impls impl).is8Bit = is8Bit := (hbld.buffer_is8Bit impl hbuf).trans h.is8Bit_eq
  rw [← hcap] at hroom
  have hend := h.represents.write_end (h.represents.lt_builderCount hi) hbuf h.string_eq hroom
  rw [h.is8Bit_eq] at hend
  refine ⟨impl, _, ?_, rfl, hend, ?_⟩
  · rw [hbld.bufferCharacters_eq impl hbuf]
    exact write_eq himpl hne hroom
  · intro length
    rw [hbld.bufferCharacters_eq impl hbuf]
    exact write_eq (s := s.setBuilder i { s.builders i with length := length }) himpl hne hroom

theorem Represents.currentCharacters (h : s.Represents b) (hbuf : (s.builders i).buffer = none)
    (his8Bit : (s.builders i).is8Bit = is8Bit) :
    s.currentCharacters i is8Bit = .ok (b.builders i) := by
  have hbld := h.builder i
  rw [StringBuilders.currentCharacters]
  by_cases hzero : (s.builders i).length = 0
  · rw [if_pos hzero]
    have hempty : b.builders i = [] := eq_nil_of_length_eq_zero (hbld.length_eq.symm.trans hzero)
    rw [hempty]
  · rw [if_neg hzero]
    rcases hstr : (s.builders i).string with _ | string
    · exact absurd (hbld.length_eq_zero hbuf hstr) hzero
    · have hwidth := hbld.string_is8Bit string hstr (Nat.pos_of_ne_zero hzero)
      dsimp only
      rw [stringCharacters, if_pos (hwidth.trans his8Bit), hbld.contents_string string hstr]

theorem le_expandedCapacity (capacity requiredLength : ℕ) :
    requiredLength ≤ expandedCapacity capacity requiredLength := Nat.le_max_left ..

theorem expandedCapacity_pos (capacity requiredLength : ℕ) :
    0 < expandedCapacity capacity requiredLength := by
  rw [expandedCapacity]
  omega

/-- The sum is computed without overflow when it is not less than one summand. -/
theorem add_mod_eq {length n : ℕ} (hlen : length < 2 ^ 32) (hn : n < 2 ^ 32)
    (h : ¬ (n + length) % 2 ^ 32 < n) : (n + length) % 2 ^ 32 = length + n := by
  omega

theorem Represents.appendUninitializedSlow (h : s.Represents b) (hi : i < b.builderCount)
    (his8Bit : (s.builders i).is8Bit = is8Bit) (hle : (s.builders i).length ≤ requiredLength) :
    Outcome (· = .crash)
      (fun p => ∃ t capacity, Buffered t b i is8Bit capacity ∧ requiredLength ≤ capacity ∧
        p = (t.setBuilder i { t.builders i with length := requiredLength }, (t.builders i).length))
      (s.appendUninitializedSlow uninitialized i is8Bit requiredLength) := by
  have hbld := h.builder i
  have hcap := le_expandedCapacity (s.capacity i) requiredLength
  have hpos := expandedCapacity_pos (s.capacity i) requiredLength
  rw [StringBuilders.appendUninitializedSlow]
  refine Outcome.bind (?_ : Outcome _
    (fun t => Buffered t b i is8Bit (expandedCapacity (s.capacity i) requiredLength)) _)
    fun t ht => ⟨t, _, ht, hcap, rfl⟩
  rcases hbuf : (s.builders i).buffer with _ | impl
  · rw [h.currentCharacters hbuf his8Bit]
    refine (h.allocateBuffer uninitialized hi his8Bit ?_ hpos (by omega)).mono fun t ht => ht.1
    rw [hbld.length_eq, take_length]
  · exact h.reallocateBuffer uninitialized hi his8Bit hbuf hpos (by omega)

theorem Represents.appendUninitialized (h : s.Represents b) (hi : i < b.builderCount)
    (his8Bit : (s.builders i).is8Bit = is8Bit) {n : ℕ} (hn : n < 2 ^ 32) :
    Outcome (· = .crash) (fun p => ∃ t capacity, Buffered t b i is8Bit capacity ∧
        (t.builders i).length + n ≤ capacity ∧
        p = (t.setBuilder i { t.builders i with length := (t.builders i).length + n },
          (t.builders i).length))
      (s.appendUninitialized uninitialized i is8Bit n) := by
  have hbld := h.builder i
  rw [StringBuilders.appendUninitialized]
  by_cases hcrash : (n + (s.builders i).length) % 2 ^ 32 < n
  · rw [if_pos hcrash]
    exact rfl
  · rw [if_neg hcrash, add_mod_eq hbld.length_lt hn hcrash]
    have hslow := h.appendUninitializedSlow uninitialized hi his8Bit
      (Nat.le_add_right (s.builders i).length n)
    have hslow' : Outcome (· = .crash) (fun p => ∃ t capacity, Buffered t b i is8Bit capacity ∧
        (t.builders i).length + n ≤ capacity ∧
        p = (t.setBuilder i { t.builders i with length := (t.builders i).length + n },
          (t.builders i).length))
        (s.appendUninitializedSlow uninitialized i is8Bit ((s.builders i).length + n)) := by
      apply hslow.mono
      rintro p ⟨t, capacity, ht, hle, hp⟩
      have hlen : (s.builders i).length = (t.builders i).length := by
        rw [hbld.length_eq, (ht.represents.builder i).length_eq]
      rw [hlen] at hle hp
      exact ⟨t, capacity, ht, hle, hp⟩
    rcases hbuf : (s.builders i).buffer with _ | impl
    · exact hslow'
    · dsimp only
      by_cases hroom : (s.builders i).length + n ≤ (s.impls impl).characters.length
      · rw [if_pos hroom]
        -- there is room in the buffer, and the string is dropped
        refine ⟨s.setBuilder i { s.builders i with string := none },
          (s.impls impl).characters.length, ?_, ?_, ?_⟩
        · exact
            { represents := h.dropString hi hbuf
              is8Bit_eq := by rw [setBuilder_builder, his8Bit]
              string_eq := by rw [setBuilder_builder]
              exists_buffer := ⟨impl, by rw [setBuilder_builder, hbuf], rfl⟩ }
        · rw [setBuilder_builder]
          exact hroom
        · rw [setBuilder_setBuilder, setBuilder_builder, hbuf]
      · rw [if_neg hroom]
        exact hslow'

/-- The builder holds the characters behind its old content. -/
def Appended (b : Sequences) (i : ℕ) (characters : List UInt16) (t : StringBuilders) : Prop :=
  t.Represents (b.setBuilder i (b.builders i ++ characters))

variable {characters : List UInt16}

theorem Represents.appended_nil (h : s.Represents b) : Appended b i [] s := by
  rw [Appended, append_nil, Represents.setBuilder_self]
  exact h

theorem Represents.appendToBuffer (h : s.Represents b) (hi : i < b.builderCount)
    (his8Bit : (s.builders i).is8Bit = is8Bit) (hlt : characters.length < 2 ^ 32)
    (hne : characters ≠ []) :
    Outcome (· = .crash) (Appended b i characters)
      (s.appendToBuffer uninitialized i is8Bit characters) := by
  refine (h.appendUninitialized uninitialized hi his8Bit hlt).bind ?_
  rintro p ⟨t, capacity, ht, hroom, rfl⟩
  obtain ⟨impl, u, -, -, hu, hwrite⟩ := ht.write hi hne hroom
  dsimp only
  rw [setBuilder_builder, hwrite]
  exact hu

theorem Represents.append8 (h : s.Represents b) (hi : i < b.builderCount)
    (hlt : characters.length < 2 ^ 32) :
    Outcome (· = .crash) (Appended b i characters) (s.append8 uninitialized i characters) := by
  rw [StringBuilders.append8]
  by_cases hne : characters = []
  · rw [if_pos hne, hne]
    exact h.appended_nil
  · rw [if_neg hne]
    exact h.appendToBuffer uninitialized hi rfl hlt hne

theorem Represents.current (h : s.Represents b) (his8Bit : (s.builders i).is8Bit = true) :
    Outcome (· = .crash) (fun characters => characters.take (s.builders i).length = b.builders i)
      (match (s.builders i).buffer with
        | some impl => s.implCharacters true impl
        | none => match (s.builders i).string with
          | none => .ok []
          | some string => s.stringCharacters true string) := by
  have hbld := h.builder i
  rcases hbuf : (s.builders i).buffer with _ | impl
  · rcases hstr : (s.builders i).string with _ | string
    · have hzero := hbld.length_eq_zero hbuf hstr
      have hempty := eq_nil_of_length_eq_zero (hbld.length_eq.symm.trans hzero)
      show [].take (s.builders i).length = b.builders i
      rw [take_nil, hempty]
    · have hwidth : (s.impls string.impl).is8Bit = true := by
        by_cases hzero : (s.builders i).length = 0
        · exact hbld.empty_is8Bit string hstr hzero
        · exact (hbld.string_is8Bit string hstr (Nat.pos_of_ne_zero hzero)).trans his8Bit
      dsimp only
      rw [stringCharacters, if_pos hwidth, hbld.contents_string string hstr]
      show (b.builders i).take (s.builders i).length = b.builders i
      rw [hbld.length_eq, take_length]
  · dsimp only
    rw [implCharacters, if_pos ((hbld.buffer_is8Bit impl hbuf).trans his8Bit)]
    exact hbld.take_buffer impl hbuf

section

variable (h : s.Represents b) (hi : i < b.builderCount)
include h hi

theorem Represents.append16 (hlt : characters.length < 2 ^ 32) :
    Outcome (· = .crash) (Appended b i characters) (s.append16 uninitialized i characters) := by
  have hbld := h.builder i
  rw [StringBuilders.append16]
  by_cases hne : characters = []
  · rw [if_pos hne, hne]
    exact h.appended_nil
  · rw [if_neg hne]
    by_cases his8Bit : (s.builders i).is8Bit = true
    · rw [if_pos his8Bit]
      by_cases hsingle : characters.length = 1 ∧ characters.all isLatin1 = true
      · rw [if_pos hsingle]
        exact h.append8 uninitialized hi hlt
      · rw [if_neg hsingle]
        by_cases hcrash : (characters.length + (s.builders i).length) % 2 ^ 32 < characters.length
        · rw [if_pos hcrash]
          exact rfl
        · rw [if_neg hcrash, add_mod_eq hbld.length_lt hlt hcrash]
          have hcap := le_expandedCapacity (s.capacity i)
            ((s.builders i).length + characters.length)
          have hpos := expandedCapacity_pos (s.capacity i)
            ((s.builders i).length + characters.length)
          refine (h.current his8Bit).bind fun current hcur => ?_
          refine (h.allocateBufferUpConvert uninitialized hi hcur hpos
            (by omega)).bind fun t ht => ?_
          have hlen : (s.builders i).length = (t.builders i).length := by
            rw [hbld.length_eq, (ht.represents.builder i).length_eq]
          obtain ⟨impl, u, hwrite, hu, happended, -⟩ := ht.write hi hne (hlen ▸ hcap)
          rw [hlen]
          rw [hwrite]
          have hbuilders : u.builders i = t.builders i := by
            rw [hu]
            rfl
          show Appended b i characters (u.setBuilder i { u.builders i with length := _ })
          rw [hbuilders]
          exact happended
    · rw [if_neg his8Bit]
      exact h.appendToBuffer uninitialized hi (eq_false_of_ne_true his8Bit) hlt hne

theorem Represents.appendCharacters (hlt : characters.length < 2 ^ 32) :
    Outcome (· = .crash) (Appended b i characters)
      (s.appendCharacters uninitialized i is8Bit characters) := by
  cases is8Bit with
  | true => exact h.append8 uninitialized hi hlt
  | false => exact h.append16 uninitialized hi hlt

/-- There is room for one more character, and it is written there. -/
theorem Represents.appendInPlace (hroom : s.hasRoom i = true) (c : UInt16) :
    Outcome (· = .crash) (Appended b i [c]) (s.appendInPlace i (s.builders i).is8Bit c) := by
  rw [hasRoom] at hroom
  rcases hbuf : (s.builders i).buffer with _ | impl
  · rw [hbuf] at hroom
    cases hroom
  · rcases hstr : (s.builders i).string with _ | string
    · rw [hbuf, hstr] at hroom
      have hbuffered : Buffered s b i (s.builders i).is8Bit (s.impls impl).characters.length :=
        ⟨h, rfl, hstr, impl, hbuf, rfl⟩
      obtain ⟨impl', t, hwrite, ht, happended, -⟩ := hbuffered.write hi
        (cons_ne_nil c []) (of_decide_eq_true hroom)
      have hbuilders : t.builders i = s.builders i := by
        rw [ht]
        rfl
      rw [StringBuilders.appendInPlace]
      rw [hwrite]
      show Appended b i [c] (t.setBuilder i { t.builders i with length := _ })
      rw [hbuilders]
      exact happended
    · rw [hbuf, hstr] at hroom
      cases hroom

theorem Represents.appendUChar (c : UInt16) :
    Outcome (· = .crash) (Appended b i [c]) (s.appendUChar uninitialized i c) := by
  rw [StringBuilders.appendUChar]
  by_cases hroom : s.hasRoom i = true ∧ ((s.builders i).is8Bit = false ∨ isLatin1 c = true)
  · rw [if_pos hroom]
    exact h.appendInPlace hi hroom.1 c
  · rw [if_neg hroom]
    exact h.append16 uninitialized hi (by rw [length_singleton]; omega)

theorem Represents.appendLChar (c : UInt16) :
    Outcome (· = .crash) (Appended b i [c]) (s.appendLChar uninitialized i c) := by
  rw [StringBuilders.appendLChar]
  by_cases hroom : s.hasRoom i = true
  · rw [if_pos hroom]
    exact h.appendInPlace hi hroom c
  · rw [if_neg hroom]
    exact h.append8 uninitialized hi (by rw [length_singleton]; omega)

end

end WebKit.WTF.StringBuilders
