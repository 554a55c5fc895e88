import WebKit.Transition.Outcome
import WebKit.WTF.StringBuilder

/-!
# What a `StringBuilder` holds

`Represents s b`: the builders and the strings of the program `s` hold the sequences of
characters `b`. Two facts keep the strings that were handed out: a buffer belongs to one
builder, and what strings show of it lies before the length of the builder (`shown`). Writing
behind the length changes none of them, and before the length decreases, the buffer is copied
unless nothing else refers to it.
-/

namespace WebKit.WTF

open Blocks Transition Function List

/-- The sequences that builders and strings stand for. -/
structure Sequences where
  builders : ℕ → List UInt16
  builderCount : ℕ
  strings : List (List UInt16)

def Sequences.setBuilder (b : Sequences) (i : ℕ) (content : List UInt16) : Sequences :=
  { b with builders := update b.builders i content }

namespace StringBuilders

structure ValidString (s : StringBuilders) (string : StringRef) : Prop where
  impl_lt : string.impl < s.implCount
  end_le : string.offset + string.length ≤ (s.impls string.impl).characters.length

/-- A builder that holds the content. -/
structure Holds (s : StringBuilders) (builder : StringBuilder) (content : List UInt16) : Prop where
  length_eq : builder.length = content.length
  length_lt : builder.length < 2 ^ 32
  valid_string : ∀ string, builder.string = some string → s.ValidString string
  contents_string : ∀ string, builder.string = some string → s.contents string = content
  string_is8Bit : ∀ string, builder.string = some string → 0 < builder.length →
    (s.impls string.impl).is8Bit = builder.is8Bit
  empty_is8Bit : ∀ string, builder.string = some string → builder.length = 0 →
    (s.impls string.impl).is8Bit = true
  buffer_lt : ∀ impl, builder.buffer = some impl → impl < s.implCount
  buffer_is8Bit : ∀ impl, builder.buffer = some impl → (s.impls impl).is8Bit = builder.is8Bit
  length_le : ∀ impl, builder.buffer = some impl →
    builder.length ≤ (s.impls impl).characters.length
  take_buffer : ∀ impl, builder.buffer = some impl →
    (s.impls impl).characters.take builder.length = content
  bufferCharacters_eq : ∀ impl, builder.buffer = some impl → builder.bufferCharacters = some impl
  length_eq_zero : builder.buffer = none → builder.string = none → builder.length = 0

/-- A string that the program or a builder holds. -/
def Held (s : StringBuilders) (string : StringRef) : Prop :=
  string ∈ s.strings ∨ ∃ j, (s.builders j).string = some string

/-- A string that is held elsewhere than in a builder. -/
def HeldElsewhere (s : StringBuilders) (i : ℕ) (string : StringRef) : Prop :=
  string ∈ s.strings ∨ ∃ j, j ≠ i ∧ (s.builders j).string = some string

structure Represents (s : StringBuilders) (b : Sequences) : Prop where
  builderCount_eq : s.builderCount = b.builderCount
  implCount_pos : 0 < s.implCount
  empty_eq : s.impls 0 = ⟨true, []⟩
  length_lt : ∀ impl, (s.impls impl).characters.length < 2 ^ 32
  builder : ∀ i, s.Holds (s.builders i) (b.builders i)
  unused : ∀ i, s.builderCount ≤ i → s.builders i = .empty
  strings_valid : ∀ string ∈ s.strings, s.ValidString string
  strings_eq : s.strings.map s.contents = b.strings
  buffer_unique : ∀ i j impl, (s.builders i).buffer = some impl →
    (s.builders j).buffer = some impl → i = j
  shown : ∀ i impl, (s.builders i).buffer = some impl → ∀ string, s.Held string →
    string.impl = impl → string.offset + string.length ≤ (s.builders i).length

variable {s t : StringBuilders} {b : Sequences} {i j : ℕ} {string : StringRef}

theorem HeldElsewhere.held (h : s.HeldElsewhere i string) : s.Held string := by
  rcases h with h | ⟨j, -, h⟩
  · exact .inl h
  · exact .inr ⟨j, h⟩

/-- The string still shows the same characters. -/
structure Keeps (s t : StringBuilders) (string : StringRef) : Prop where
  is8Bit_eq : (t.impls string.impl).is8Bit = (s.impls string.impl).is8Bit
  contents_eq : t.contents string = s.contents string
  length_eq : (t.impls string.impl).characters.length = (s.impls string.impl).characters.length

theorem Keeps.of_impls_eq (h : t.impls string.impl = s.impls string.impl) : Keeps s t string where
  is8Bit_eq := by rw [h]
  contents_eq := by rw [contents, contents, h]
  length_eq := by rw [h]

theorem ValidString.keep (h : s.ValidString string) (hkeeps : Keeps s t string)
    (hcount : s.implCount ≤ t.implCount) : t.ValidString string where
  impl_lt := Nat.lt_of_lt_of_le h.impl_lt hcount
  end_le := by
    rw [hkeeps.length_eq]
    exact h.end_le

/-- What an operation on one builder has to show: the impls that the others use are kept, the
builder holds its new content, and its buffer is its own. -/
theorem Represents.update (h : s.Represents b) {content : List UInt16} (hi : i < s.builderCount)
    (hbuilders : ∀ j, j ≠ i → t.builders j = s.builders j)
    (hstrs : t.strings = s.strings) (hbuilderCount : t.builderCount = s.builderCount)
    (himplCount : s.implCount ≤ t.implCount) (hempty : t.impls 0 = s.impls 0)
    (hlen : ∀ impl, (t.impls impl).characters.length < 2 ^ 32)
    (hkeeps : ∀ string, s.HeldElsewhere i string → Keeps s t string)
    (hbuf : ∀ j impl, j ≠ i → (s.builders j).buffer = some impl → t.impls impl = s.impls impl)
    (hholds : t.Holds (t.builders i) content)
    (hunique : ∀ j impl, j ≠ i → (t.builders i).buffer = some impl →
      (s.builders j).buffer ≠ some impl)
    (hshown : ∀ impl, (t.builders i).buffer = some impl → ∀ string,
      s.HeldElsewhere i string ∨ (t.builders i).string = some string → string.impl = impl →
        string.offset + string.length ≤ (t.builders i).length)
    (hstr : ∀ string, (t.builders i).string = some string → ∀ j, j ≠ i →
      (s.builders j).buffer = some string.impl →
        string.offset + string.length ≤ (s.builders j).length) :
    t.Represents (b.setBuilder i content) where
  builderCount_eq := hbuilderCount.trans h.builderCount_eq
  implCount_pos := Nat.lt_of_lt_of_le h.implCount_pos himplCount
  empty_eq := hempty.trans h.empty_eq
  length_lt := hlen
  builder := by
    intro j
    by_cases hj : j = i
    · subst hj
      rw [show (b.setBuilder j content).builders j = content from update_self ..]
      exact hholds
    · rw [show (b.setBuilder i content).builders j = b.builders j from
        update_of_ne hj .., hbuilders j hj]
      have hj' := h.builder j
      have hkeep : ∀ string, (s.builders j).string = some string → Keeps s t string :=
        fun string hs => hkeeps string (.inr ⟨j, hj, hs⟩)
      exact
        { length_eq := hj'.length_eq
          length_lt := hj'.length_lt
          valid_string := fun string hs =>
            (hj'.valid_string string hs).keep (hkeep string hs) himplCount
          contents_string := fun string hs => by
            rw [(hkeep string hs).contents_eq, hj'.contents_string string hs]
          string_is8Bit := fun string hs hpos => by
            rw [(hkeep string hs).is8Bit_eq, hj'.string_is8Bit string hs hpos]
          empty_is8Bit := fun string hs hzero => by
            rw [(hkeep string hs).is8Bit_eq, hj'.empty_is8Bit string hs hzero]
          buffer_lt := fun impl hb => Nat.lt_of_lt_of_le (hj'.buffer_lt impl hb) himplCount
          buffer_is8Bit := fun impl hb => by
            rw [hbuf j impl hj hb, hj'.buffer_is8Bit impl hb]
          length_le := fun impl hb => by
            rw [hbuf j impl hj hb]
            exact hj'.length_le impl hb
          take_buffer := fun impl hb => by
            rw [hbuf j impl hj hb, hj'.take_buffer impl hb]
          bufferCharacters_eq := hj'.bufferCharacters_eq
          length_eq_zero := hj'.length_eq_zero }
  unused := by
    intro j hj
    rw [hbuilderCount] at hj
    rw [hbuilders j (by omega)]
    exact h.unused j hj
  strings_valid := by
    intro string hs
    rw [hstrs] at hs
    exact (h.strings_valid string hs).keep (hkeeps string (.inl hs)) himplCount
  strings_eq := by
    rw [hstrs]
    refine Eq.trans ?_ h.strings_eq
    exact map_congr_left fun string hs => (hkeeps string (.inl hs)).contents_eq
  buffer_unique := by
    intro j k impl hj hk
    by_cases hji : j = i
    · by_cases hki : k = i
      · rw [hji, hki]
      · subst hji
        rw [hbuilders k hki] at hk
        exact absurd hk (hunique k impl hki hj)
    · rw [hbuilders j hji] at hj
      by_cases hki : k = i
      · subst hki
        exact absurd hj (hunique j impl hji hk)
      · rw [hbuilders k hki] at hk
        exact h.buffer_unique j k impl hj hk
  shown := by
    intro j impl hj string hheld himpl
    -- the string is held elsewhere, or in the builder that changed
    have hcases : s.HeldElsewhere i string ∨ (t.builders i).string = some string := by
      rcases hheld with hs | ⟨k, hk⟩
      · rw [hstrs] at hs
        exact .inl (.inl hs)
      · by_cases hki : k = i
        · subst hki
          exact .inr hk
        · rw [hbuilders k hki] at hk
          exact .inl (.inr ⟨k, hki, hk⟩)
    by_cases hji : j = i
    · subst hji
      exact hshown impl hj string hcases himpl
    · rw [hbuilders j hji] at hj ⊢
      rcases hcases with hs | hs
      · exact h.shown j impl hj string hs.held himpl
      · exact hstr string hs j hji (by rw [himpl]; exact hj)

/-! ## The ways in which a builder changes -/

/-- Only impls that nothing but a builder refers to are changed. -/
structure Frees (s t : StringBuilders) (i : ℕ) : Prop where
  builders_eq : t.builders = s.builders
  builderCount_eq : t.builderCount = s.builderCount
  strings_eq : t.strings = s.strings
  implCount_eq : t.implCount = s.implCount
  empty_eq : t.impls 0 = s.impls 0
  length_lt : ∀ impl, (t.impls impl).characters.length < 2 ^ 32
  string_eq : ∀ string, s.HeldElsewhere i string → t.impls string.impl = s.impls string.impl
  buffer_eq : ∀ j impl, j ≠ i → (s.builders j).buffer = some impl → t.impls impl = s.impls impl

theorem Represents.frees_self (h : s.Represents b) (i : ℕ) : Frees s s i where
  builders_eq := rfl
  builderCount_eq := rfl
  strings_eq := rfl
  implCount_eq := rfl
  empty_eq := rfl
  length_lt := h.length_lt
  string_eq _ _ := rfl
  buffer_eq _ _ _ _ := rfl

theorem Represents.valid_of_heldElsewhere (h : s.Represents b)
    (hs : s.HeldElsewhere i string) : s.ValidString string := by
  rcases hs with hs | ⟨j, -, hs⟩
  · exact h.strings_valid string hs
  · exact (h.builder j).valid_string string hs

theorem Represents.setBuilder (h : s.Represents b) (hi : i < s.builderCount) (hfrees : Frees s t i)
    (builder : StringBuilder) (content : List UInt16) (hholds : t.Holds builder content)
    (hbuf : ∀ impl, builder.buffer = some impl → (s.builders i).buffer = some impl)
    (hshown : ∀ impl, builder.buffer = some impl → ∀ string,
      s.HeldElsewhere i string ∨ builder.string = some string → string.impl = impl →
        string.offset + string.length ≤ builder.length)
    (hstr : ∀ string, builder.string = some string → ∀ j, j ≠ i →
      (s.builders j).buffer = some string.impl →
        string.offset + string.length ≤ (s.builders j).length) :
    (t.setBuilder i builder).Represents (b.setBuilder i content) := by
  have hself : (t.setBuilder i builder).builders i = builder := update_self ..
  refine h.update hi ?_ hfrees.strings_eq hfrees.builderCount_eq ?_ hfrees.empty_eq
    hfrees.length_lt ?_ hfrees.buffer_eq ?_ ?_ ?_ ?_
  · intro j hj
    rw [← hfrees.builders_eq]
    exact update_of_ne hj ..
  · exact Nat.le_of_eq hfrees.implCount_eq.symm
  · exact fun string hs => Keeps.of_impls_eq (hfrees.string_eq string hs)
  · rw [hself]
    exact { hholds with valid_string := fun string hs =>
              ⟨(hholds.valid_string string hs).impl_lt, (hholds.valid_string string hs).end_le⟩ }
  · intro j impl hj hb hb'
    rw [hself] at hb
    exact hj (h.buffer_unique j i impl hb' (hbuf impl hb))
  · rw [hself]
    exact hshown
  · rw [hself]
    exact hstr

theorem holds_empty (s : StringBuilders) : s.Holds .empty [] where
  length_eq := rfl
  length_lt := Nat.two_pow_pos 32
  valid_string := nofun
  contents_string := nofun
  string_is8Bit := nofun
  empty_is8Bit := nofun
  buffer_lt := nofun
  buffer_is8Bit := nofun
  length_le := nofun
  take_buffer := nofun
  bufferCharacters_eq := nofun
  length_eq_zero := fun _ _ => rfl

theorem Represents.setBuilder_string (h : s.Represents b) (hi : i < s.builderCount)
    (hfrees : Frees s t i) (builder : StringBuilder)
    (hbuf : builder.buffer = none) (hstr : builder.string = some string)
    (hlt : builder.length < 2 ^ 32) (hlen : builder.length = (t.contents string).length)
    (hvalid : t.ValidString string)
    (hwidth : 0 < builder.length → (t.impls string.impl).is8Bit = builder.is8Bit)
    (hempty : builder.length = 0 → (t.impls string.impl).is8Bit = true)
    (hshown : ∀ j, j ≠ i → (s.builders j).buffer = some string.impl →
      string.offset + string.length ≤ (s.builders j).length) :
    (t.setBuilder i builder).Represents (b.setBuilder i (t.contents string)) := by
  have heq : ∀ string', builder.string = some string' → string' = string :=
    fun string' hs => Option.some.inj (hs.symm.trans hstr)
  have hnone : ∀ impl, builder.buffer ≠ some impl := fun _ hb => nomatch hbuf.symm.trans hb
  apply h.setBuilder hi hfrees
  · exact
      { length_eq := hlen
        length_lt := hlt
        valid_string := fun _ hs => heq _ hs ▸ hvalid
        contents_string := fun _ hs => heq _ hs ▸ rfl
        string_is8Bit := fun _ hs => heq _ hs ▸ hwidth
        empty_is8Bit := fun _ hs => heq _ hs ▸ hempty
        buffer_lt := fun _ hb => absurd hb (hnone _)
        buffer_is8Bit := fun _ hb => absurd hb (hnone _)
        length_le := fun _ hb => absurd hb (hnone _)
        take_buffer := fun _ hb => absurd hb (hnone _)
        bufferCharacters_eq := fun _ hb => absurd hb (hnone _)
        length_eq_zero := fun _ hs => nomatch hs.symm.trans hstr }
  · exact fun _ hb => absurd hb (hnone _)
  · exact fun _ hb => absurd hb (hnone _)
  · exact fun _ hs => heq _ hs ▸ hshown

theorem Represents.setBuilder_self (b : Sequences) (i : ℕ) : b.setBuilder i (b.builders i) = b := by
  rw [Sequences.setBuilder, update_eq_self]

/-- The state in which a builder has a new buffer. -/
def install (s : StringBuilders) (i : ℕ) (is8Bit : Bool) (characters : List UInt16) :
    StringBuilders :=
  (s.addImpl ⟨is8Bit, characters⟩).setBuilder i
    { s.builders i with
      string := none
      buffer := some s.implCount
      is8Bit := is8Bit
      bufferCharacters := some s.implCount }

theorem install_builder (s : StringBuilders) (i : ℕ) (is8Bit : Bool) (characters : List UInt16) :
    (s.install i is8Bit characters).builders i =
      { s.builders i with
        string := none
        buffer := some s.implCount
        is8Bit := is8Bit
        bufferCharacters := some s.implCount } := update_self ..

theorem install_impl (s : StringBuilders) (i : ℕ) (is8Bit : Bool) (characters : List UInt16) :
    (s.install i is8Bit characters).impls s.implCount = ⟨is8Bit, characters⟩ :=
  update_self ..

theorem Represents.install (h : s.Represents b) (hi : i < s.builderCount) (hfrees : Frees s t i)
    {is8Bit : Bool} {characters : List UInt16} (hlt : characters.length < 2 ^ 32)
    (hle : (s.builders i).length ≤ characters.length)
    (htake : characters.take (s.builders i).length = b.builders i) :
    (t.install i is8Bit characters).Represents b := by
  have hbld := h.builder i
  have hold : ∀ impl, impl < s.implCount →
      (t.install i is8Bit characters).impls impl = t.impls impl := by
    intro impl himpl
    apply update_of_ne
    rw [hfrees.implCount_eq]
    omega
  have hinstalled := t.install_builder i is8Bit characters
  have hnew := t.install_impl i is8Bit characters
  rw [hfrees.builders_eq, hfrees.implCount_eq] at hinstalled
  rw [hfrees.implCount_eq] at hnew
  rw [← setBuilder_self b i]
  refine h.update hi ?_ hfrees.strings_eq hfrees.builderCount_eq ?_ ?_ ?_ ?_ ?_ ?_ ?_ ?_ ?_
  · intro j hj
    rw [show (t.install i is8Bit characters).builders j = t.builders j from
      update_of_ne hj .., hfrees.builders_eq]
  · show s.implCount ≤ t.implCount + 1
    rw [hfrees.implCount_eq]
    omega
  · rw [hold 0 h.implCount_pos, hfrees.empty_eq]
  · intro impl
    by_cases himpl : impl = s.implCount
    · rw [himpl, hnew]
      exact hlt
    · rw [show (t.install i is8Bit characters).impls impl = t.impls impl from
        update_of_ne (by rw [hfrees.implCount_eq]; exact himpl) ..]
      exact hfrees.length_lt impl
  · intro string hs
    apply Keeps.of_impls_eq
    rw [hold _ (h.valid_of_heldElsewhere hs).impl_lt, hfrees.string_eq string hs]
  · intro j impl hj hb
    rw [hold _ ((h.builder j).buffer_lt impl hb), hfrees.buffer_eq j impl hj hb]
  · rw [hinstalled]
    exact
      { length_eq := hbld.length_eq
        length_lt := hbld.length_lt
        valid_string := nofun
        contents_string := nofun
        string_is8Bit := nofun
        empty_is8Bit := nofun
        buffer_lt := by
          rintro impl ⟨⟩
          show s.implCount < t.implCount + 1
          rw [hfrees.implCount_eq]
          omega
        buffer_is8Bit := by
          rintro impl ⟨⟩
          rw [hnew]
        length_le := by
          rintro impl ⟨⟩
          rw [hnew]
          exact hle
        take_buffer := by
          rintro impl ⟨⟩
          rw [hnew]
          exact htake
        bufferCharacters_eq := fun _ hb => hb
        length_eq_zero := nofun }
  · rw [hinstalled]
    rintro j impl hj ⟨⟩ hb
    exact absurd ((h.builder j).buffer_lt _ hb) (Nat.lt_irrefl _)
  · rw [hinstalled]
    rintro impl ⟨⟩ string (hs | hs) himpl
    · have hvalid := (h.valid_of_heldElsewhere hs).impl_lt
      omega
    · cases hs
  · rw [hinstalled]
    rintro string ⟨⟩

theorem contents_overwrite {characters data : List UInt16} {offset length position : ℕ}
    (hend : offset + length ≤ position) (hle : position ≤ characters.length) :
    ((overwrite characters position data).drop offset).take length =
      (characters.drop offset).take length := by
  have hsplit : characters = characters.take position ++ characters.drop position :=
    (take_append_drop position characters).symm
  have hlen : (characters.take position).length = position := length_take_of_le hle
  have hoffset : offset ≤ (characters.take position).length := by omega
  have htaken : length ≤ ((characters.take position).drop offset).length := by
    rw [length_drop]
    omega
  rw [overwrite, append_assoc, drop_append_of_le_length hoffset, take_append_of_le_length htaken]
  conv_rhs => rw [hsplit]
  rw [drop_append_of_le_length hoffset, take_append_of_le_length htaken]

theorem Represents.write_end (h : s.Represents b) (hi : i < s.builderCount) {impl : ℕ}
    (hbuf : (s.builders i).buffer = some impl) (hstr : (s.builders i).string = none)
    {data : List UInt16}
    (hroom : (s.builders i).length + data.length ≤ (s.impls impl).characters.length) :
    ((s.setImpl impl ⟨(s.builders i).is8Bit,
        overwrite (s.impls impl).characters (s.builders i).length data⟩).setBuilder i
      { s.builders i with length := (s.builders i).length + data.length }).Represents
      (b.setBuilder i (b.builders i ++ data)) := by
  have hbld := h.builder i
  have hlen := h.length_lt impl
  have htake := hbld.take_buffer impl hbuf
  have hnone : ∀ string, (s.builders i).string ≠ some string := fun string hs =>
    Option.some_ne_none string (hs.symm.trans hstr)
  have hsize := length_overwrite hroom
  have hle : (s.builders i).length ≤ (s.impls impl).characters.length := by omega
  generalize ht : (s.setImpl impl ⟨(s.builders i).is8Bit,
    overwrite (s.impls impl).characters (s.builders i).length data⟩).setBuilder i
      { s.builders i with length := (s.builders i).length + data.length } = t
  have himpl : t.impls impl = ⟨(s.builders i).is8Bit,
      overwrite (s.impls impl).characters (s.builders i).length data⟩ := by
    rw [← ht]
    exact update_self ..
  have hother : ∀ k, k ≠ impl → t.impls k = s.impls k := by
    intro k hk
    rw [← ht]
    exact update_of_ne hk ..
  have hself : t.builders i =
      { s.builders i with length := (s.builders i).length + data.length } := by
    rw [← ht]
    exact update_self ..
  have hbuilders : ∀ j, j ≠ i → t.builders j = s.builders j := by
    intro j hj
    rw [← ht]
    exact update_of_ne hj ..
  have hcount : t.implCount = s.implCount := by rw [← ht]; rfl
  refine h.update hi hbuilders (by rw [← ht]; rfl) (by rw [← ht]; rfl) (Nat.le_of_eq hcount.symm)
    ?_ ?_ ?_ ?_ ?_ ?_ ?_ ?_
  · by_cases hzero : impl = 0
    · -- nothing is written to the empty impl
      subst hzero
      have hempty := h.empty_eq
      rw [hempty] at hroom
      have hdata : data = [] := eq_nil_of_length_eq_zero (by
        rw [length_nil] at hroom
        omega)
      rw [himpl, ← hbld.buffer_is8Bit 0 hbuf, hdata, hempty, overwrite]
      simp
    · exact hother 0 (Ne.symm hzero)
  · intro k
    by_cases hk : k = impl
    · rw [hk, himpl, hsize]
      exact hlen
    · rw [hother k hk]
      exact h.length_lt k
  · intro string hs
    by_cases hk : string.impl = impl
    · -- what is shown ends before the length
      have hend := h.shown i impl hbuf string hs.held hk
      exact
        { is8Bit_eq := by rw [hk, himpl, hbld.buffer_is8Bit impl hbuf]
          contents_eq := by
            rw [contents, contents, hk, himpl]
            exact contents_overwrite hend hle
          length_eq := by rw [hk, himpl, hsize] }
    · exact Keeps.of_impls_eq (hother _ hk)
  · intro j k hj hb
    apply hother
    rintro rfl
    exact hj (h.buffer_unique j i k hb hbuf)
  · rw [hself]
    exact
      { length_eq := by rw [length_append, hbld.length_eq]
        length_lt := by
          show (s.builders i).length + data.length < 2 ^ 32
          omega
        valid_string := fun string hs => absurd hs (hnone string)
        contents_string := fun string hs => absurd hs (hnone string)
        string_is8Bit := fun string hs => absurd hs (hnone string)
        empty_is8Bit := fun string hs => absurd hs (hnone string)
        buffer_lt := fun k hk => by
          rw [hcount]
          exact hbld.buffer_lt k hk
        buffer_is8Bit := fun k hk => by
          obtain rfl := Option.some.inj (hbuf.symm.trans hk)
          rw [himpl]
        length_le := fun k hk => by
          obtain rfl := Option.some.inj (hbuf.symm.trans hk)
          rw [himpl, hsize]
          exact hroom
        take_buffer := fun k hk => by
          obtain rfl := Option.some.inj (hbuf.symm.trans hk)
          rw [himpl]
          have htotal : ((s.impls impl).characters.take (s.builders i).length ++ data).length =
              (s.builders i).length + data.length := by
            rw [length_append, length_take_of_le hle]
          rw [overwrite, ← htotal, take_left, htake]
        bufferCharacters_eq := hbld.bufferCharacters_eq
        length_eq_zero := fun heq => absurd (hbuf.symm.trans heq) (Option.some_ne_none impl) }
  · rw [hself]
    intro j k hj hb hb'
    exact hj (h.buffer_unique j i k hb' hb)
  · rw [hself]
    rintro k hk string (hs | hs) himpl
    · have hend := h.shown i k hk string hs.held himpl
      exact Nat.le_trans hend (Nat.le_add_right _ _)
    · exact absurd hs (hnone string)
  · rw [hself]
    exact fun string hs => absurd hs (hnone string)

end StringBuilders

end WebKit.WTF
