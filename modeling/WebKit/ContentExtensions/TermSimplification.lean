import WebKit.ContentExtensions.TermLanguage
import WebKit.ContentExtensions.URLFilterParser

/-!
# What the simplification of terms keeps

Which URLs the simplified terms match. `.*` can replace the terms like it, and the last terms
that need no character can go. Without a trailing `.*$` more can match: the terms before may need
the end of the URL themselves, and a `[^\0]` is taken for `$`.
-/

namespace WebKit.ContentExtensions

open Automata Computability Term Language

variable {term : Term} {terms : List Term} {l : Language ℕ} {url : List ℕ}

/-- A prefix of the URL and the end character is in the language. -/
def MatchesURL (l : Language ℕ) (url : List ℕ) : Prop := MatchesPrefix l (url ++ [0])

/-- What may come before a pattern. -/
def leadingLanguage (hasBeginningOfLineAssertion : Bool) : Language ℕ :=
  if hasBeginningOfLineAssertion then 1 else anyString

/-- The pattern of the terms, after any characters when there is no `^`. -/
def patternLanguage (hasBeginningOfLineAssertion : Bool) (terms : List Term) : Language ℕ :=
  leadingLanguage hasBeginningOfLineAssertion * languageOfTerms terms

def Term.isInverted : Term → Bool
  | .characterSet _ set => set.inverted
  | .group _ _ => false

theorem nil_mem_anyString : [] ∈ anyString := nil_mem_wordsOver

theorem nil_mem_leadingLanguage (hasBeginningOfLineAssertion : Bool) :
    [] ∈ leadingLanguage hasBeginningOfLineAssertion := by
  cases hasBeginningOfLineAssertion with
  | true => exact nil_mem_one
  | false => exact nil_mem_anyString

theorem anyString_mul_self : anyString * anyString = anyString := wordsOver_mul_self

@[simp] theorem canonicalDotStar_isKnownToMatchAnyString :
    canonicalDotStar.isKnownToMatchAnyString = true := by
  decide +kernel

theorem canonicalDotStar_language : canonicalDotStar.language = anyString :=
  language_of_isKnownToMatchAnyString _ canonicalDotStar_isKnownToMatchAnyString

theorem language_replaceDotStars (isAfterDotStar : Bool) (terms : List Term) :
    leadingLanguage (!isAfterDotStar) * languageOfTerms (replaceDotStars isAfterDotStar terms) =
      leadingLanguage (!isAfterDotStar) * languageOfTerms terms := by
  induction terms generalizing isAfterDotStar with
  | nil => rfl
  | cons term terms ih =>
    unfold replaceDotStars
    by_cases hterm : term.isKnownToMatchAnyString = true
    · have hlanguage := language_of_isKnownToMatchAnyString term hterm
      have htrue : anyString * languageOfTerms (replaceDotStars true terms) =
          anyString * languageOfTerms terms := ih true
      cases isAfterDotStar with
      | true =>
        rw [if_pos (by simpa using hterm), ih true, languageOfTerms_cons, hlanguage]
        change anyString * _ = anyString * (anyString * _)
        rw [← mul_assoc, anyString_mul_self]
      | false =>
        rw [if_neg (by simp), if_pos hterm, languageOfTerms_cons, languageOfTerms_cons,
          canonicalDotStar_language, hlanguage, htrue]
    · have hfalse : languageOfTerms (replaceDotStars false terms) = languageOfTerms terms := by
        simpa [leadingLanguage] using ih false
      rw [if_neg (by simp [hterm]), if_neg hterm, languageOfTerms_cons, languageOfTerms_cons,
        hfalse]

theorem language_addDotStar (hasBeginningOfLineAssertion : Bool) (terms : List Term) :
    languageOfTerms (addDotStar hasBeginningOfLineAssertion terms) =
      patternLanguage hasBeginningOfLineAssertion terms := by
  unfold addDotStar patternLanguage
  cases hasBeginningOfLineAssertion with
  | true => simp [leadingLanguage]
  | false =>
    split
    · rw [languageOfTerms_cons, canonicalDotStar_language]
      rfl
    · rename_i h
      simp only [Bool.not_false, Bool.true_and, Bool.not_eq_true', Bool.not_eq_false] at h
      obtain ⟨first, hfirst, hknown⟩ := (Option.any_eq_true ..).mp h
      obtain ⟨rest, rfl⟩ := List.head?_eq_some_iff.mp hfirst
      rw [languageOfTerms_cons, language_of_isKnownToMatchAnyString first hknown]
      change _ = anyString * (anyString * _)
      rw [← mul_assoc, anyString_mul_self]

/-- The terms with `.*` in its canonical places. -/
def withDotStars (hasBeginningOfLineAssertion : Bool) (terms : List Term) : List Term :=
  addDotStar hasBeginningOfLineAssertion (replaceDotStars false terms)

theorem language_withDotStars (hasBeginningOfLineAssertion : Bool) (terms : List Term) :
    languageOfTerms (withDotStars hasBeginningOfLineAssertion terms) =
      patternLanguage hasBeginningOfLineAssertion terms := by
  have hfalse : languageOfTerms (replaceDotStars false terms) = languageOfTerms terms := by
    simpa [leadingLanguage] using language_replaceDotStars false terms
  rw [withDotStars, language_addDotStar, patternLanguage, patternLanguage, hfalse]

theorem any_withDotStars (hasBeginningOfLineAssertion : Bool) (terms : List Term) :
    (withDotStars hasBeginningOfLineAssertion terms).any matchesAtLeastOneCharacter =
      terms.any matchesAtLeastOneCharacter := by
  rw [withDotStars, any_addDotStar, any_replaceDotStars]

theorem simplifySunkTerms_of_ne_nil (hasBeginningOfLineAssertion : Bool) (h : terms ≠ []) :
    simplifySunkTerms hasBeginningOfLineAssertion terms = removeIrrelevantTerms
        (removeDotStarEndOfLine (withDotStars hasBeginningOfLineAssertion terms)) := by
  cases terms with
  | nil => exact absurd rfl h
  | cons term terms => rfl

theorem canonicalDotStar_hasNoEndOfLine : HasNoEndOfLine canonicalDotStar := by
  change CharacterSet.isEndOfLineAssertion { characters := Finset.range 128 } = false
  simp [CharacterSet.isEndOfLineAssertion]

theorem haveNoEndOfLine_replaceDotStars {isAfterDotStar : Bool} (h : HaveNoEndOfLine terms) :
    HaveNoEndOfLine (replaceDotStars isAfterDotStar terms) := by
  induction terms generalizing isAfterDotStar with
  | nil => exact h
  | cons term terms ih =>
    unfold replaceDotStars
    split
    · exact ih h.2
    · split
      · exact ⟨canonicalDotStar_hasNoEndOfLine, ih h.2⟩
      · exact ⟨h.1, ih h.2⟩

theorem haveNoEndOfLine_withDotStars {hasBeginningOfLineAssertion : Bool}
    (h : HaveNoEndOfLine terms) :
    HaveNoEndOfLine (withDotStars hasBeginningOfLineAssertion terms) := by
  unfold withDotStars addDotStar
  split
  · exact ⟨canonicalDotStar_hasNoEndOfLine, haveNoEndOfLine_replaceDotStars h⟩
  · exact haveNoEndOfLine_replaceDotStars h

theorem isEndOfLineAssertion_of_hasNoEndOfLine (h : HasNoEndOfLine term) :
    term.isEndOfLineAssertion = false := by
  cases term with
  | characterSet q set => exact h
  | group q terms => rfl

section

variable (h : HaveNoEndOfLine terms)
include h

theorem getLast?_any_of_haveNoEndOfLine :
    terms.getLast?.any isEndOfLineAssertion = false := by
  cases hlast : terms.getLast? with
  | none => rfl
  | some last =>
    have hmem := List.mem_of_getLast? hlast
    exact isEndOfLineAssertion_of_hasNoEndOfLine (haveNoEndOfLine_iff.mp h last hmem)

theorem matchesPrefix_rdropWhile (word : List ℕ) : MatchesPrefix
        (languageOfTerms (terms.rdropWhile fun term => !term.matchesAtLeastOneCharacter)) word ↔
      MatchesPrefix (languageOfTerms terms) word := by
  induction terms using List.reverseRecOn with
  | nil => rfl
  | append_singleton terms term ih =>
    rw [haveNoEndOfLine_iff, List.forall_mem_append, ← haveNoEndOfLine_iff,
      List.forall_mem_singleton] at h
    cases hterm : term.matchesAtLeastOneCharacter with
    | true => rw [List.rdropWhile_concat_neg _ _ _ (by simp [hterm])]
    | false =>
      rw [List.rdropWhile_concat_pos _ _ _ (by simp [hterm]), ih h.1, languageOfTerms_append]
      refine (MatchesPrefix.mul_iff ?_).symm
      rw [languageOfTerms_cons, languageOfTerms_nil, mul_one]
      exact nil_mem_language term h.2 hterm

theorem matchesPrefix_removeIrrelevantTerms (word : List ℕ) :
    MatchesPrefix (languageOfTerms (removeIrrelevantTerms terms)) word ↔
      MatchesPrefix (languageOfTerms terms) word := by
  rw [removeIrrelevantTerms, if_neg (by simp [getLast?_any_of_haveNoEndOfLine h])]
  exact matchesPrefix_rdropWhile h word

theorem nil_mem_of_none_consumes
    (hconsumes : terms.any matchesAtLeastOneCharacter = false) : [] ∈ languageOfTerms terms :=
  nil_mem_languageOfTerms terms h (by rw [anyMatchesAtLeastOneCharacter_eq_any, hconsumes])

end

/-- The language of a term that is taken for the end of line. -/
structure IsEndOfLine (term : Term) (l : Language ℕ) : Prop where
  language_eq : term.language = term.quantifier.language l
  mem_iff : ∀ word, word ∈ l ↔
    ∃ character, (if term.isInverted then character ∈ urlCharacters else character = 0) ∧
      word = [character]

theorem matches_of_characters_eq {set : CharacterSet} (h : set.characters = {0}) (c : ℕ) :
    set.Matches c ↔ if set.inverted then c ∈ urlCharacters else c = 0 := by
  have huniv : set.isUniversalTransition = false := by
    simp [CharacterSet.isUniversalTransition, h]
  have hsize : set.size = 128 := by
    simp [CharacterSet.size, h]
  have hkey {bit : ℕ} (hbit : bit < 128) : characterKey bit = bit := by
    unfold characterKey
    rw [Nat.mod_eq_of_lt (by omega), if_pos hbit]
  rw [CharacterSet.Matches, huniv, if_neg (by decide)]
  unfold transitionBits
  rw [hsize, h]
  cases set.inverted with
  | true =>
    constructor
    · rintro ⟨bit, hbit, rfl⟩
      obtain ⟨hrange, -⟩ := List.mem_filter.mp hbit
      have hlt : 1 ≤ bit ∧ bit < 1 + 127 := List.mem_range'_1.mp hrange
      rw [hkey (by omega)]
      exact ⟨hlt.1, by omega⟩
    · rintro ⟨hpos, hlt⟩
      refine ⟨c, List.mem_filter.mpr ⟨List.mem_range'_1.mpr ⟨hpos, by omega⟩, ?_⟩, hkey hlt⟩
      simp
      omega
  | false =>
    constructor
    · rintro ⟨bit, hbit, rfl⟩
      obtain ⟨-, hzero⟩ := List.mem_filter.mp hbit
      have hbit : bit = 0 := by simpa using hzero
      rw [hbit]
      rfl
    · rintro rfl
      exact ⟨0, List.mem_filter.mpr ⟨List.mem_range.mpr (by omega), by simp⟩, rfl⟩

theorem exists_isEndOfLine (h : term.isEndOfLineAssertion = true) : ∃ l, IsEndOfLine term l := by
  cases term with
  | group q terms => cases h
  | characterSet q set =>
    simp only [isEndOfLineAssertion, CharacterSet.isEndOfLineAssertion, Bool.and_eq_true,
      decide_eq_true_eq] at h
    obtain ⟨character, hchar⟩ := Finset.card_eq_one.mp h.1
    have hzero : character = 0 := by simpa [hchar, eq_comm] using h.2
    subst hzero
    refine ⟨set.language, by rw [language]; rfl, fun word => ?_⟩
    simp only [CharacterSet.language, matches_of_characters_eq hchar]
    rfl

theorem IsEndOfLine.mem_cases (h : IsEndOfLine term l) (hq : ¬ term.quantifier.IsOptional)
    {word : List ℕ} (hword : word ∈ term.language) :
    ∃ character rest, word = character :: rest ∧
      if term.isInverted then character ∈ urlCharacters else character = 0 := by
  have hsplit (rest : List ℕ) {first : List ℕ} (hfirst : first ∈ l) :
      ∃ character rest', first ++ rest = character :: rest' ∧
        if term.isInverted then character ∈ urlCharacters else character = 0 := by
    obtain ⟨character, hchar, rfl⟩ := (h.mem_iff first).mp hfirst
    exact ⟨character, rest, rfl, hchar⟩
  rw [h.language_eq] at hword
  cases hquant : term.quantifier with
  | zeroOrOne => exact absurd (.inl hquant) hq
  | zeroOrMore => exact absurd (.inr hquant) hq
  | one =>
    rw [hquant] at hword
    simpa using hsplit [] hword
  | oneOrMore =>
    rw [hquant] at hword
    obtain ⟨first, hfirst, rest, -, rfl⟩ := mem_mul.mp hword
    exact hsplit _ hfirst

theorem IsEndOfLine.end_mem (h : IsEndOfLine term l) (hinv : term.isInverted = false) :
    [0] ∈ term.language := by
  rw [h.language_eq]
  exact le_quantified _ l ((h.mem_iff _).mpr ⟨0, by simp [hinv], rfl⟩)

theorem zero_notMem_of_anyString (h : url ∈ anyString) : 0 ∉ url :=
  fun hzero => lt_irrefl 0 (h 0 hzero).1

theorem anyString_of_isPrefix {word : List ℕ} (h : url ∈ anyString) (hpre : word <+: url) :
    word ∈ anyString :=
  fun character hmem => h character (hpre.subset hmem)

theorem matchesURL_mul_endOfLine_iff (h : term.isEndOfLineAssertion = true)
    (hq : ¬ term.quantifier.IsOptional) (hinv : term.isInverted = false)
    (hurl : url ∈ anyString) (m : Language ℕ) :
    MatchesURL (m * term.language) url ↔ url ∈ m := by
  obtain ⟨l, hl⟩ := exists_isEndOfLine h
  constructor
  · rintro ⟨word, hword, hpre⟩
    obtain ⟨front, hfront, back, hback, rfl⟩ := mem_mul.mp hword
    obtain ⟨character, rest, rfl, hchar⟩ := hl.mem_cases hq hback
    have hzero : character = 0 := by simpa [hinv] using hchar
    subst hzero
    rwa [← eq_of_append_cons_prefix (zero_notMem_of_anyString hurl) hpre]
  · intro hmem
    exact ⟨url ++ [0], append_mem_mul hmem (hl.end_mem hinv), List.prefix_rfl⟩

theorem mem_mul_anyString_iff (hurl : url ∈ anyString) (m : Language ℕ) :
    url ∈ m * anyString ↔ MatchesPrefix m url := by
  constructor
  · intro hmem
    obtain ⟨front, hfront, back, -, rfl⟩ := mem_mul.mp hmem
    exact ⟨front, hfront, List.prefix_append front back⟩
  · rintro ⟨front, hfront, back, rfl⟩
    exact append_mem_mul hfront (append_mem_wordsOver.mp hurl).2

theorem exists_of_matchesURL_inverted (h : term.isEndOfLineAssertion = true)
    (hq : ¬ term.quantifier.IsOptional) (hinv : term.isInverted = true) {m : Language ℕ}
    (hmatches : MatchesURL (m * term.language) url) :
    ∃ front ∈ m, ∃ character, front ++ [character] <+: url := by
  obtain ⟨l, hl⟩ := exists_isEndOfLine h
  obtain ⟨word, hword, hpre⟩ := hmatches
  obtain ⟨front, hfront, back, hback, rfl⟩ := mem_mul.mp hword
  obtain ⟨character, rest, rfl, hchar⟩ := hl.mem_cases hq hback
  have hpositive : character ∈ urlCharacters := by simpa [hinv] using hchar
  refine ⟨front, hfront, character, ?_⟩
  have hone : front ++ [character] <+: url ++ [0] :=
    ((List.prefix_append_right_inj front).mpr ⟨rest, rfl⟩).trans hpre
  refine (List.prefix_concat_iff.mp hone).resolve_left fun heq => ?_
  have hlast : character = 0 := (List.append_inj_right' heq rfl |> List.cons.inj).1
  exact absurd hpositive.1 (by omega)

theorem not_matchesURL_inverted_nil (h : term.isEndOfLineAssertion = true)
    (hq : ¬ term.quantifier.IsOptional) (hinv : term.isInverted = true) (m : Language ℕ) :
    ¬ MatchesURL (m * term.language) [] := by
  intro hmatches
  obtain ⟨front, -, character, hpre⟩ := exists_of_matchesURL_inverted h hq hinv hmatches
  simp at hpre

/-- Without the `.*[^\0]` behind it, a pattern that matches a URL matches a shorter one than the
whole does. -/
theorem matchesURL_of_inverted_iff (h : term.isEndOfLineAssertion = true)
    (hq : ¬ term.quantifier.IsOptional) (hinv : term.isInverted = true) (m : Language ℕ) :
    (∀ url ∈ anyString, MatchesURL m url ↔ MatchesURL (m * anyString * term.language) url) ↔
      ∀ url ∈ anyString, ¬ MatchesURL m url := by
  constructor
  · intro hiff url
    induction hlen : url.length using Nat.strongRecOn generalizing url with
    | ind length ih =>
      intro hurl hmatches
      obtain ⟨word, hword, character, hpre⟩ :=
        exists_of_matchesURL_inverted h hq hinv ((hiff url hurl).mp hmatches)
      obtain ⟨front, hfront, back, -, rfl⟩ := mem_mul.mp hword
      have hshorter := hpre.length_le
      simp only [List.length_append, List.length_singleton] at hshorter
      have hword : front ++ back ∈ anyString :=
        anyString_of_isPrefix hurl ((List.prefix_append _ _).trans hpre)
      refine ih (front ++ back).length (by simp; omega) (front ++ back) rfl hword ?_
      exact ⟨front, hfront, (List.prefix_append front back).trans (List.prefix_append _ _)⟩
  · intro hnone url hurl
    refine iff_of_false (hnone url hurl) fun hmatches => hnone url hurl ?_
    exact hmatches.of_mul.of_mul

end WebKit.ContentExtensions
