import WebKit.Automata.Words
import WebKit.ContentExtensions.Term

/-!
# What a `Term` matches

The words of characters that a term matches, read off the transitions of its graph. A URL has
characters from 1 to 127, and the end character 0 follows it.
-/

namespace WebKit.ContentExtensions

open Automata Computability Language

/-- The characters of a URL. -/
def urlCharacters : Set ℕ := {character | 0 < character ∧ character < 128}

/-- What `.*` matches. -/
def anyString : Language ℕ := wordsOver urlCharacters

/-- The characters on which the graph of a set has a transition. -/
def CharacterSet.Matches (set : CharacterSet) (character : ℕ) : Prop :=
  if set.isUniversalTransition then character ∈ urlCharacters
  else ∃ bit ∈ Term.transitionBits set, Term.characterKey bit = character

def CharacterSet.language (set : CharacterSet) : Language ℕ :=
  {word | ∃ character, set.Matches character ∧ word = [character]}

def AtomQuantifier.language (l : Language ℕ) : AtomQuantifier → Language ℕ
  | .one => l
  | .zeroOrOne => 1 + l
  | .zeroOrMore => l∗
  | .oneOrMore => l * l∗

/-- The quantifiers `?` and `*`. -/
def AtomQuantifier.IsOptional (q : AtomQuantifier) : Prop := q = .zeroOrOne ∨ q = .zeroOrMore

namespace Term

mutual

def language : Term → Language ℕ
  | .characterSet q set => q.language set.language
  | .group q terms => q.language (languageOfTerms terms)

def languageOfTerms : List Term → Language ℕ
  | [] => 1
  | term :: terms => language term * languageOfTerms terms

end

mutual

/-- No set in the term is an end of line. -/
def HasNoEndOfLine : Term → Prop
  | .characterSet _ set => set.isEndOfLineAssertion = false
  | .group _ terms => HaveNoEndOfLine terms

def HaveNoEndOfLine : List Term → Prop
  | [] => True
  | term :: terms => HasNoEndOfLine term ∧ HaveNoEndOfLine terms

end

variable {term : Term} {terms terms' : List Term}

@[simp] theorem haveNoEndOfLine_iff :
    HaveNoEndOfLine terms ↔ ∀ term ∈ terms, HasNoEndOfLine term := by
  induction terms with
  | nil => simp [HaveNoEndOfLine]
  | cons term terms ih => simp [HaveNoEndOfLine, ih]

@[simp] theorem languageOfTerms_nil : languageOfTerms [] = 1 := by
  rw [languageOfTerms]

@[simp] theorem languageOfTerms_cons :
    languageOfTerms (term :: terms) = term.language * languageOfTerms terms := by
  rw [languageOfTerms]

@[simp] theorem languageOfTerms_append :
    languageOfTerms (terms ++ terms') = languageOfTerms terms * languageOfTerms terms' := by
  induction terms with
  | nil => simp
  | cons term terms ih => simp [ih, mul_assoc]

theorem nil_mem_quantified_of_optional {q : AtomQuantifier} (hq : q.IsOptional) (l : Language ℕ) :
    [] ∈ q.language l := by
  rcases hq with rfl | rfl
  · exact (mem_add ..).mpr (.inl nil_mem_one)
  · exact nil_mem_kstar l

theorem le_quantified (q : AtomQuantifier) (l : Language ℕ) : l ≤ q.language l := by
  cases q with
  | one => exact le_rfl
  | zeroOrOne => exact fun word h => (mem_add ..).mpr (.inr h)
  | zeroOrMore => exact le_kstar
  | oneOrMore => exact le_mul_kstar

variable {l : Language ℕ}

theorem nil_mem_quantified (q : AtomQuantifier) (h : [] ∈ l) : [] ∈ q.language l :=
  le_quantified q l h

theorem quantified_le_wordsOver (q : AtomQuantifier) {letters : Set ℕ}
    (h : l ≤ wordsOver letters) : q.language l ≤ wordsOver letters := by
  cases q with
  | one => exact h
  | zeroOrOne =>
    intro word hword
    rcases (mem_add ..).mp hword with hword | hword
    · exact one_le_wordsOver hword
    · exact h hword
  | zeroOrMore => exact kstar_le_wordsOver h
  | oneOrMore => exact mul_le_wordsOver h (kstar_le_wordsOver h)

theorem quantified_anyString (q : AtomQuantifier) : q.language anyString = anyString :=
  le_antisymm (quantified_le_wordsOver q le_rfl) (le_quantified q anyString)

/-- The language of a term like `.`, whatever its quantifiers. -/
structure IsUniversal (l : Language ℕ) : Prop where
  single : ∀ character ∈ urlCharacters, [character] ∈ l
  le : l ≤ anyString

theorem IsUniversal.quantified (h : IsUniversal l) (q : AtomQuantifier) :
    IsUniversal (q.language l) where
  single character hchar := le_quantified q l (h.single character hchar)
  le := quantified_le_wordsOver q h.le

/-- With a quantifier that matches the empty word and words of any length, it is `.*`. -/
theorem IsUniversal.eq_anyString (h : IsUniversal l) (hnil : [] ∈ l)
    (hlong : ∀ word ∈ anyString, word ≠ [] → word ∈ l) : l = anyString := by
  refine le_antisymm h.le fun word hword => ?_
  by_cases hne : word = []
  · rwa [hne]
  · exact hlong word hword hne

theorem isUniversal_of_set {set : CharacterSet} (h : set.isUniversalTransition = true) :
    IsUniversal set.language where
  single character hchar :=
    ⟨character, by simpa only [CharacterSet.Matches, h, if_true] using hchar, rfl⟩
  le := by
    rintro word ⟨character, hmatches, rfl⟩ c hc
    rw [List.mem_singleton.mp hc]
    simpa only [CharacterSet.Matches, h, if_true] using hmatches

theorem isUniversal_of_isUniversalTransition :
    (term : Term) → term.isUniversalTransition = true → IsUniversal term.language
  | .characterSet q set, h => by
    exact (isUniversal_of_set h).quantified q
  | .group q [], h => by cases h
  | .group q (_ :: _ :: _), h => by cases h
  | .group q [term], h => by
    rw [language, languageOfTerms_cons, languageOfTerms_nil, mul_one]
    exact (isUniversal_of_isUniversalTransition term h).quantified q

theorem exists_language_eq : (term : Term) → ∃ l, term.language = term.quantifier.language l ∧
      (term.isUniversalTransition = true → IsUniversal l)
  | .characterSet q set => ⟨set.language, by rw [language]; rfl, isUniversal_of_set⟩
  | .group q [] => ⟨1, by rw [language, languageOfTerms_nil]; rfl, nofun⟩
  | .group q (first :: second :: rest) =>
    ⟨languageOfTerms (first :: second :: rest), by rw [language]; rfl, nofun⟩
  | .group q [term] => by
    refine ⟨term.language, ?_, fun h => ?_⟩
    · rw [language, languageOfTerms_cons, languageOfTerms_nil, mul_one]
      rfl
    · exact isUniversal_of_isUniversalTransition term h

theorem kstar_of_isUniversal (h : IsUniversal l) : l∗ = anyString :=
  kstar_eq_wordsOver h.single h.le

/-- The terms that the simplification takes for `.*` match any string, and nothing else. -/
theorem language_of_isKnownToMatchAnyString :
    (term : Term) → term.isKnownToMatchAnyString = true → term.language = anyString
  | .characterSet q set, h => by
    simp only [isKnownToMatchAnyString, Bool.and_eq_true, decide_eq_true_eq] at h
    rw [language, h.2]
    exact kstar_of_isUniversal (isUniversal_of_set h.1)
  | .group q [], h => by cases h
  | .group q (_ :: _ :: _), h => by cases h
  | .group q [first], h => by
    simp only [isKnownToMatchAnyString, Bool.or_eq_true, Bool.and_eq_true, decide_eq_true_eq] at h
    rw [language, languageOfTerms_cons, languageOfTerms_nil, mul_one]
    rcases h with h | ⟨huniv, h⟩
    · rw [language_of_isKnownToMatchAnyString first h]
      exact quantified_anyString q
    have hfirst := isUniversal_of_isUniversalTransition first huniv
    obtain ⟨l, hl, hluniversal⟩ := exists_language_eq first
    have hletters := (hluniversal huniv).single
    rcases h with (rfl | ⟨rfl, hq⟩) | ⟨rfl, hq⟩
    · exact kstar_of_isUniversal hfirst
    · -- `(.+)?`
      refine (hfirst.quantified .zeroOrOne).eq_anyString
        (nil_mem_quantified_of_optional (.inl rfl) _) fun word hword hne => ?_
      refine le_quantified .zeroOrOne _ ?_
      rw [hl, hq]
      exact nonempty_mem_mul_kstar hletters hword hne
    · -- `(.?)+`
      refine (hfirst.quantified .oneOrMore).eq_anyString (nil_mem_quantified .oneOrMore ?_)
        fun word hword hne => nonempty_mem_mul_kstar hfirst.single hword hne
      rw [hl, hq]
      exact nil_mem_quantified_of_optional (.inl rfl) l

mutual

theorem nil_mem_language : (term : Term) → HasNoEndOfLine term →
    term.matchesAtLeastOneCharacter = false → [] ∈ term.language
  | .characterSet q set, hend, h => by
    rw [HasNoEndOfLine] at hend
    rw [language]
    have hq : q = .zeroOrOne ∨ q = .zeroOrMore := by
      by_contra hq
      simp [matchesAtLeastOneCharacter, hend, hq] at h
    exact nil_mem_quantified_of_optional hq _
  | .group q terms, hend, h => by
    rw [HasNoEndOfLine] at hend
    rw [language]
    by_cases hq : q.IsOptional
    · exact nil_mem_quantified_of_optional hq _
    · have hq' : ¬ (q = .zeroOrOne ∨ q = .zeroOrMore) := hq
      refine nil_mem_quantified q (nil_mem_languageOfTerms terms hend ?_)
      simpa [matchesAtLeastOneCharacter, hq'] using h

theorem nil_mem_languageOfTerms : (terms : List Term) → HaveNoEndOfLine terms →
    anyMatchesAtLeastOneCharacter terms = false → [] ∈ languageOfTerms terms
  | [], _, _ => by simp
  | term :: terms, hend, h => by
    rw [HaveNoEndOfLine] at hend
    simp only [anyMatchesAtLeastOneCharacter, Bool.or_eq_false_iff] at h
    rw [languageOfTerms_cons]
    exact append_mem_mul (nil_mem_language term hend.1 h.1)
      (nil_mem_languageOfTerms terms hend.2 h.2)

end

theorem anyMatchesAtLeastOneCharacter_eq_any :
    anyMatchesAtLeastOneCharacter terms = terms.any matchesAtLeastOneCharacter := by
  induction terms with
  | nil => rfl
  | cons term terms ih => rw [anyMatchesAtLeastOneCharacter, ih, List.any_cons]

end Term

end WebKit.ContentExtensions
