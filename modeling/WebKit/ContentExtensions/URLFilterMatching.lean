import WebKit.ContentExtensions.TermSimplification

/-!
# Matches of finalized patterns

When the terms that `finalize` hands to the combined filters match what the pattern matches, and
when a pattern that it reports to match everything does. Both are about the end of line.
-/

namespace WebKit.ContentExtensions

open Automata Computability Term List PatternParser MatchesPrefix Language

variable {term last dotStar : Term} {terms init : List Term} {hasBeginningOfLineAssertion : Bool}

/-! ## The last term -/

theorem isKnownToMatchAnyString_of_endOfLine (h : last.isEndOfLineAssertion = true) :
    last.isKnownToMatchAnyString = false := by
  cases last with
  | group q terms => cases h
  | characterSet q set =>
    simp only [isEndOfLineAssertion, CharacterSet.isEndOfLineAssertion, Bool.and_eq_true,
      decide_eq_true_eq] at h
    simp [isKnownToMatchAnyString, CharacterSet.isUniversalTransition, h.1]

theorem replaceDotStars_concat {isAfterDotStar : Bool} (h : last.isKnownToMatchAnyString = false) :
    replaceDotStars isAfterDotStar (init ++ [last]) =
      replaceDotStars isAfterDotStar init ++ [last] := by
  induction init generalizing isAfterDotStar with
  | nil => simp [replaceDotStars, h]
  | cons term terms ih =>
    rw [cons_append]
    unfold replaceDotStars
    split
    · exact ih
    · split <;> rw [ih, cons_append]

theorem withDotStars_concat (h : last.isKnownToMatchAnyString = false) :
    withDotStars hasBeginningOfLineAssertion (init ++ [last]) =
      withDotStars hasBeginningOfLineAssertion init ++ [last] := by
  have hhead : ∀ terms : List Term, (terms ++ [last]).head?.any isKnownToMatchAnyString =
      terms.head?.any isKnownToMatchAnyString := by
    intro terms
    cases terms with
    | nil => simp [h]
    | cons term terms => rfl
  unfold withDotStars addDotStar
  rw [replaceDotStars_concat h, hhead]
  split <;> rfl

theorem getLast?_cons_any {p : Term → Bool} :
    (term :: terms).getLast?.any p = (if terms = [] then p term else terms.getLast?.any p) := by
  cases terms with
  | nil => rfl
  | cons next terms => simp [getLast?_cons]

theorem replaceDotStars_concat_dotStar (h : dotStar.isKnownToMatchAnyString = true)
    (isAfterDotStar : Bool) (terms : List Term) :
    (replaceDotStars isAfterDotStar (terms ++ [dotStar])).getLast?.any
        isKnownToMatchAnyString = true ∨
      isAfterDotStar = true ∧ replaceDotStars isAfterDotStar (terms ++ [dotStar]) = [] := by
  induction terms generalizing isAfterDotStar with
  | nil =>
    cases isAfterDotStar with
    | true => exact .inr ⟨rfl, by simp [replaceDotStars, h]⟩
    | false => exact .inl (by simp [replaceDotStars, h])
  | cons term terms ih =>
    rw [cons_append]
    unfold replaceDotStars
    split
    · exact ih isAfterDotStar
    · left
      split
      · rw [getLast?_cons_any]
        split
        · exact canonicalDotStar_isKnownToMatchAnyString
        · rename_i hne
          exact (ih true).resolve_right fun hnil => hne hnil.2
      · have hlast := (ih false).resolve_right nofun
        rw [getLast?_cons_any, if_neg]
        · exact hlast
        · intro hnil
          rw [hnil] at hlast
          cases hlast

theorem withDotStars_concat_dotStar (h : dotStar.isKnownToMatchAnyString = true) :
    (withDotStars hasBeginningOfLineAssertion (init ++ [dotStar])).getLast?.any
      isKnownToMatchAnyString = true := by
  have hlast := (replaceDotStars_concat_dotStar h false init).resolve_right nofun
  unfold withDotStars addDotStar
  split
  · rw [getLast?_cons_any, if_neg]
    · exact hlast
    · intro hnil
      rw [hnil] at hlast
      cases hlast
  · exact hlast

theorem patternLanguage_append (front back : List Term) :
    patternLanguage hasBeginningOfLineAssertion (front ++ back) =
      patternLanguage hasBeginningOfLineAssertion front * languageOfTerms back := by
  rw [patternLanguage, patternLanguage, languageOfTerms_append, mul_assoc]

theorem matchesPrefix_simplify_of_removed (hend : HaveNoEndOfLine (init ++ [dotStar]))
    (hknown : dotStar.isKnownToMatchAnyString = true) (hlast : last.isEndOfLineAssertion = true)
    (hconsumes : init.any matchesAtLeastOneCharacter = true) (word : List ℕ) :
    MatchesPrefix (languageOfTerms
          (simplifySunkTerms hasBeginningOfLineAssertion (init ++ [dotStar] ++ [last]))) word ↔
      MatchesPrefix (patternLanguage hasBeginningOfLineAssertion init) word := by
  obtain ⟨front, hfront⟩ : ∃ front,
      front = withDotStars hasBeginningOfLineAssertion (init ++ [dotStar]) := ⟨_, rfl⟩
  have hfull : withDotStars hasBeginningOfLineAssertion (init ++ [dotStar] ++ [last]) =
      front ++ [last] := by
    rw [hfront, withDotStars_concat (isKnownToMatchAnyString_of_endOfLine hlast)]
  have hfrontLast : front.getLast?.any isKnownToMatchAnyString = true := by
    rw [hfront]
    exact withDotStars_concat_dotStar hknown
  obtain ⟨dotStar', hget, hknown'⟩ := (Option.any_eq_true ..).mp hfrontLast
  have hsplit := dropLast_append_getLast? dotStar' hget
  have hne : front.dropLast ≠ [] := by
    -- a term that consumes a character comes before the `.*`
    intro hnil
    have hany : front.any matchesAtLeastOneCharacter = true := by
      rw [hfront, any_withDotStars, any_append, hconsumes, Bool.true_or]
    rw [← hsplit, hnil] at hany
    simp [matchesAtLeastOneCharacter_of_anyString _ hknown'] at hany
  have hrem : removeDotStarEndOfLine (front ++ [last]) = front.dropLast := by
    unfold removeDotStarEndOfLine
    rw [if_pos, ← hsplit]
    · simp
    · have hlen := length_pos_of_ne_nil hne
      rw [length_dropLast] at hlen
      simp [hlast, hfrontLast]
      omega
  have hfrontEnd : HaveNoEndOfLine front.dropLast := by
    have hall : HaveNoEndOfLine front := by
      rw [hfront]
      exact haveNoEndOfLine_withDotStars hend
    rw [haveNoEndOfLine_iff] at hall ⊢
    exact fun term hterm => hall term (dropLast_subset _ hterm)
  have hlanguage : languageOfTerms front.dropLast * anyString =
      patternLanguage hasBeginningOfLineAssertion init * anyString := by
    calc languageOfTerms front.dropLast * anyString
        = languageOfTerms (front.dropLast ++ [dotStar']) := by
          simp [language_of_isKnownToMatchAnyString _ hknown']
      _ = patternLanguage hasBeginningOfLineAssertion (init ++ [dotStar]) := by
          rw [hsplit, hfront, language_withDotStars]
      _ = patternLanguage hasBeginningOfLineAssertion init * anyString := by
          rw [patternLanguage_append]
          simp [language_of_isKnownToMatchAnyString _ hknown]
  rw [simplifySunkTerms_of_ne_nil _ (by simp), hfull, hrem,
    matchesPrefix_removeIrrelevantTerms hfrontEnd, ← mul_iff nil_mem_anyString,
    hlanguage, mul_iff nil_mem_anyString]

theorem simplify_of_not_removed (hlast : last.isEndOfLineAssertion = true)
    (hconsumes : init.any matchesAtLeastOneCharacter = true)
    (hnot : init.getLast?.any isKnownToMatchAnyString = false) :
    simplifySunkTerms hasBeginningOfLineAssertion (init ++ [last]) =
      withDotStars hasBeginningOfLineAssertion (init ++ [last]) := by
  cases init using reverseRecOn with
  | nil => cases hconsumes
  | append_singleton front term =>
    have hterm : term.isKnownToMatchAnyString = false := by simpa using hnot
    have hfull : withDotStars hasBeginningOfLineAssertion (front ++ [term] ++ [last]) =
        withDotStars hasBeginningOfLineAssertion front ++ [term] ++ [last] := by
      rw [withDotStars_concat (isKnownToMatchAnyString_of_endOfLine hlast),
        withDotStars_concat hterm]
    rw [simplifySunkTerms_of_ne_nil _ (by simp), hfull]
    unfold removeDotStarEndOfLine
    rw [if_neg (by simp [hterm])]
    unfold removeIrrelevantTerms
    rw [if_pos (by simp [hlast])]

/-- Only the last term can be an end of line. -/
def EndsWithEndOfLine (terms : List Term) : Prop :=
  ∀ init last, terms = init ++ [last] → HaveNoEndOfLine init ∧
    (HasNoEndOfLine last ∨ last.isEndOfLineAssertion = true)

/-- A required end of line behind terms that need no character: it has to be a `$`, and after
`^` the terms have to match every URL. -/
def EverythingMatches (hasBeginningOfLineAssertion : Bool) (terms : List Term) : Prop :=
  ∀ init last, terms = init ++ [last] → last.isEndOfLineAssertion = true →
    ¬ last.quantifier.IsOptional →
    last.isInverted = false ∧
      (hasBeginningOfLineAssertion = true → ∀ url ∈ anyString, url ∈ languageOfTerms init)

/-- A required end of line that is removed, with the `.*` in front of it: the terms before match
no URL by the end character alone, and none at all in front of a `[^\0]`. -/
def EndOfLineIsIrrelevant (hasBeginningOfLineAssertion : Bool) (terms : List Term) : Prop :=
  ∀ init dotStar last, terms = init ++ [dotStar] ++ [last] →
    dotStar.isKnownToMatchAnyString = true → last.isEndOfLineAssertion = true →
    ¬ last.quantifier.IsOptional → ∀ url ∈ anyString,
      MatchesURL (patternLanguage hasBeginningOfLineAssertion init) url →
      last.isInverted = false ∧ MatchesPrefix (patternLanguage hasBeginningOfLineAssertion init) url

theorem any_eq_any_init (hlast : last.isEndOfLineAssertion = true) :
    (init ++ [last]).any matchesAtLeastOneCharacter = init.any matchesAtLeastOneCharacter := by
  simp [matchesAtLeastOneCharacter_of_endOfLine hlast]

theorem matchesURL_of_nil_mem {l : Language ℕ} (h : [] ∈ l) (url : List ℕ) : MatchesURL l url :=
  of_nil_mem h _

theorem nil_mem_optional (h : last.quantifier.IsOptional) : [] ∈ last.language := by
  obtain ⟨l, hl, -⟩ := exists_language_eq last
  rw [hl]
  exact nil_mem_quantified_of_optional h l

theorem matches_everything_iff (hend : EndsWithEndOfLine terms)
    (hconsumes : terms.any matchesAtLeastOneCharacter = false) :
    (∀ url ∈ anyString, MatchesURL (patternLanguage hasBeginningOfLineAssertion terms) url) ↔
      EverythingMatches hasBeginningOfLineAssertion terms := by
  have hlead := nil_mem_leadingLanguage hasBeginningOfLineAssertion
  cases terms using reverseRecOn with
  | nil =>
    refine iff_of_true (fun url _ => matchesURL_of_nil_mem ?_ url) fun init last heq => ?_
    · exact append_mem_mul hlead nil_mem_one
    · simp at heq
  | append_singleton init last =>
    obtain ⟨hinit, hlast⟩ := hend init last rfl
    have hinitConsumes : init.any matchesAtLeastOneCharacter = false := by
      rw [any_append, Bool.or_eq_false_iff] at hconsumes
      exact hconsumes.1
    have hinitNil : [] ∈ patternLanguage hasBeginningOfLineAssertion init :=
      append_mem_mul hlead (nil_mem_of_none_consumes hinit hinitConsumes)
    have hpat : patternLanguage hasBeginningOfLineAssertion (init ++ [last]) =
        patternLanguage hasBeginningOfLineAssertion init * last.language := by
      simp [patternLanguage_append]
    have hnil (hlast : [] ∈ last.language) : ∀ url ∈ anyString,
          MatchesURL (patternLanguage hasBeginningOfLineAssertion (init ++ [last])) url := by
      intro url _
      rw [hpat]
      exact matchesURL_of_nil_mem (append_mem_mul hinitNil hlast) url
    by_cases hrequired : last.isEndOfLineAssertion = true ∧ ¬ last.quantifier.IsOptional
    · obtain ⟨hend, hq⟩ := hrequired
      have hcond : EverythingMatches hasBeginningOfLineAssertion (init ++ [last]) ↔
          last.isInverted = false ∧
            (hasBeginningOfLineAssertion = true → ∀ url ∈ anyString, url ∈ languageOfTerms init) :=
        ⟨fun h => h init last rfl hend hq, fun h init' last' heq _ _ => by
          obtain ⟨rfl, rfl⟩ := append_singleton_inj.mp heq
          exact h⟩
      rw [hcond]
      cases hinv : last.isInverted with
      | true =>
        refine iff_of_false (fun h => ?_) (fun h => absurd h.1 (by decide))
        have hmatches := h [] nil_mem_anyString
        rw [hpat] at hmatches
        exact not_matchesURL_inverted_nil hend hq hinv _ hmatches
      | false =>
        have hwhole : ∀ url ∈ anyString,
            (MatchesURL (patternLanguage hasBeginningOfLineAssertion (init ++ [last])) url ↔
              url ∈ patternLanguage hasBeginningOfLineAssertion init) := by
          intro url hurl
          rw [hpat]
          exact matchesURL_mul_endOfLine_iff hend hq hinv hurl _
        rw [forall₂_congr hwhole]
        cases hasBeginningOfLineAssertion with
        | true => simp [patternLanguage, leadingLanguage]
        | false =>
          refine iff_of_true (fun url hurl => ?_) ⟨rfl, (absurd · Bool.false_ne_true)⟩
          have hinitNil' := nil_mem_of_none_consumes hinit hinitConsumes
          have hmem : url ++ [] ∈ patternLanguage false init := append_mem_mul hurl hinitNil'
          rwa [append_nil] at hmem
    · have hlastNil : [] ∈ last.language := by
        by_cases hq : last.quantifier.IsOptional
        · exact nil_mem_optional hq
        · have hno := hlast.resolve_right fun hend => hrequired ⟨hend, hq⟩
          have hlastConsumes : last.matchesAtLeastOneCharacter = false := by
            simpa [hinitConsumes] using hconsumes
          exact nil_mem_language last hno hlastConsumes
      refine iff_of_true (hnil hlastNil) fun init' last' heq hend hq => ?_
      obtain ⟨rfl, rfl⟩ := append_singleton_inj.mp heq
      exact absurd ⟨hend, hq⟩ hrequired

theorem simplified_matches_iff (hend : EndsWithEndOfLine terms)
    (hconsumes : terms.any matchesAtLeastOneCharacter = true) :
    (∀ url ∈ anyString,
        MatchesURL (languageOfTerms (simplifySunkTerms hasBeginningOfLineAssertion terms)) url ↔
          MatchesURL (patternLanguage hasBeginningOfLineAssertion terms) url) ↔
      EndOfLineIsIrrelevant hasBeginningOfLineAssertion terms := by
  cases terms using reverseRecOn with
  | nil => cases hconsumes
  | append_singleton init last =>
    obtain ⟨hinit, hlast⟩ := hend init last rfl
    rcases hlast with hno | hlast
    · -- nothing but terms that can match empty is removed
      have hall : HaveNoEndOfLine (withDotStars hasBeginningOfLineAssertion (init ++ [last])) := by
        refine haveNoEndOfLine_withDotStars ?_
        rw [haveNoEndOfLine_iff, forall_mem_append, ← haveNoEndOfLine_iff]
        exact ⟨hinit, forall_mem_singleton.mpr hno⟩
      refine iff_of_true (fun url _ => ?_) fun init' dotStar last' heq _ hend => ?_
      · rw [simplifySunkTerms_of_ne_nil _ (by simp), removeDotStarEndOfLine,
          if_neg (by simp [getLast?_any_of_haveNoEndOfLine hall]), MatchesURL,
          matchesPrefix_removeIrrelevantTerms hall, language_withDotStars]
        rfl
      · obtain ⟨rfl, rfl⟩ := append_singleton_inj.mp heq
        rw [isEndOfLineAssertion_of_hasNoEndOfLine hno] at hend
        cases hend
    rw [any_eq_any_init hlast] at hconsumes
    cases hknown : init.getLast?.any isKnownToMatchAnyString with
    | false =>
      refine iff_of_true (fun url _ => ?_) fun init' dotStar last' heq hdotStar => ?_
      · rw [simplify_of_not_removed hlast hconsumes hknown, language_withDotStars]
      · obtain ⟨rfl, rfl⟩ := append_singleton_inj.mp heq
        simp [hdotStar] at hknown
    | true =>
      obtain ⟨dotStar, hget, hdotStar⟩ := (Option.any_eq_true ..).mp hknown
      obtain ⟨front, rfl⟩ : ∃ front, init = front ++ [dotStar] :=
        ⟨init.dropLast, (dropLast_append_getLast? dotStar hget).symm⟩
      have hfrontConsumes : front.any matchesAtLeastOneCharacter = true := by
        simpa [matchesAtLeastOneCharacter_of_anyString _ hdotStar] using hconsumes
      have hpat : patternLanguage hasBeginningOfLineAssertion (front ++ [dotStar] ++ [last]) =
            patternLanguage hasBeginningOfLineAssertion front * anyString * last.language := by
        simp [patternLanguage_append, language_of_isKnownToMatchAnyString _ hdotStar, mul_assoc]
      have hsimplified (url : List ℕ) :
          MatchesURL (languageOfTerms (simplifySunkTerms hasBeginningOfLineAssertion
              (front ++ [dotStar] ++ [last]))) url ↔
            MatchesURL (patternLanguage hasBeginningOfLineAssertion front) url :=
        matchesPrefix_simplify_of_removed hinit hdotStar hlast hfrontConsumes _
      simp only [hsimplified, hpat]
      have hcond :
          EndOfLineIsIrrelevant hasBeginningOfLineAssertion (front ++ [dotStar] ++ [last]) ↔
            (¬ last.quantifier.IsOptional → ∀ url ∈ anyString,
              MatchesURL (patternLanguage hasBeginningOfLineAssertion front) url →
              last.isInverted = false ∧
                MatchesPrefix (patternLanguage hasBeginningOfLineAssertion front) url) := by
        refine ⟨fun h => h front dotStar last rfl hdotStar hlast,
          fun h front' dotStar' last' heq _ _ => ?_⟩
        obtain ⟨hfront, rfl⟩ := append_singleton_inj.mp heq
        obtain ⟨rfl, rfl⟩ := append_singleton_inj.mp hfront
        exact h
      rw [hcond]
      by_cases hq : last.quantifier.IsOptional
      · refine iff_of_true (fun url _ => ?_) fun h => absurd hq h
        rw [mul_assoc]
        exact (mul_iff (append_mem_mul nil_mem_anyString (nil_mem_optional hq))).symm
      · cases hinv : last.isInverted with
        | true =>
          rw [matchesURL_of_inverted_iff hlast hq hinv]
          simp [hq]
        | false =>
          have hwhole : ∀ url ∈ anyString,
              (MatchesURL (patternLanguage hasBeginningOfLineAssertion front * anyString *
                  last.language) url ↔
                MatchesPrefix (patternLanguage hasBeginningOfLineAssertion front) url) := by
            intro url hurl
            rw [matchesURL_mul_endOfLine_iff hlast hq hinv hurl, mem_mul_anyString_iff hurl]
          constructor
          · intro h _ url hurl hmatches
            exact ⟨rfl, (hwhole url hurl).mp ((h url hurl).mp hmatches)⟩
          · intro h url hurl
            rw [hwhole url hurl]
            refine ⟨fun hmatches => (h hq url hurl hmatches).2, ?_⟩
            rintro ⟨word, hword, hpre⟩
            exact ⟨word, hword, hpre.trans (prefix_append url [0])⟩

namespace PatternParser

variable {parser : PatternParser}

/-- A term on its own is a set or has no end of line in it. -/
def IsFloatable (term : Term) : Prop := HasNoEndOfLine term ∨ ∃ q set, term = .characterSet q set

/-- Where the end of line can be. -/
structure EndOfLineInvariant (parser : PatternParser) : Prop where
  sunkTerms : EndsWithEndOfLine parser.sunkTerms
  unprocessed : parser.hasProcessedEndOfLineAssertion = false →
    HaveNoEndOfLine parser.sunkTerms ∧ HaveNoEndOfLine parser.openGroups ∧
      ∀ term, parser.floatingTerm = some term → IsFloatable term

/-- The invariant, up to the first error. Only `finalize` reports a match for everything. -/
structure IsWellFormed (parser : PatternParser) : Prop where
  parseStatus : parser.parseStatus ≠ .matchesEverything
  endOfLine : parser.parseStatus = .ok → parser.EndOfLineInvariant

section

variable (h : IsFloatable term)
include h

theorem IsFloatable.cases :
    HasNoEndOfLine term ∨ term.isEndOfLineAssertion = true := by
  rcases h with h | ⟨q, set, rfl⟩
  · exact .inl h
  · cases hset : set.isEndOfLineAssertion with
    | true => exact .inr hset
    | false => exact .inl (by rwa [HasNoEndOfLine])

theorem IsFloatable.hasNoEndOfLine
    (hend : term.isEndOfLineAssertion = false) : HasNoEndOfLine term :=
  h.cases.resolve_right (by simp [hend])

theorem IsFloatable.quantify (q : AtomQuantifier) :
    IsFloatable (term.quantify q) := by
  cases term with
  | characterSet q' set => exact .inr ⟨q, set, rfl⟩
  | group q' terms =>
    rcases h with h | ⟨_, _, h⟩
    · exact .inl (by rwa [Term.quantify, HasNoEndOfLine] at *)
    · cases h

theorem IsFloatable.addCharacter (character : UChar)
    (isCaseSensitive : Bool) : IsFloatable (term.addCharacter character isCaseSensitive) := by
  cases term with
  | characterSet q set => exact .inr ⟨q, _, rfl⟩
  | group q terms => exact h

end

theorem hasNoEndOfLine_extendGroupSubpattern {group : Term} (hgroup : HasNoEndOfLine group)
    (hterm : HasNoEndOfLine term) : HasNoEndOfLine (group.extendGroupSubpattern term) := by
  cases group with
  | characterSet q set => exact hgroup
  | group q terms =>
    rw [HasNoEndOfLine, haveNoEndOfLine_iff] at hgroup
    rw [extendGroupSubpattern, HasNoEndOfLine, haveNoEndOfLine_iff, forall_mem_append]
    exact ⟨hgroup, forall_mem_singleton.mpr hterm⟩

/-! ## What a step keeps -/

/-- A step that fails. -/
def IsFailure (reason : ParseStatus) : Prop := reason ≠ .ok ∧ reason ≠ .matchesEverything

variable {reason : ParseStatus}

theorem parseStatus_fail_ne (h : reason ≠ .ok) : (parser.fail reason).parseStatus ≠ .ok := by
  unfold fail hasError
  split
  · rename_i herror
    simpa using herror
  · exact h

section

variable (h : parser.IsWellFormed)
include h

theorem IsWellFormed.parseStatus_fail
    (hreason : IsFailure reason) : (parser.fail reason).parseStatus ≠ .matchesEverything := by
  unfold fail
  split
  · exact h.parseStatus
  · exact hreason.2

theorem IsWellFormed.fail (hreason : IsFailure reason) : (parser.fail reason).IsWellFormed where
  parseStatus := h.parseStatus_fail hreason
  endOfLine hok := absurd hok (parseStatus_fail_ne hreason.1)

theorem IsWellFormed.unlessError
    {handler : PatternParser → PatternParser} (hhandler : (handler parser).IsWellFormed) :
    (parser.unlessError handler).IsWellFormed := by
  unfold PatternParser.unlessError
  split
  · exact h
  · exact hhandler

theorem IsWellFormed.sink : parser.sinkFloatingTermIfNecessary.IsWellFormed := by
  unfold sinkFloatingTermIfNecessary
  split
  · exact h
  rename_i floatingTerm hfloat
  split
  · exact ⟨h.parseStatus_fail ⟨by decide, by decide⟩,
      fun hok => absurd hok (parseStatus_fail_ne (by decide))⟩
  rename_i hproc
  have hunproc : parser.hasProcessedEndOfLineAssertion = false := by simpa using hproc
  simp only
  split
  · rename_i last rest hgroups
    refine ⟨h.parseStatus, fun hok => ?_⟩
    obtain ⟨hsunkTerms, hbef⟩ := h.endOfLine hok
    obtain ⟨hsunk, hopen, hfloatable⟩ := hbef hunproc
    rw [hgroups, HaveNoEndOfLine] at hopen
    refine ⟨hsunkTerms, fun hend => ⟨hsunk, ?_, nofun⟩⟩
    have hterm := (hfloatable floatingTerm hfloat).hasNoEndOfLine hend
    exact ⟨hasNoEndOfLine_extendGroupSubpattern hopen.1 hterm, hopen.2⟩
  · refine ⟨h.parseStatus, fun hok => ?_⟩
    obtain ⟨-, hbef⟩ := h.endOfLine hok
    obtain ⟨hsunk, hopen, hfloatable⟩ := hbef hunproc
    have hfloat := hfloatable floatingTerm hfloat
    refine ⟨fun init last heq => ?_, fun hend => ⟨?_, hopen, nofun⟩⟩
    · obtain ⟨rfl, rfl⟩ := append_singleton_inj.mp heq
      exact ⟨hsunk, hfloat.cases⟩
    · have hterm := hfloat.hasNoEndOfLine hend
      rw [haveNoEndOfLine_iff, forall_mem_append, ← haveNoEndOfLine_iff]
      exact ⟨hsunk, forall_mem_singleton.mpr hterm⟩

theorem IsWellFormed.float (hterm : IsFloatable term) : (parser.float term).IsWellFormed := by
  refine ⟨h.sink.parseStatus, fun hok => ?_⟩
  obtain ⟨hsunkTerms, hbef⟩ := h.sink.endOfLine hok
  refine ⟨hsunkTerms, fun hend => ?_⟩
  obtain ⟨hsunk, hopen, -⟩ := hbef hend
  refine ⟨hsunk, hopen, fun term' hfloat => ?_⟩
  cases hfloat
  exact hterm

theorem IsWellFormed.mapFloatingTerm {f : Term → Term}
    (hf : ∀ term, IsFloatable term → IsFloatable (f term)) :
    { parser with floatingTerm := parser.floatingTerm.map f : PatternParser }.IsWellFormed := by
  refine ⟨h.parseStatus, fun hok => ?_⟩
  obtain ⟨hsunkTerms, hbef⟩ := h.endOfLine hok
  refine ⟨hsunkTerms, fun hend => ?_⟩
  obtain ⟨hsunk, hopen, hfloatable⟩ := hbef hend
  refine ⟨hsunk, hopen, fun term' hfloat => ?_⟩
  obtain ⟨term, hterm, rfl⟩ := Option.map_eq_some_iff.mp hfloat
  exact hf term (hfloatable term hterm)

theorem IsWellFormed.quantify (q : AtomQuantifier) : (parser.quantify q).IsWellFormed :=
  h.mapFloatingTerm fun _ hterm => hterm.quantify q

theorem IsWellFormed.addCharacter (character : UChar) :
    (parser.addCharacter character).IsWellFormed :=
  h.mapFloatingTerm fun _ hterm => hterm.addCharacter character _

theorem IsWellFormed.atomParenthesesSubpatternBegin :
    parser.atomParenthesesSubpatternBegin.IsWellFormed := by
  refine h.unlessError ⟨h.sink.parseStatus, fun hok => ?_⟩
  obtain ⟨hsunkTerms, hbef⟩ := h.sink.endOfLine hok
  refine ⟨hsunkTerms, fun hend => ?_⟩
  obtain ⟨hsunk, hopen, hfloat⟩ := hbef hend
  refine ⟨hsunk, ⟨?_, hopen⟩, hfloat⟩
  trivial

theorem IsWellFormed.atomParenthesesEnd : parser.atomParenthesesEnd.IsWellFormed := by
  refine h.unlessError ?_
  simp only
  split
  · exact h.sink
  · rename_i last rest hgroups
    refine ⟨h.sink.parseStatus, fun hok => ?_⟩
    obtain ⟨hsunkTerms, hbef⟩ := h.sink.endOfLine hok
    refine ⟨hsunkTerms, fun hend => ?_⟩
    obtain ⟨hsunk, hopen, -⟩ := hbef hend
    rw [hgroups, HaveNoEndOfLine] at hopen
    refine ⟨hsunk, hopen.2, fun term hfloat => ?_⟩
    cases hfloat
    exact .inl hopen.1

theorem IsWellFormed.handle (event : ParserEvent) : (parser.handle event).IsWellFormed := by
  have hset (q : AtomQuantifier) (set : CharacterSet) : IsFloatable (.characterSet q set) :=
    .inr ⟨q, set, rfl⟩
  cases event with
  | atomPatternCharacter character =>
    rw [PatternParser.handle, PatternParser.atomPatternCharacter]
    refine h.unlessError ?_
    split
    · exact h.fail ⟨by decide, by decide⟩
    · exact h.float (hset ..)
  | atomBuiltInCharacterClass classID inverted =>
    rw [PatternParser.handle, PatternParser.atomBuiltInCharacterClass]
    refine h.unlessError ?_
    split
    · exact h.float (hset ..)
    · exact h.sink.fail ⟨by decide, by decide⟩
  | quantifyAtom minimum maximum =>
    rw [PatternParser.handle, PatternParser.quantifyAtom]
    refine h.unlessError ?_
    split
    · exact h.quantify _
    split
    · exact h.quantify _
    split
    · exact h.quantify _
    · exact h.fail ⟨by decide, by decide⟩
  | assertionBOL =>
    rw [PatternParser.handle, PatternParser.assertionBOL]
    refine h.unlessError ?_
    split
    · exact h.fail ⟨by decide, by decide⟩
    · exact ⟨h.parseStatus, fun hok => ⟨(h.endOfLine hok).sunkTerms, (h.endOfLine hok).unprocessed⟩⟩
  | assertionEOL =>
    rw [PatternParser.handle, PatternParser.assertionEOL]
    exact h.unlessError (h.float (hset ..))
  | atomCharacterClassBegin inverted =>
    rw [PatternParser.handle, PatternParser.atomCharacterClassBegin]
    exact h.unlessError (h.float (hset ..))
  | atomCharacterClassAtom character =>
    rw [PatternParser.handle, PatternParser.atomCharacterClassAtom]
    exact h.unlessError (h.addCharacter character)
  | atomCharacterClassRange a b =>
    rw [PatternParser.handle, PatternParser.atomCharacterClassRange]
    refine h.unlessError ?_
    generalize range' a.toNat (b.toNat + 1 - a.toNat) = characters
    induction characters generalizing parser with
    | nil => exact h
    | cons character characters ih => exact ih (h.addCharacter _)
  | atomParenthesesSubpatternBegin => exact h.atomParenthesesSubpatternBegin
  | atomParenthesesEnd => exact h.atomParenthesesEnd
  | atomCharacterClassEnd => exact h
  | atomBackReference | assertionWordBoundary | atomCharacterClassBuiltIn
  | atomParentheticalAssertionBegin | disjunction => exact h.fail ⟨by decide, by decide⟩

end

theorem isWellFormed_parse (patternIsCaseSensitive : Bool) (events : List ParserEvent) :
    (parse patternIsCaseSensitive events).IsWellFormed := by
  have hrun : ∀ parser : PatternParser, parser.IsWellFormed →
      (events.foldl handle parser).IsWellFormed := by
    induction events with
    | nil => exact fun parser h => h
    | cons event events ih => exact fun parser h => ih _ (h.handle event)
  refine hrun _ ⟨nofun, fun _ => ⟨fun init last heq => ?_, fun _ => ⟨trivial, trivial, nofun⟩⟩⟩
  simp at heq

/-- The pattern before it is simplified. -/
def unsimplified (parser : PatternParser) : Language ℕ :=
  patternLanguage parser.hasBeginningOfLineAssertion parser.sinkFloatingTermIfNecessary.sunkTerms

/-- When the simplified terms, or the report of a match for everything, are right. -/
def EndOfLineIsSafe (parser : PatternParser) : Prop :=
  let terms := parser.sinkFloatingTermIfNecessary.sunkTerms
  parser.sinkFloatingTermIfNecessary.parseStatus = .ok →
    if terms.any matchesAtLeastOneCharacter then
      EndOfLineIsIrrelevant parser.hasBeginningOfLineAssertion terms
    else EverythingMatches parser.hasBeginningOfLineAssertion terms

theorem hasBeginningOfLineAssertion_sink :
    parser.sinkFloatingTermIfNecessary.hasBeginningOfLineAssertion =
      parser.hasBeginningOfLineAssertion := by
  unfold sinkFloatingTermIfNecessary fail
  split
  · rfl
  split
  · split <;> rfl
  · simp only
    split <;> rfl

theorem parseStatus_sink_ok (h : parser.sinkFloatingTermIfNecessary.parseStatus = .ok) :
    parser.parseStatus = .ok := by
  by_contra hne
  revert h
  unfold sinkFloatingTermIfNecessary
  split
  · exact hne
  split
  · exact parseStatus_fail_ne (by decide)
  · simp only
    split <;> exact hne

theorem finalize_of_ok (h : parser.sinkFloatingTermIfNecessary.parseStatus = .ok)
    (patternId : ℕ) (filters : PrefixTreeVertex) :
    (parser.finalize patternId filters).1.parseStatus =
        (if parser.sinkFloatingTermIfNecessary.sunkTerms.any matchesAtLeastOneCharacter then .ok
          else .matchesEverything) ∧
      (parser.finalize patternId filters).1.sunkTerms =
        simplifySunkTerms parser.hasBeginningOfLineAssertion
          parser.sinkFloatingTermIfNecessary.sunkTerms := by
  unfold finalize
  rw [if_neg (by simp [hasError, parseStatus_sink_ok h])]
  simp only [simplified, any_simplifySunkTerms, hasBeginningOfLineAssertion_sink]
  cases parser.sinkFloatingTermIfNecessary.sunkTerms.any matchesAtLeastOneCharacter <;>
    simp [fail, hasError, h]

theorem finalize_of_error (hwell : parser.IsWellFormed)
    (h : parser.sinkFloatingTermIfNecessary.parseStatus ≠ .ok) (patternId : ℕ)
    (filters : PrefixTreeVertex) :
    (parser.finalize patternId filters).1.parseStatus ≠ .ok ∧
      (parser.finalize patternId filters).1.parseStatus ≠ .matchesEverything := by
  unfold finalize
  split
  · rename_i herror
    exact ⟨by simpa [hasError] using herror, hwell.parseStatus⟩
  · have hstatus := hwell.sink.parseStatus
    simp only [simplified, any_simplifySunkTerms]
    cases parser.sinkFloatingTermIfNecessary.sunkTerms.any matchesAtLeastOneCharacter <;>
      simp [fail, hasError, h, hstatus]

/-- The terms that are handed to the combined filters match what the pattern matches, and a
pattern that is reported to match everything does, exactly if its end of line is safe. -/
theorem finalize_keeps_matches_iff (patternIsCaseSensitive : Bool) (events : List ParserEvent)
    (patternId : ℕ) (combinedURLFilters : PrefixTreeVertex) :
    ((((parse patternIsCaseSensitive events).finalize patternId combinedURLFilters).1.parseStatus =
          .ok →
        ∀ url ∈ anyString,
          MatchesURL (languageOfTerms ((parse patternIsCaseSensitive events).finalize patternId
              combinedURLFilters).1.sunkTerms) url ↔
            MatchesURL (parse patternIsCaseSensitive events).unsimplified url) ∧
      (((parse patternIsCaseSensitive events).finalize patternId combinedURLFilters).1.parseStatus =
          .matchesEverything →
        ∀ url ∈ anyString, MatchesURL (parse patternIsCaseSensitive events).unsimplified url)) ↔
      (parse patternIsCaseSensitive events).EndOfLineIsSafe := by
  obtain ⟨parser, hparser⟩ : ∃ parser, parser = parse patternIsCaseSensitive events := ⟨_, rfl⟩
  have hwell : parser.IsWellFormed := hparser ▸ isWellFormed_parse patternIsCaseSensitive events
  rw [← hparser]
  unfold EndOfLineIsSafe unsimplified
  by_cases hok : parser.sinkFloatingTermIfNecessary.parseStatus = .ok
  · have hend := (hwell.sink.endOfLine hok).sunkTerms
    obtain ⟨hstatus, hsunkTerms⟩ := finalize_of_ok hok patternId combinedURLFilters
    rw [hstatus, hsunkTerms]
    cases hconsumes :
        parser.sinkFloatingTermIfNecessary.sunkTerms.any matchesAtLeastOneCharacter with
    | true =>
      rw [simplified_matches_iff hend hconsumes]
      simp [hok, hconsumes]
    | false =>
      rw [matches_everything_iff hend hconsumes]
      simp [hok, hconsumes]
  · obtain ⟨hne, hne'⟩ := finalize_of_error hwell hok patternId combinedURLFilters
    exact iff_of_true ⟨fun h => absurd h hne, fun h => absurd h hne'⟩ fun h => absurd h hok

/-- `^x*$` is reported to match everything. -/
theorem not_finalize_keeps_matches :
    ¬ ∀ (patternIsCaseSensitive : Bool) (events : List ParserEvent) (patternId : ℕ)
      (combinedURLFilters : PrefixTreeVertex),
      (((parse patternIsCaseSensitive events).finalize patternId
            combinedURLFilters).1.parseStatus = .ok →
          ∀ url ∈ anyString,
            MatchesURL (languageOfTerms ((parse patternIsCaseSensitive events).finalize patternId
                combinedURLFilters).1.sunkTerms) url ↔
              MatchesURL (parse patternIsCaseSensitive events).unsimplified url) ∧
        (((parse patternIsCaseSensitive events).finalize patternId
            combinedURLFilters).1.parseStatus = .matchesEverything →
          ∀ url ∈ anyString,
            MatchesURL (parse patternIsCaseSensitive events).unsimplified url) := by
  intro h
  have hx := (h true [.assertionBOL, .atomPatternCharacter 120,
    .quantifyAtom 0 quantifyInfinite, .assertionEOL] 1 .create).2 (by decide +kernel)
  have hsunkTerms : (parse true [.assertionBOL, .atomPatternCharacter 120,
      .quantifyAtom 0 quantifyInfinite, .assertionEOL]).sinkFloatingTermIfNecessary.sunkTerms =
        [.characterSet .zeroOrMore { characters := {120} }] ++ [endOfLineAssertion] := by
    decide +kernel
  have hurl : [97] ∈ anyString := by simp [anyString, mem_wordsOver, urlCharacters]
  have hrequired : ¬ endOfLineAssertion.quantifier.IsOptional := by
    rintro (h | h) <;> cases h
  have hmatches := hx [97] hurl
  rw [unsimplified, hsunkTerms, patternLanguage_append, languageOfTerms_cons,
    languageOfTerms_nil, mul_one,
    matchesURL_mul_endOfLine_iff (by decide) hrequired (by decide) hurl] at hmatches
  have hset : ({ characters := {120} } : CharacterSet).language ≤ wordsOver {120} := by
    rintro word ⟨character, hcharacter, rfl⟩
    have hbits : transitionBits { characters := {120} } = [120] := by decide +kernel
    rw [CharacterSet.Matches, if_neg (by decide), hbits] at hcharacter
    obtain ⟨bit, hbit, rfl⟩ := hcharacter
    rw [mem_singleton.mp hbit]
    exact fun c hc => mem_singleton.mp hc
  have hpattern : patternLanguage true [.characterSet .zeroOrMore { characters := {120} }] ≤
      wordsOver {120} := by
    refine mul_le_wordsOver one_le_wordsOver ?_
    rw [languageOfTerms_cons, languageOfTerms_nil, mul_one, Term.language]
    exact quantified_le_wordsOver .zeroOrMore hset
  exact absurd (hpattern hmatches 97 (mem_singleton.mpr rfl)) (by simp)

end PatternParser

end WebKit.ContentExtensions
