import WebKit.ContentExtensions.SubsetConstruction
import WebKit.ContentExtensions.PatternGroups
import WebKit.ContentExtensions.URLFilterMatching

/-!
# The limits of the conversion

`populateTransitions` has a slot for each of the 128 characters, and `convert` asserts that no
node of its result gets more than 127 individual transitions. The graphs of an accepted rule
list keep within these limits when no pattern has a set with a key that is not a character,
and the patterns of no group together read, after some word, every character by a set of
their own (`conversionLimits_iff`). The parser makes sure of neither.
-/

namespace WebKit.ContentExtensions

open PrefixTreeVertex Term List

/-- What the loop over the rules reads of one. -/
structure FilterRule where
  urlFilter : String
  urlFilterIsCaseSensitive : Bool := false
  actionLocationAndFlags : ℕ
  ignoresPreviousRules : Bool := false

inductive FilterError
  | jsonInvalidRegex
  | regexMatchesEverythingAfterIgnorePreviousRules

structure FilterState where
  combinedURLFilters : PrefixTreeVertex := .create
  universalActionLocations : List ℕ := []
  ignorePreviousRulesSeen : Bool := false

section Compile

variable (yarrParse : String → List ParserEvent × Option String)

def FilterState.addRule (state : FilterState) (rule : FilterRule) :
    Except FilterError FilterState :=
  let (status, combinedURLFilters) := URLFilterParser.addPattern yarrParse
    state.combinedURLFilters rule.urlFilter rule.urlFilterIsCaseSensitive
    rule.actionLocationAndFlags
  if status = .matchesEverything && state.ignorePreviousRulesSeen then
    throw .regexMatchesEverythingAfterIgnorePreviousRules
  else if status ≠ .ok && status ≠ .matchesEverything then throw .jsonInvalidRegex
  else
    pure {
      combinedURLFilters := combinedURLFilters
      universalActionLocations :=
        if status = .matchesEverything then
          addAction rule.actionLocationAndFlags state.universalActionLocations
        else state.universalActionLocations
      ignorePreviousRulesSeen := state.ignorePreviousRulesSeen || rule.ignoresPreviousRules }

/-- `compileRuleList` up to the conversion: the graphs that `convert` is called with. -/
def compileNFAs (rules : List FilterRule) : Except FilterError (List NFA) := do
  let state ← rules.foldlM (FilterState.addRule yarrParse) {}
  let nfas := state.combinedURLFilters.createNFAs
  pure (if nfas.isEmpty && !state.universalActionLocations.isEmpty then [NFA.create] else nfas)

/-- The simplified terms of the filter of a rule. -/
def FilterRule.terms (rule : FilterRule) : List Term :=
  (PatternParser.parse rule.urlFilterIsCaseSensitive
    (yarrParse rule.urlFilter).1).simplified.sunkTerms

/-- The patterns of the rules with a filter that does not match everything. -/
def patternsOf (rules : List FilterRule) : Set (List Term) :=
  {pattern | ∃ rule ∈ rules, rule.terms yarrParse = pattern ∧
    pattern.any matchesAtLeastOneCharacter}

/-- Each set in the patterns has transitions on characters only, or on any character. -/
def HasCharacterKeys (patterns : Set (List Term)) : Prop :=
  ∀ pattern ∈ patterns, ∀ key ∈ keysOfTerms pattern, key < 128

/-- After every word, there is a character that no pattern of a group reads by a set with
transitions of its own. -/
def LeavesCharacter (patterns : Set (List Term)) : Prop :=
  ∀ pattern ∈ patterns, ∀ w : List Character, ∃ c : Character, ∀ pattern' ∈ patterns,
    SharesPrefixes patterns pattern pattern' → w.map Fin.val ∉ readsOfTerms c pattern'

variable {yarrParse}

theorem leavesCharacter_of_notMem_keys {patterns : Set (List Term)} (c : Character)
    (h : ∀ pattern ∈ patterns, c.val ∉ keysOfTerms pattern) : LeavesCharacter patterns := by
  refine fun _ _ w => ⟨c, fun pattern hpat _ => ?_⟩
  rw [readsOfTerms_eq_zero pattern (h pattern hpat)]
  exact Language.notMem_zero _

end Compile

/-- The keys of the nodes are characters. -/
def NFA.HasCharacterKeys (nfa : NFA) : Prop :=
  ∀ node ∈ nfa.nodes, ∀ key ∈ node.transitions, key < 128 ∨ key = epsilonTransitionCharacter

instance {nfa : NFA} : Decidable nfa.HasCharacterKeys :=
  decidable_of_iff (∀ node ∈ nfa.nodes, ∀ key ∈ node.transitions.keys,
    key < 128 ∨ key = epsilonTransitionCharacter) (by
      simp only [NFA.HasCharacterKeys, AList.mem_keys])

/-- No node of the result gets more individual transitions than `convert` allows. -/
def NFA.HasFewTransitions (nfa : NFA) : Prop :=
  ∀ order n, NFAToDFA.GetsTransitions order nfa n → n ≤ 127

section Accepted

variable {yarrParse : String → List ParserEvent × Option String} {rule : FilterRule}
  {state state' : FilterState} {patterns : Set (List Term)} {actionIds : Set ℕ}
  {filters : PrefixTreeVertex} {rules : List FilterRule} {nfas : List NFA} {nfa : NFA}

namespace PatternParser

variable {parser : PatternParser} {patternId : ℕ}

/-- A pattern that is accepted is added to the filters when it consumes a character. -/
theorem finalize_accepted (hwell : parser.IsWellFormed)
    (h : (parser.finalize patternId filters).1.parseStatus = .ok ∨
      (parser.finalize patternId filters).1.parseStatus = .matchesEverything) :
    (parser.finalize patternId filters).2 =
      if parser.simplified.sunkTerms.any matchesAtLeastOneCharacter then
        filters.addPattern patternId parser.simplified.sunkTerms
      else filters := by
  have hsink : parser.sinkFloatingTermIfNecessary.parseStatus = .ok := by
    by_contra hne
    exact not_or.mpr (finalize_of_error hwell hne patternId filters) h
  unfold finalize
  rw [if_neg (by simp [hasError, parseStatus_sink_ok hsink])]
  dsimp only
  cases parser.simplified.sunkTerms.any matchesAtLeastOneCharacter <;> rfl

end PatternParser

theorem URLFilterParser.addPattern_accepted
    (h : (URLFilterParser.addPattern yarrParse filters rule.urlFilter
        rule.urlFilterIsCaseSensitive rule.actionLocationAndFlags).1 = .ok ∨
      (URLFilterParser.addPattern yarrParse filters rule.urlFilter
        rule.urlFilterIsCaseSensitive rule.actionLocationAndFlags).1 = .matchesEverything) :
    (URLFilterParser.addPattern yarrParse filters rule.urlFilter rule.urlFilterIsCaseSensitive
        rule.actionLocationAndFlags).2 =
      if (rule.terms yarrParse).any matchesAtLeastOneCharacter then
        filters.addPattern rule.actionLocationAndFlags (rule.terms yarrParse)
      else filters := by
  unfold URLFilterParser.addPattern at h ⊢
  split
  · next hascii => simp [hascii] at h
  split
  · next hascii hempty => simp [hascii, hempty] at h
  next hascii hempty =>
    rw [if_neg hascii, if_neg hempty] at h
    unfold FilterRule.terms
    cases hparse : yarrParse rule.urlFilter with
    | mk events error =>
      rw [hparse] at h
      cases error with
      | some message => simp at h
      | none => exact PatternParser.finalize_accepted (PatternParser.isWellFormed_parse _ _) h

theorem PrefixTreeVertex.Represents.mono {actionIds' : Set ℕ} {root : PrefixTreeVertex}
    (h : Represents root patterns actionIds) (hsub : actionIds ⊆ actionIds') :
    Represents root patterns actionIds' :=
  ⟨h.keysDistinct, h.isSome, h.isFinal,
    fun path old hold a ha => hsub (h.actions path old hold a ha), h.marked⟩

theorem FilterState.addRule_represents (h : state.addRule yarrParse rule = .ok state')
    (hstate : Represents state.combinedURLFilters patterns actionIds) :
    Represents state'.combinedURLFilters (patternsOf yarrParse [rule] ∪ patterns)
      (insert rule.actionLocationAndFlags actionIds) := by
  unfold FilterState.addRule at h
  dsimp only at h
  split at h
  · cases h
  split at h
  · cases h
  next hrejected =>
    obtain rfl := Except.ok.inj h
    have haccepted : (URLFilterParser.addPattern yarrParse state.combinedURLFilters
          rule.urlFilter rule.urlFilterIsCaseSensitive rule.actionLocationAndFlags).1 = .ok ∨
        (URLFilterParser.addPattern yarrParse state.combinedURLFilters rule.urlFilter
          rule.urlFilterIsCaseSensitive rule.actionLocationAndFlags).1 = .matchesEverything := by
      simpa [← or_iff_not_imp_left] using hrejected
    rw [URLFilterParser.addPattern_accepted haccepted]
    cases hany : (rule.terms yarrParse).any matchesAtLeastOneCharacter with
    | true =>
      have hpats : patternsOf yarrParse [rule] = {rule.terms yarrParse} := by
        ext pattern
        simp only [patternsOf, mem_singleton, exists_eq_left]
        constructor
        · rintro ⟨rfl, -⟩
          rfl
        · rintro rfl
          exact ⟨rfl, hany⟩
      rw [if_pos rfl, hpats, Set.singleton_union]
      refine hstate.addPattern ?_
      intro hnil
      rw [hnil] at hany
      cases hany
    | false =>
      have hpats : patternsOf yarrParse [rule] = ∅ := by
        ext pattern
        simp only [patternsOf, mem_singleton, exists_eq_left]
        refine iff_of_false ?_ (Set.notMem_empty pattern)
        rintro ⟨rfl, hsome⟩
        rw [hany] at hsome
        cases hsome
      rw [if_neg Bool.false_ne_true, hpats, Set.empty_union]
      exact hstate.mono (Set.subset_insert _ _)

theorem addRules_represents (h : rules.foldlM (FilterState.addRule yarrParse) state = .ok state')
    (hstate : Represents state.combinedURLFilters patterns actionIds) :
    Represents state'.combinedURLFilters (patternsOf yarrParse rules ∪ patterns)
      ({actionId | ∃ rule ∈ rules, rule.actionLocationAndFlags = actionId} ∪ actionIds) := by
  induction rules generalizing state patterns actionIds with
  | nil =>
    obtain rfl := Except.ok.inj h
    simpa [patternsOf] using hstate
  | cons rule rules ih =>
    rw [foldlM_cons] at h
    cases hrule : state.addRule yarrParse rule with
    | error error =>
      rw [hrule] at h
      cases h
    | ok next =>
      rw [hrule] at h
      have hrest := ih h (FilterState.addRule_represents hrule hstate)
      have hpats : patternsOf yarrParse (rule :: rules) ∪ patterns =
          patternsOf yarrParse rules ∪ (patternsOf yarrParse [rule] ∪ patterns) := by
        ext pattern
        simp only [patternsOf, exists_mem_cons_iff, Set.mem_union, Set.mem_ofPred_eq,
          not_mem_nil, false_and, exists_false, or_false]
        exact or_assoc.trans or_left_comm
      have hacts : ({actionId | ∃ rule' ∈ rule :: rules,
            rule'.actionLocationAndFlags = actionId} : Set ℕ) ∪ actionIds =
          {actionId | ∃ rule ∈ rules, rule.actionLocationAndFlags = actionId} ∪
            insert rule.actionLocationAndFlags actionIds := by
        ext actionId
        simp only [exists_mem_cons_iff, Set.mem_union, Set.mem_insert_iff,
          Set.mem_ofPred_eq, @eq_comm _ actionId]
        exact or_assoc.trans or_left_comm
      rw [hpats, hacts]
      exact hrest

theorem patternsOf_finite : (patternsOf yarrParse rules).Finite := by
  refine (rules.map (·.terms yarrParse)).toFinset.finite_toSet.subset ?_
  rintro pattern ⟨rule, hrule, rfl, -⟩
  simpa using ⟨rule, hrule, rfl⟩

theorem ncard_actionIds_le :
    ({actionId | ∃ rule ∈ rules, rule.actionLocationAndFlags = actionId} : Set ℕ).Finite ∧
    ({actionId | ∃ rule ∈ rules, rule.actionLocationAndFlags = actionId} : Set ℕ).ncard ≤
      rules.length := by
  have heq : ({actionId | ∃ rule ∈ rules, rule.actionLocationAndFlags = actionId} : Set ℕ) =
      (rules.map (·.actionLocationAndFlags)).toFinset := by
    ext actionId
    simp
  rw [heq, Set.ncard_coe_finset]
  refine ⟨Finset.finite_toSet _, (toFinset_card_le _).trans ?_⟩
  rw [length_map]

theorem compileNFAs_spec (h : compileNFAs yarrParse rules = .ok nfas) :
    ∃ root, Represents root (patternsOf yarrParse rules)
        {actionId | ∃ rule ∈ rules, rule.actionLocationAndFlags = actionId} ∧
      (∀ nfa ∈ createNFAs root, nfa ∈ nfas) ∧
      ∀ nfa ∈ nfas, nfa ∈ createNFAs root ∨ nfa = NFA.create := by
  unfold compileNFAs at h
  cases hrules : rules.foldlM (FilterState.addRule yarrParse) {} with
  | error error =>
    rw [hrules] at h
    cases h
  | ok state =>
    rw [hrules] at h
    obtain rfl := Except.ok.inj h
    have hstate := addRules_represents hrules Represents.create
    rw [Set.union_empty, Set.union_empty] at hstate
    refine ⟨_, hstate, fun nfa hnfa => ?_, fun nfa hnfa => ?_⟩
    · rw [if_neg]
      · exact hnfa
      · intro hempty
        rw [Bool.and_eq_true, List.isEmpty_iff] at hempty
        rw [hempty.1] at hnfa
        exact absurd hnfa List.not_mem_nil
    · split at hnfa
      · exact .inr (List.mem_singleton.mp hnfa)
      · exact .inl hnfa

/-! ## When the graphs keep within the limits -/

section Growth

variable {reads : ℕ → Language ℕ} {keys : Set ℕ} {label : ℕ → Language ℕ}
  (h : Growth NFA.create nfa NFA.create.root reads keys label)

include h

theorem hasCharacterKeys_of_growth : nfa.HasCharacterKeys ↔ ∀ key ∈ keys, key < 128 := by
  constructor
  · intro hall key hkey
    have hne := ((h.mem_keys key).mp hkey).1
    obtain ⟨node, hnode, hmem⟩ := (h.mem_keys_iff hne).mpr hkey
    exact (hall node hnode key hmem).resolve_right hne
  · exact fun hkeys node hnode key hkey => ((h.valid hkeys).node node hnode).key key hkey

theorem hasFewTransitions_of_growth (hkeys : ∀ key ∈ keys, key < 128)
    (hleaves : ∀ w : List Character, ∃ c : Character, w.map Fin.val ∉ reads c) :
    nfa.HasFewTransitions := by
  intro order n hgets
  by_contra hn
  obtain ⟨w, hall⟩ := hgets.exists_word (h.valid hkeys) (Nat.lt_of_not_le hn)
  obtain ⟨c, hc⟩ := hleaves w
  exact hc (h.isIndividual_iff.mp (hall c))

theorem growth_of_hasFewTransitions (hkeys : ∀ key ∈ keys, key < 128)
    (hacts : ∀ w, ¬nfa.HasTooManyActions (nfa.automaton.eval w)) (hfew : nfa.HasFewTransitions)
    (w : List Character) : ∃ c : Character, w.map Fin.val ∉ reads c := by
  obtain ⟨c, hc⟩ := (NFAToDFA.getsTransitions_le_iff NFAToDFA.insertionOrder (h.valid hkeys)
    h.everySlotHasTarget hacts).mp (hfew NFAToDFA.insertionOrder) w
  exact ⟨c, fun hreads => hc (h.isIndividual_iff.mpr hreads)⟩

end Growth

theorem growth_create : Growth NFA.create NFA.create NFA.create.root (fun _ => 0) ∅ fun _ => 1 :=
  .refl NFA.inRange_create _

variable (h : compileNFAs yarrParse rules = .ok nfas)

include h

theorem hasCharacterKeys_iff :
    (∀ nfa ∈ nfas, nfa.HasCharacterKeys) ↔ HasCharacterKeys (patternsOf yarrParse rules) := by
  obtain ⟨root, hroot, hall, honly⟩ := compileNFAs_spec h
  constructor
  · intro hkeys pattern hpat key hkey
    obtain ⟨stack, last, hfollows, hneed, hpart⟩ :=
      exists_generated_of_mem hroot patternsOf_finite hpat
    obtain ⟨label, hgrowth⟩ := generateNFA_growth stack last
    have hnfa := hall _ (mem_createNFAs.mpr ⟨stack, last, hfollows, hneed, rfl⟩)
    obtain ⟨path, hpath, hle⟩ := hpart pattern hpat fun _ _ _ => Iff.rfl
    exact (hasCharacterKeys_of_growth hgrowth).mp (hkeys _ hnfa) key
      ⟨path, hpath, keysOfTerms_mono hle hkey⟩
  · intro hkeys nfa hnfa
    rcases honly nfa hnfa with hnfa | rfl
    · obtain ⟨stack, last, hfollows, hneed, rfl⟩ := mem_createNFAs.mp hnfa
      obtain ⟨label, hgrowth⟩ := generateNFA_growth stack last
      obtain ⟨_, -, -, hbegin⟩ := exists_group_of_generated hroot hfollows hneed
      refine (hasCharacterKeys_of_growth hgrowth).mpr ?_
      rintro key ⟨path, hpath, hkey⟩
      obtain ⟨pattern, hpat, -, hle⟩ := hbegin path hpath
      exact hkeys pattern hpat key (keysOfTerms_mono hle hkey)
    · exact (hasCharacterKeys_of_growth growth_create).mpr nofun

theorem hasFewTransitions_of_leavesCharacter (hkeys : HasCharacterKeys (patternsOf yarrParse rules))
    (hleaves : LeavesCharacter (patternsOf yarrParse rules)) (hnfa : nfa ∈ nfas) :
    nfa.HasFewTransitions := by
  have hkeys' := (hasCharacterKeys_iff h).mpr hkeys nfa hnfa
  obtain ⟨root, hroot, -, honly⟩ := compileNFAs_spec h
  rcases honly nfa hnfa with hnfa | rfl
  · obtain ⟨stack, last, hfollows, hneed, rfl⟩ := mem_createNFAs.mp hnfa
    obtain ⟨label, hgrowth⟩ := generateNFA_growth stack last
    obtain ⟨pattern, hpat, -, hbegin⟩ := exists_group_of_generated hroot hfollows hneed
    refine hasFewTransitions_of_growth hgrowth ((hasCharacterKeys_of_growth hgrowth).mp hkeys')
      fun w => ?_
    obtain ⟨c, hc⟩ := hleaves pattern hpat w
    refine ⟨c, ?_⟩
    rintro ⟨path, hpath, hreads⟩
    obtain ⟨pattern', hpat', hshares, hle⟩ := hbegin path hpath
    exact hc pattern' hpat' hshares (readsOfTerms_mono hle hreads)
  · exact hasFewTransitions_of_growth growth_create nofun fun w => ⟨0, Language.notMem_zero _⟩

/-- Without enough rules for the limit on the actions of a node, the limit on transitions is the
first one to be hit. -/
theorem leavesCharacter_of_hasFewTransitions (hlen : rules.length ≤ 65535)
    (hkeys : HasCharacterKeys (patternsOf yarrParse rules))
    (hfew : ∀ nfa ∈ nfas, nfa.HasFewTransitions) :
    LeavesCharacter (patternsOf yarrParse rules) := by
  have hkeys' := (hasCharacterKeys_iff h).mpr hkeys
  obtain ⟨root, hroot, hall, -⟩ := compileNFAs_spec h
  intro pattern hpat w
  obtain ⟨stack, last, hfollows, hneed, hpart⟩ :=
    exists_generated_of_mem hroot patternsOf_finite hpat
  obtain ⟨label, hgrowth⟩ := generateNFA_growth stack last
  have hmem := mem_createNFAs.mpr ⟨stack, last, hfollows, hneed, rfl⟩
  obtain ⟨hfinite, hcard⟩ := @ncard_actionIds_le rules
  have hacts := (hasActionsIn_of_mem_createNFAs hroot hmem).not_hasTooManyActions hfinite
    (hcard.trans hlen)
  obtain ⟨c, hc⟩ := growth_of_hasFewTransitions hgrowth
    ((hasCharacterKeys_of_growth hgrowth).mp (hkeys' _ (hall _ hmem))) (fun w => hacts _)
    (hfew _ (hall _ hmem)) w
  refine ⟨c, fun pattern' hpat' hshares hreads => hc ?_⟩
  obtain ⟨path, hpath, hle⟩ := hpart pattern' hpat' hshares
  exact ⟨path, hpath, readsOfTerms_mono hle hreads⟩

end Accepted

/-- What the Yarr parser makes of some filters. -/
def sampleYarrParse : String → List ParserEvent × Option String
  | "ab" => ([.atomPatternCharacter 97, .atomPatternCharacter 98], none)
  | "[\\xff]" =>
    ([.atomCharacterClassBegin false, .atomCharacterClassAtom 0xff, .atomCharacterClassEnd], none)
  | "^a$" => ([.assertionBOL, .atomPatternCharacter 97, .assertionEOL], none)
  | "^a[\\x01-\\x7f]b" =>
    ([.assertionBOL, .atomPatternCharacter 97, .atomCharacterClassBegin false,
      .atomCharacterClassRange 1 0x7f, .atomCharacterClassEnd, .atomPatternCharacter 98], none)
  | _ => ([], some "not a sample")

def sampleRules (filters : List String) : List FilterRule :=
  filters.map fun urlFilter => { urlFilter, actionLocationAndFlags := 7 }

/-- The graphs of the filters. -/
def sampleNFAs (filters : List String) : List NFA :=
  (compileNFAs sampleYarrParse (sampleRules filters)).toOption.getD []

theorem compileNFAs_sample (filters : List String)
    (h : (compileNFAs sampleYarrParse (sampleRules filters)).isOk = true) :
    compileNFAs sampleYarrParse (sampleRules filters) = .ok (sampleNFAs filters) := by
  unfold sampleNFAs
  cases hcompile : compileNFAs sampleYarrParse (sampleRules filters) with
  | error error =>
    rw [hcompile] at h
    cases h
  | ok nfas => rfl

/-- The terms of `^a$` and of `^a[\x01-\x7f]b`. -/
def endTerms : List Term :=
  [.characterSet .one { characters := {65, 97} }, endOfLineAssertion]

def everyCharacterTerms : List Term :=
  [.characterSet .one { characters := {65, 97} },
    .characterSet .one { characters := (Finset.range 128).erase 0 },
    .characterSet .one { characters := {66, 98} }]

theorem not_leavesCharacter {patterns : Set (List Term)}
    (hpats : patterns = {endTerms, everyCharacterTerms}) : ¬LeavesCharacter patterns := by
  subst hpats
  have hfixed : ∀ pattern ∈ ({endTerms, everyCharacterTerms} : Set (List Term)),
      allHaveFixedLength pattern = true := by
    rintro pattern (rfl | rfl) <;> decide
  intro hleaves
  obtain ⟨c, hc⟩ := hleaves endTerms (.inl rfl) [97]
  -- the word of the first term, and nothing
  have hfirst : ∀ terms, [] ∈ readsOfTerms c terms → [97] ∈ readsOfTerms c
      (.characterSet .one { characters := {65, 97} } :: terms) := by
    intro terms hnil
    rw [readsOfTerms, Language.mem_add, Language.mem_mul]
    refine .inr ⟨[97], ?_, [], hnil, rfl⟩
    rw [language]
    refine ⟨97, ?_, rfl⟩
    have hbit : 97 ∈ transitionBits { characters := {65, 97} } := by
      decide +kernel
    exact ⟨97, hbit, rfl⟩
  have hset : ∀ (set : CharacterSet) terms, c.val ∈ set.keys →
      [] ∈ readsOfTerms c (.characterSet .one set :: terms) := by
    intro set terms hkey
    rw [readsOfTerms, Language.mem_add, Term.reads, AtomQuantifier.before, one_mul]
    exact .inl ⟨hkey, Language.nil_mem_one⟩
  by_cases hzero : c = 0
  · refine hc endTerms (.inl rfl) (sharesPrefixes_of_fixedLength hfixed)
      (hfirst _ (hset _ _ ⟨by decide +kernel, 0, by decide +kernel, ?_⟩))
    rw [hzero]
    rfl
  · have hbit : ∀ c : Character, c ≠ 0 →
        c.val ∈ transitionBits { characters := (Finset.range 128).erase 0 } ∧
          characterKey c.val = c.val := by
      decide +kernel
    exact hc everyCharacterTerms (.inr rfl) (sharesPrefixes_of_fixedLength hfixed)
      (hfirst _ (hset _ _ ⟨by decide +kernel, c.val, hbit c hzero⟩))

end WebKit.ContentExtensions
