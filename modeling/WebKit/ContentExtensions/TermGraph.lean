import WebKit.ContentExtensions.Fragment
import WebKit.ContentExtensions.TermLanguage

/-!
# The graph of a `Term`

`generateGraph` adds a fragment whose language is that of the term. The keys of its
transitions are those of the sets in the term that are not universal, and a node of the
fragment can be left by a key after the words with which the term comes to such a set.
-/

namespace WebKit.ContentExtensions

open Computability

/-- The keys of the transitions of a set, when it has some of its own. -/
def CharacterSet.keys (set : CharacterSet) : Set ℕ :=
  {key | set.isUniversalTransition = false ∧
    ∃ bit ∈ Term.transitionBits set, Term.characterKey bit = key}

/-- Nothing has to come before a character of the set. -/
def CharacterSet.reads (key : ℕ) (set : CharacterSet) : Language ℕ :=
  {word | key ∈ set.keys ∧ word ∈ (1 : Language ℕ)}

/-- The words that can come before another round of a quantified term. -/
def AtomQuantifier.before (l : Language ℕ) : AtomQuantifier → Language ℕ
  | .one | .zeroOrOne => 1
  | .zeroOrMore | .oneOrMore => l∗

namespace Term

mutual

/-- The words after which the term reads a character by the key. -/
def reads (key : ℕ) : Term → Language ℕ
  | .characterSet q set => q.before set.language * set.reads key
  | .group q terms => q.before (languageOfTerms terms) * readsOfTerms key terms

def readsOfTerms (key : ℕ) : List Term → Language ℕ
  | [] => 0
  | term :: terms => reads key term + language term * readsOfTerms key terms

end

mutual

/-- The keys of the sets in the term. -/
def keys : Term → Set ℕ
  | .characterSet _ set => set.keys
  | .group _ terms => keysOfTerms terms

def keysOfTerms : List Term → Set ℕ
  | [] => ∅
  | term :: terms => keys term ∪ keysOfTerms terms

end

variable {key : ℕ} {term : Term} {terms : List Term}

theorem characterKey_ne_epsilon (bit : ℕ) : characterKey bit ≠ epsilonTransitionCharacter := by
  unfold characterKey epsilonTransitionCharacter
  split <;> omega

theorem reads_set_eq_zero {set : CharacterSet} (h : key ∉ set.keys) : set.reads key = 0 := by
  ext word
  refine iff_of_false ?_ (Language.notMem_zero word)
  exact fun hword => h hword.1

mutual

/-- Nothing comes before a character that no set of the term has a transition for. -/
theorem reads_eq_zero : (term : Term) → key ∉ term.keys → term.reads key = 0
  | .characterSet q set, h => by
    rw [keys] at h
    rw [reads, reads_set_eq_zero h, mul_zero]
  | .group q terms, h => by
    rw [keys] at h
    rw [reads, readsOfTerms_eq_zero terms h, mul_zero]

theorem readsOfTerms_eq_zero : (terms : List Term) → key ∉ keysOfTerms terms →
    readsOfTerms key terms = 0
  | [], _ => by rw [readsOfTerms]
  | term :: terms, h => by
    rw [keysOfTerms, Set.mem_union, not_or] at h
    rw [readsOfTerms, reads_eq_zero term h.1, readsOfTerms_eq_zero terms h.2, mul_zero, add_zero]

end

end Term

section Single

variable {nfa nfa' : NFA} {start : ℕ} {l : Language ℕ} {labels : Set EdgeLabel}

theorem Fragment.single (hrange : nfa.InRange) (hstart : start < nfa.graphSize)
    (hroot : nfa'.root = nfa.root) (hsize : nfa'.graphSize = nfa.graphSize + 1)
    (hslots : nfa.EverySlotHasTarget → nfa'.EverySlotHasTarget)
    (hedges : ∀ x edge t, t ∈ nfa'.edges x edge ↔
      t ∈ nfa.edges x edge ∨ x = start ∧ edge ∈ labels ∧ t = nfa.graphSize)
    (hlabels : EdgeLabel.epsilon ∉ labels)
    (hl : ∀ w, w ∈ l ↔ ∃ edge ∈ labels, w ∈ edge.reads) :
    Fragment nfa nfa' start nfa.graphSize l
      (fun key => {word | EdgeLabel.key key ∈ labels ∧ word ∈ (1 : Language ℕ)})
      {key | EdgeLabel.key key ∈ labels} (fun x => if x = start then 1 else l) := by
  -- only the start has edges to the new node
  have hnew : ∀ x edge t, t ∈ nfa'.edges x edge → nfa.graphSize ≤ t →
      x = start ∧ edge ∈ labels ∧ t = nfa.graphSize := by
    intro x edge t ht hle
    exact ((hedges x edge t).mp ht).resolve_left fun hold =>
      absurd (hrange x edge t hold) (Nat.not_lt.mpr hle)
  have hnone : ∀ x ≥ nfa.graphSize, ∀ edge t, t ∉ nfa'.edges x edge := by
    intro x hx edge t ht
    rcases (hedges x edge t).mp ht with ht | ⟨rfl, -⟩
    · exact absurd (NFA.lt_of_mem_edges ht) (Nat.not_lt.mpr hx)
    · exact absurd hstart (Nat.not_lt.mpr hx)
  constructor
  · constructor
    · exact hroot
    · omega
    · exact hslots
    · intro x edge t ht
      rcases (hedges x edge t).mp ht with ht | ⟨-, -, rfl⟩
      · have := hrange x edge t ht
        omega
      · omega
    · exact fun x edge t ht => (hedges x edge t).mpr (.inl ht)
    · intro x _ hne edge t ht
      exact ((hedges x edge t).mp ht).resolve_right fun h => hne h.1
    · intro edge t ht
      rcases (hedges start edge t).mp ht with ht | ⟨-, -, rfl⟩
      · exact .inl ht
      · exact .inr (.inl le_rfl)
    · exact fun x hx edge t ht => absurd ht (hnone x hx edge t)
    · exact if_pos rfl
    · intro x _ edge t ht hle
      obtain ⟨rfl, hedge, rfl⟩ := hnew x edge t ht hle
      rw [if_pos rfl, if_neg hstart.ne', one_mul]
      exact fun w hw => (hl w).mpr ⟨edge, hedge, hw⟩
    · intro x _ key _ t ht hle
      obtain ⟨rfl, hedge, -⟩ := hnew x _ t ht hle
      rw [if_pos rfl]
      exact fun w hw => ⟨hedge, hw⟩
    · rintro key w ⟨hkey, hw⟩
      rw [(Language.mem_one w).mp hw]
      exact ⟨start, .nil, _, (hedges _ _ _).mpr (.inr ⟨rfl, hkey, rfl⟩)⟩
    · intro key
      constructor
      · intro hkey
        refine ⟨?_, start, .inl rfl, _, (hedges _ _ _).mpr (.inr ⟨rfl, hkey, rfl⟩), le_rfl⟩
        rintro rfl
        exact hlabels hkey
      · rintro ⟨-, x, -, t, ht, hle⟩
        exact (hnew x _ t ht hle).2.1
  · rw [if_neg hstart.ne']
  · intro w hw
    obtain ⟨edge, hedge, hreads⟩ := (hl w).mp hw
    exact .edge ((hedges _ _ _).mpr (.inr ⟨rfl, hedge, rfl⟩)) hreads
  · exact .inr ⟨le_rfl, by omega, fun edge t ht => absurd ht (hnone _ le_rfl edge t)⟩

end Single

namespace NFA

variable {nfa : NFA} {source target : ℕ}

theorem foldl_addTransition (bits : List ℕ) (hsrc : source < nfa.graphSize)
    (hany : target ∉ nfa.edges source .any) :
    let nfa' := bits.foldl (fun nfa bit =>
      nfa.addTransition source target (Term.characterKey bit)) nfa
    nfa'.root = nfa.root ∧ nfa'.graphSize = nfa.graphSize ∧
      (nfa.EverySlotHasTarget → nfa'.EverySlotHasTarget) ∧
      ∀ x edge t, t ∈ nfa'.edges x edge ↔ t ∈ nfa.edges x edge ∨
        x = source ∧ (∃ bit ∈ bits, edge = .key (Term.characterKey bit)) ∧ t = target := by
  induction bits generalizing nfa with
  | nil => simp
  | cons bit bits ih =>
    have hedges : ∀ x edge t,
        t ∈ (nfa.addTransition source target (Term.characterKey bit)).edges x edge ↔
          t ∈ nfa.edges x edge ∨ x = source ∧ edge = .key (Term.characterKey bit) ∧ t = target :=
      fun x edge t => mem_edges_addTransition hsrc hany
    have hsrc' : source < (nfa.addTransition source target (Term.characterKey bit)).graphSize := by
      rwa [graphSize_addTransition]
    have hany' : target ∉
        (nfa.addTransition source target (Term.characterKey bit)).edges source .any := by
      rw [hedges]
      simp [hany]
    obtain ⟨hroot, hsize, hslots, hmem⟩ := ih hsrc' hany'
    rw [List.foldl_cons]
    refine ⟨hroot.trans rfl, hsize.trans graphSize_addTransition,
      fun hall => hslots hall.addTransition, fun x edge t => ?_⟩
    rw [hmem, hedges, List.exists_mem_cons_iff]
    tauto

end NFA

namespace Term

variable {nfa : NFA} {start : ℕ} {l : Language ℕ} {reads : ℕ → Language ℕ} {keys : Set ℕ}

theorem characterSetSubgraph_fragment (set : CharacterSet) (hrange : nfa.InRange)
    (hstart : start < nfa.graphSize) :
    ∃ label, Fragment nfa (characterSetSubgraph set nfa start).1 start
      (characterSetSubgraph set nfa start).2 set.language (fun key => set.reads key) set.keys
      label := by
  have hstart' : start < nfa.createNode.1.graphSize := by
    rw [NFA.graphSize_createNode]
    omega
  have htarget : nfa.createNode.2 = nfa.graphSize := rfl
  unfold characterSetSubgraph
  split
  · next huniv =>
    have hkeys : set.keys = {key | EdgeLabel.key key ∈ ({.any} : Set EdgeLabel)} := by
      ext key
      simp [CharacterSet.keys, huniv]
    unfold CharacterSet.reads
    rw [hkeys]
    refine ⟨_, Fragment.single hrange hstart rfl (by simp) (fun hall =>
      hall.createNode.addTransitionsOnAnyCharacter) (fun x edge t => ?_) nofun fun w => ?_⟩
    · rw [NFA.mem_edges_addTransitionsOnAnyCharacter hstart', NFA.edges_createNode, htarget]
      rfl
    · simp only [CharacterSet.language, CharacterSet.Matches, huniv, if_true]
      constructor
      · rintro ⟨character, ⟨hpos, hlt⟩, rfl⟩
        exact ⟨.any, rfl, character, hpos, hlt, rfl⟩
      · rintro ⟨edge, rfl, character, hpos, hlt, rfl⟩
        exact ⟨character, ⟨hpos, hlt⟩, rfl⟩
  · next huniv =>
    have hkeys : set.keys = {key | EdgeLabel.key key ∈
        {edge | ∃ bit ∈ transitionBits set, edge = EdgeLabel.key (characterKey bit)}} := by
      ext key
      simp [CharacterSet.keys, huniv, eq_comm]
    have hany : nfa.createNode.2 ∉ nfa.createNode.1.edges start .any := by
      rw [NFA.edges_createNode, htarget]
      exact fun ht => absurd (hrange _ _ _ ht) (lt_irrefl _)
    obtain ⟨hroot, hsize, hslots, hedges⟩ :=
      NFA.foldl_addTransition (transitionBits set) hstart' hany
    unfold CharacterSet.reads
    rw [hkeys]
    refine ⟨_, Fragment.single hrange hstart hroot (hsize.trans NFA.graphSize_createNode)
      (fun hall => hslots hall.createNode) (fun x edge t => ?_) ?_ fun w => ?_⟩
    · rw [hedges, NFA.edges_createNode, htarget]
      rfl
    · rintro ⟨bit, -, heps⟩
      exact characterKey_ne_epsilon bit (EdgeLabel.key.inj heps).symm
    · simp only [CharacterSet.language, CharacterSet.Matches, huniv, Bool.false_eq_true,
        if_false]
      constructor
      · rintro ⟨character, ⟨bit, hbit, rfl⟩, rfl⟩
        exact ⟨_, ⟨bit, hbit, rfl⟩, (EdgeLabel.mem_reads_key (characterKey_ne_epsilon bit)).mpr rfl⟩
      · rintro ⟨edge, ⟨bit, hbit, rfl⟩, hreads⟩
        exact ⟨_, ⟨bit, hbit, rfl⟩,
          (EdgeLabel.mem_reads_key (characterKey_ne_epsilon bit)).mp hreads⟩

theorem quantifiedSubgraph_oneOrMore (subgraph : NFA → ℕ → NFA × ℕ) (nfa : NFA) (start : ℕ) :
    quantifiedSubgraph subgraph nfa start .oneOrMore =
      ((subgraph (nfa.openLoop start) nfa.graphSize).1.closeLoop nfa.graphSize
        (subgraph (nfa.openLoop start) nfa.graphSize).2,
        (subgraph (nfa.openLoop start) nfa.graphSize).1.graphSize) := by
  generalize hsub : subgraph (nfa.openLoop start) nfa.graphSize = sub
  have hend : (sub.1.addEpsilonTransition sub.2 nfa.graphSize).createNode.2 = sub.1.graphSize :=
    NFA.graphSize_addEpsilonTransition
  have hunfold : quantifiedSubgraph subgraph nfa start .oneOrMore =
      ((sub.1.addEpsilonTransition sub.2 nfa.graphSize).createNode.1.addEpsilonTransition sub.2
        (sub.1.addEpsilonTransition sub.2 nfa.graphSize).createNode.2,
        (sub.1.addEpsilonTransition sub.2 nfa.graphSize).createNode.2) := by
    rw [← hsub]
    rfl
  rw [hunfold, hend]
  rfl

theorem quantifiedSubgraph_zeroOrMore (subgraph : NFA → ℕ → NFA × ℕ) (nfa : NFA) (start : ℕ) :
    quantifiedSubgraph subgraph nfa start .zeroOrMore =
      ((quantifiedSubgraph subgraph nfa start .oneOrMore).1.addEpsilonTransition start
        (quantifiedSubgraph subgraph nfa start .oneOrMore).2,
        (quantifiedSubgraph subgraph nfa start .oneOrMore).2) := rfl

theorem quantifiedSubgraph_fragment {subgraph : NFA → ℕ → NFA × ℕ} (q : AtomQuantifier)
    (hsubgraph : ∀ nfa start, nfa.InRange → start < nfa.graphSize →
      ∃ label, Fragment nfa (subgraph nfa start).1 start (subgraph nfa start).2 l reads keys label)
    (hrange : nfa.InRange) (hstart : start < nfa.graphSize) :
    ∃ label, Fragment nfa (quantifiedSubgraph subgraph nfa start q).1 start
      (quantifiedSubgraph subgraph nfa start q).2 (q.language l)
      (fun key => q.before l * reads key) keys label := by
  obtain ⟨label, honce⟩ := hsubgraph nfa start hrange hstart
  obtain ⟨label', hround⟩ := hsubgraph (nfa.openLoop start) nfa.graphSize
    (hrange.openLoop hstart) (by rw [NFA.graphSize_openLoop]; exact Nat.lt_succ_self _)
  have hloop := Fragment.loop hrange hstart hround
  cases q with
  | one =>
    simp only [AtomQuantifier.before, one_mul]
    exact ⟨label, honce⟩
  | zeroOrOne =>
    simp only [AtomQuantifier.before, one_mul]
    exact ⟨_, honce.optional hstart⟩
  | zeroOrMore =>
    have hstar := hloop.optional hstart
    rw [Language.one_add_self_mul_kstar_eq_kstar] at hstar
    rw [quantifiedSubgraph_zeroOrMore, quantifiedSubgraph_oneOrMore]
    exact ⟨_, hstar⟩
  | oneOrMore =>
    rw [quantifiedSubgraph_oneOrMore]
    exact ⟨_, hloop⟩

mutual

theorem generateGraph_fragment : (term : Term) → (nfa : NFA) → (start : ℕ) →
    (finalActions : List ℕ) → nfa.InRange → start < nfa.graphSize →
    ∃ label, Fragment nfa (generateGraph nfa start finalActions term).1 start
      (generateGraph nfa start finalActions term).2 term.language (fun key => term.reads key)
      term.keys label
  | .characterSet q set, nfa, start, finalActions, hrange, hstart => by
    obtain ⟨label, hfragment⟩ := quantifiedSubgraph_fragment q
      (fun _ _ => characterSetSubgraph_fragment set) hrange hstart
    have hreads : (fun key => (Term.characterSet q set).reads key) =
        fun key => q.before set.language * set.reads key := by
      funext key
      rw [Term.reads]
    rw [generateGraph, language, Term.keys, hreads]
    exact ⟨label, hfragment.setActions _ finalActions⟩
  | .group q terms, nfa, start, finalActions, hrange, hstart => by
    obtain ⟨label, hfragment⟩ := quantifiedSubgraph_fragment q (fun nfa start =>
      groupSubgraph_fragment terms nfa start) hrange hstart
    have hreads : (fun key => (Term.group q terms).reads key) =
        fun key => q.before (languageOfTerms terms) * readsOfTerms key terms := by
      funext key
      rw [Term.reads]
    rw [generateGraph, language, Term.keys, hreads]
    exact ⟨label, hfragment.setActions _ finalActions⟩

theorem groupSubgraph_fragment : (terms : List Term) → (nfa : NFA) → (lastTarget : ℕ) →
    nfa.InRange → lastTarget < nfa.graphSize →
    ∃ label, Fragment nfa (groupSubgraph nfa lastTarget terms).1 lastTarget
      (groupSubgraph nfa lastTarget terms).2 (languageOfTerms terms)
      (fun key => readsOfTerms key terms) (keysOfTerms terms) label
  | [], nfa, lastTarget, hrange, hlt => by
    have hreads : (fun key => readsOfTerms key []) = fun _ => 0 := by
      funext key
      rw [readsOfTerms]
    rw [groupSubgraph, languageOfTerms, keysOfTerms, hreads]
    exact ⟨_, Fragment.refl hrange lastTarget⟩
  | term :: terms, nfa, lastTarget, hrange, hlt => by
    obtain ⟨label, hfirst⟩ := generateGraph_fragment term nfa lastTarget [] hrange hlt
    obtain ⟨label', hrest⟩ := groupSubgraph_fragment terms _ _ hfirst.inRange (hfirst.lt_size hlt)
    have hreads : (fun key => readsOfTerms key (term :: terms)) =
        fun key => term.reads key + term.language * readsOfTerms key terms := by
      funext key
      rw [readsOfTerms]
    rw [groupSubgraph, languageOfTerms, keysOfTerms, hreads]
    exact ⟨_, Fragment.seq hlt hfirst hrest⟩

end

end Term

end WebKit.ContentExtensions
