import Mathlib.Data.List.TakeWhile
import WebKit.ContentExtensions.ActionSerialization

/-!
# Locations of rules

Every rule of a parsed rule list gets the location of a record that `Action::deserialize` reads
as its action. Consecutive rules for selectors with the same trigger share one record.
-/

open Transition List

namespace WebKit.ContentExtensions

open ActionRecord

open WTF (Failure)

variable {memory : Memory} {bound : ℕ} {rules done rest : List ContentExtensionRule}
  {rule : ContentExtensionRule} {written : SerializedActions} {i : ℕ}

/-- A rule for a selector, with the trigger of another rule. -/
def ContentExtensionRule.Joins (rule next : ContentExtensionRule) : Prop :=
  next.action.type = .cssDisplayNoneSelector ∧ rule.trigger = next.trigger

variable {next : ContentExtensionRule}

theorem consolidates_iff : consolidates rule next = true ↔ rule.Joins next := by
  simp [consolidates, ContentExtensionRule.Joins, and_comm]

/-- A maximal run of consecutive rules for selectors with the trigger of a rule. -/
structure IsMaximalRun (rule : ContentExtensionRule)
    (front run back : List ContentExtensionRule) : Prop where
  joins : ∀ next ∈ run, rule.Joins next
  before : ∀ next ∈ front.getLast?, ¬ rule.Joins next
  after : ∀ next ∈ back.head?, ¬ rule.Joins next

/-- The record is the one of the rule at the index. -/
inductive Describes (rules : List ContentExtensionRule) (i : ℕ) (rule : ContentExtensionRule) :
    ActionRecord → Prop
  | byte (isByte : ActionRecord.IsByte rule.action.type) :
    Describes rules i rule (.byte rule.action.type)
  | selector (type_eq : rule.action.type = .cssDisplayNoneSelector)
    (front run back : List ContentExtensionRule) (string : WTFString)
    (rules_eq : rules = front ++ run ++ back) (le : front.length ≤ i)
    (lt : i < front.length + run.length) (isMaximalRun : IsMaximalRun rule front run back)
    (characters_eq : string.characters = List.intercalate [44] (selectors run)) :
    Describes rules i rule (.selector string)

/-- The rules that are done have their locations. -/
structure Written (rules done rest : List ContentExtensionRule) (written : SerializedActions) :
    Prop where
  rules_eq : rules = done ++ rest
  length_eq : written.actionLocations.length = done.length
  sorted : written.actionLocations.Pairwise (· ≤ ·)
  le : ∀ location ∈ written.actionLocations, location ≤ written.actions.length
  lt : written.actions.length < 2 ^ 32
  described : ∀ i rule location, done[i]? = some rule →
    written.actionLocations[i]? = some location →
      ∃ record, HasRecord written.actions location record ∧ Describes rules i rule record
  boundary : ∀ last ∈ done.getLast?, ∀ next ∈ rest.head?,
    last.action.type = .cssDisplayNoneSelector → ¬ last.Joins next

theorem written_nil (rules : List ContentExtensionRule) : Written rules [] rules {} where
  rules_eq := rfl
  length_eq := rfl
  sorted := List.Pairwise.nil
  le := nofun
  lt := by decide
  described _ _ _ h := by simp at h
  boundary := nofun

theorem Written.extend (more : List ContentExtensionRule) (bytes : List UInt8) (location : ℕ)
    (h : Written rules done (more ++ rest) written)
    (hle : ∀ location' ∈ written.actionLocations, location' ≤ location)
    (hloc : location ≤ (written.actions ++ bytes).length)
    (hlt : (written.actions ++ bytes).length < 2 ^ 32)
    (hrec : ∀ i rule, more[i]? = some rule → ∃ record,
      HasRecord (written.actions ++ bytes) location record ∧
        Describes rules (done.length + i) rule record)
    (hboundary : ∀ last ∈ (done ++ more).getLast?, ∀ next ∈ rest.head?,
      last.action.type = .cssDisplayNoneSelector → ¬ last.Joins next) :
    Written rules (done ++ more) rest ⟨written.actions ++ bytes,
      written.actionLocations ++ replicate more.length location⟩ where
  rules_eq := by rw [h.rules_eq, append_assoc]
  length_eq := by simp [h.length_eq]
  sorted := by
    refine pairwise_append.mpr ⟨h.sorted, ?_, ?_⟩
    · exact pairwise_replicate.mpr (.inr le_rfl)
    · intro a ha b hb
      rw [eq_of_mem_replicate hb]
      exact hle a ha
  le a ha := by
    rcases mem_append.mp ha with ha | ha
    · have := h.le a ha
      rw [length_append]
      omega
    · rwa [eq_of_mem_replicate ha]
  lt := hlt
  described i rule a hrule ha := by
    by_cases hi : i < done.length
    · rw [getElem?_append_left hi] at hrule
      rw [getElem?_append_left (h.length_eq ▸ hi)] at ha
      obtain ⟨record, hrec, hdesc⟩ := h.described i rule a hrule ha
      exact ⟨record, hrec.append bytes, hdesc⟩
    · obtain ⟨k, rfl⟩ := Nat.exists_eq_add_of_le (Nat.le_of_not_lt hi)
      rw [getElem?_append_right (by omega), Nat.add_sub_cancel_left] at hrule
      rw [getElem?_append_right (by rw [h.length_eq]; omega), h.length_eq,
        Nat.add_sub_cancel_left] at ha
      rw [eq_of_mem_replicate (mem_of_getElem? ha)]
      exact hrec k rule hrule
  boundary := hboundary

theorem ContentExtensionRule.IsParsed.type_cases (h : rule.IsParsed) :
    ActionRecord.IsByte rule.action.type ∨ rule.action.type = .cssDisplayNoneSelector := by
  obtain ⟨actionType, selector, haction⟩ := h.action_eq
  obtain ⟨action, hact⟩ : ∃ action, action = rule.action := ⟨_, rfl⟩
  rw [← hact] at haction ⊢
  unfold loadAction at haction
  split_ifs at haction
  · cases haction
    exact .inl (.inl rfl)
  · cases haction
    exact .inl (.inr (.inr rfl))
  · cases haction
    exact .inl (.inr (.inl rfl))
  · cases selector with
    | none => cases haction
    | some selector =>
      cases haction
      exact .inr rfl

theorem serializeAction_outcome (actions : List UInt8) {type : ActionType}
    (htype : ActionRecord.IsByte type) (h : actions.length + 1 ≤ bound) :
    Outcome (memory.Exhausted bound) (Memory.Holds actions (byte type).bytes)
      (serializeAction memory actions type) := by
  rcases htype with rfl | rfl | rfl <;> exact Memory.append_outcome actions _ h

theorem not_isByte_of_selector {type : ActionType} (h : type = .cssDisplayNoneSelector) :
    ¬ ActionRecord.IsByte type := by
  subst h
  rintro (h | h | h) <;> cases h

theorem isMaximalRun_consolidated (h : Written rules done (rule :: rest) written)
    (htype : rule.action.type = .cssDisplayNoneSelector)
    (hnext : next ∈ rule :: rest.takeWhile (consolidates rule)) :
    IsMaximalRun next done (rule :: rest.takeWhile (consolidates rule))
      (rest.dropWhile (consolidates rule)) := by
  have hjoins : ∀ next ∈ rule :: rest.takeWhile (consolidates rule), rule.Joins next := by
    intro next hnext
    rcases mem_cons.mp hnext with rfl | hnext
    · exact ⟨htype, rfl⟩
    · exact consolidates_iff.mp (mem_takeWhile_imp hnext)
  have htrigger : rule.trigger = next.trigger := (hjoins next hnext).2
  constructor
  · intro other hother
    exact ⟨(hjoins other hother).1, htrigger.symm.trans (hjoins other hother).2⟩
  · intro last hlast hjoins
    refine h.boundary last hlast rule rfl hjoins.1 ⟨htype, ?_⟩
    rw [htrigger, hjoins.2]
  · intro other hother hjoins
    have hnot := head?_dropWhile_not (consolidates rule) rest
    rw [Option.mem_def.mp hother] at hnot
    have hconsolidates := consolidates_iff.mpr ⟨hjoins.1, htrigger.trans hjoins.2⟩
    simp [hconsolidates] at hnot

theorem Written.selector (h : Written rules done (rule :: rest) written)
    (htype : rule.action.type = .cssDisplayNoneSelector) {string : WTFString}
    {actions : List UInt8}
    (hstr : string.characters =
      List.intercalate [44] (selectors (rule :: rest.takeWhile (consolidates rule))))
    (hacts : Memory.Holds written.actions (selector string).bytes actions) :
    Written rules (done ++ rule :: rest.takeWhile (consolidates rule))
      (rest.dropWhile (consolidates rule)) ⟨actions, written.actionLocations ++
        List.replicate ((rest.takeWhile (consolidates rule)).length + 1)
          written.actions.length⟩ := by
  obtain ⟨run, hrun⟩ : ∃ run, run = rule :: rest.takeWhile (consolidates rule) := ⟨_, rfl⟩
  obtain ⟨back, hback⟩ : ∃ back, back = rest.dropWhile (consolidates rule) := ⟨_, rfl⟩
  have hsplit : rule :: rest = run ++ back := by
    rw [hrun, hback, cons_append, takeWhile_append_dropWhile]
  have hmaximal : ∀ next ∈ run, IsMaximalRun next done run back := by
    intro next hnext
    rw [hrun, hback]
    rw [hrun] at hnext
    exact isMaximalRun_consolidated h htype hnext
  have hlen : (rest.takeWhile (consolidates rule)).length + 1 = run.length := by
    rw [hrun, length_cons]
  obtain ⟨rfl, hlt⟩ := hacts
  rw [hsplit] at h
  rw [← hrun, ← hback, hlen]
  rw [← hrun] at hstr
  refine h.extend run _ _ h.le (by simp) hlt ?_ ?_
  · intro i next hnext
    have hmem := mem_of_getElem? hnext
    have hi : i < run.length := (List.getElem?_eq_some_iff.mp hnext).1
    refine ⟨_, hasRecord_end _ _, .selector ?_ done run back string ?_ (by omega) (by omega)
      (hmaximal next hmem) hstr⟩
    · exact ((hmaximal next hmem).joins next hmem).1
    · rw [h.rules_eq, append_assoc]
  · intro last hlast next hnext _
    have hne : run ≠ [] := by
      rw [hrun]
      exact cons_ne_nil _ _
    rw [getLast?_append_of_ne_nil _ hne] at hlast
    exact (hmaximal last (mem_of_getLast? hlast)).after next hnext

theorem singleton_getElem? (h : [rule][i]? = some next) : i = 0 ∧ rule = next := by
  cases i with
  | zero => exact ⟨rfl, by simpa using h⟩
  | succ i => simp at h

theorem boundary_of_isByte (htype : ActionRecord.IsByte rule.action.type) :
    ∀ last ∈ (done ++ [rule]).getLast?, ∀ next ∈ rest.head?,
      last.action.type = .cssDisplayNoneSelector → ¬ last.Joins next := by
  intro last hlast next _ hsel
  rw [getLast?_append_of_ne_nil _ (by simp), getLast?_singleton, Option.mem_some_iff] at hlast
  subst hlast
  exact absurd htype (not_isByte_of_selector hsel)

theorem Written.duplicate (h : Written rules done (rule :: rest) written)
    (htype : ActionRecord.IsByte rule.action.type)
    (hequal : done.getLast?.any (fun previous => rule.action.isEqual previous.action) = true) :
    Written rules (done ++ [rule]) rest { written with
      actionLocations := written.actionLocations ++
        [written.actionLocations.getLast?.getD 0] } := by
  obtain ⟨last, hlast, hequal⟩ := (Option.any_eq_true _ _).mp hequal
  have htypes : last.action.type = rule.action.type := by
    simp only [Action.isEqual, Bool.and_eq_true, decide_eq_true_eq] at hequal
    exact hequal.1.1.1.symm
  obtain ⟨init, rfl⟩ := getLast?_eq_some_iff.mp hlast
  obtain ⟨locations, location, hlocs⟩ : ∃ locations location,
      written.actionLocations = locations ++ [location] := by
    refine eq_nil_or_concat'  written.actionLocations |>.resolve_left fun hnil => ?_
    have := h.length_eq
    simp [hnil] at this
  have hlen : locations.length = init.length := by
    have := h.length_eq
    rw [hlocs] at this
    simpa using this
  have hlast : written.actionLocations.getLast?.getD 0 = location := by rw [hlocs]; simp
  obtain ⟨record, hrec, hdesc⟩ := h.described init.length last location
    (by simp) (by rw [hlocs, ← hlen]; simp)
  have hbyte : record = .byte rule.action.type := by
    cases hdesc with
    | byte => rw [htypes]
    | selector hsel => exact absurd htype (not_isByte_of_selector (htypes ▸ hsel))
  have hmem : location ∈ written.actionLocations := by rw [hlocs]; simp
  rw [hlast]
  have hext := h.extend [rule] [] location ?_
    (by simpa using h.le location hmem) (by simpa using h.lt) ?_ ?_
  · simpa using hext
  · have hsorted := h.sorted
    rw [hlocs] at hsorted ⊢
    intro location' hloc'
    rcases mem_append.mp hloc' with hloc' | hloc'
    · exact (pairwise_append.mp hsorted).2.2 location' hloc' location (by simp)
    · exact (mem_singleton.mp hloc').le
  · intro i next hnext
    obtain ⟨rfl, rfl⟩ := singleton_getElem? hnext
    rw [hbyte] at hrec
    exact ⟨_, by simpa using hrec, .byte htype⟩
  · exact boundary_of_isByte htype

theorem Written.byte (h : Written rules done (rule :: rest) written)
    (htype : ActionRecord.IsByte rule.action.type) {actions : List UInt8}
    (hacts : Memory.Holds written.actions (byte rule.action.type).bytes actions) :
    Written rules (done ++ [rule]) rest
      ⟨actions, written.actionLocations ++ [written.actions.length]⟩ := by
  obtain ⟨rfl, hlt⟩ := hacts
  refine h.extend [rule] _ _ h.le (by simp) hlt ?_ ?_
  · intro i next hnext
    obtain ⟨rfl, rfl⟩ := singleton_getElem? hnext
    exact ⟨_, hasRecord_end _ _, .byte htype⟩
  · exact boundary_of_isByte htype

/-- The rules that are left have their locations at the end, if the containers could grow. -/
theorem serializeActionsFrom_outcome (hparsed : ∀ rule ∈ rules, rule.IsParsed)
    (h : Written rules done rest written)
    (hbound : written.actions.length + serializedSize rest ≤ bound) :
    Outcome (memory.Exhausted bound) (Written rules rules [])
      (serializeActionsFrom memory done.getLast? written rest) := by
  obtain ⟨n, hn⟩ : ∃ n, n = rest.length := ⟨_, rfl⟩
  induction n using Nat.strong_induction_on generalizing done rest written with
  | h n ih =>
  cases rest with
  | nil =>
    have hdone : rules = done := by rw [h.rules_eq, append_nil]
    rw [serializeActionsFrom]
    refine Outcome.pure ?_
    have := h
    rw [← hdone] at this
    exact this
  | cons rule rest =>
    have hrule : rule ∈ rules := by
      rw [h.rules_eq]
      simp
    rw [serializedSize_cons] at hbound
    rw [serializeActionsFrom]
    split
    · rename_i htype
      have hlen := (dropWhile_sublist (consolidates rule) (l := rest)).length_le
      have hsize : serializedSize rest = serializedSize (rest.takeWhile (consolidates rule)) +
            serializedSize (rest.dropWhile (consolidates rule)) := by
        rw [← serializedSize_append, takeWhile_append_dropWhile]
      refine (Memory.appendString_outcome .empty rule.action.string
        (by simp [WTFString.empty, WTFString.length] at hbound ⊢; omega)).bind
        fun string hstr => ?_
      have hstringLength : string.length = rule.action.string.length := by
        rw [WTFString.length, hstr]
        rfl
      refine (consolidateSelectors_outcome string (by omega)).bind
        fun selector hselector => ?_
      obtain ⟨hsel, hselectorLength⟩ := hselector
      refine (serializeSelector_outcome written.actions selector (by omega)).bind
        fun actions hacts => ?_
      have hnext := h.selector htype (by rw [hsel, hstr]; rfl) hacts
      have hactionsLength : actions.length ≤ written.actions.length + 6 + 2 * selector.length := by
        rw [hacts.1, length_append]
        have := length_selector_bytes_le selector
        omega
      have hlast : (rule :: rest.takeWhile (consolidates rule)).getLast? =
          (done ++ rule :: rest.takeWhile (consolidates rule)).getLast? := by
        rw [getLast?_append_of_ne_nil _ (by simp)]
      rw [hlast]
      exact ih _ (by rw [hn, length_cons]; omega) hnext (by dsimp only; omega) rfl
    have hlast : some rule = (done ++ [rule]).getLast? := by simp
    split
    · rename_i htype hequal
      have hbyte := (hparsed rule hrule).type_cases.resolve_right htype
      rw [hlast]
      exact ih _ (by simp [hn]) (h.duplicate hbyte hequal) (by dsimp only; omega) rfl
    · rename_i htype _
      have hbyte := (hparsed rule hrule).type_cases.resolve_right htype
      refine (serializeAction_outcome written.actions hbyte (by omega)).bind fun actions hacts => ?_
      have hactionsLength : actions.length = written.actions.length + 1 := by
        rw [hacts.1]
        simp [bytes]
      rw [hlast]
      exact ih _ (by simp [hn]) (h.byte hbyte hacts) (by dsimp only; omega) rfl

/-- There is a location for every rule, in order, and the action that is read from it is of the
rule's type. For a selector it has the selectors of the run the rule is in. -/
structure IsSerialization (ruleList : List ContentExtensionRule) (written : SerializedActions) :
    Prop where
  length_eq : written.actionLocations.length = ruleList.length
  sorted : written.actionLocations.Pairwise (· ≤ ·)
  deserialize : ∀ i rule, ruleList[i]? = some rule → ∃ location action,
    written.actionLocations[i]? = some location ∧
    Action.deserialize written.actions (UInt32.ofNat written.actions.length)
      (UInt32.ofNat location) = .ok action ∧
    action.type = rule.action.type ∧
    (rule.action.type = .cssDisplayNoneSelector → ∃ front run back,
      ruleList = front ++ run ++ back ∧ front.length ≤ i ∧ i < front.length + run.length ∧
      IsMaximalRun rule front run back ∧
      action.stringArgument.map (·.characters) =
        some (List.intercalate [44] (run.map fun rule => rule.action.string.characters)))

theorem Written.isSerialization (h : Written rules rules [] written) :
    IsSerialization rules written where
  length_eq := h.length_eq
  sorted := h.sorted
  deserialize i rule hrule := by
    have hi : i < written.actionLocations.length := by
      rw [h.length_eq]
      exact (List.getElem?_eq_some_iff.mp hrule).1
    obtain ⟨location, hloc⟩ : ∃ location, written.actionLocations[i]? = some location :=
      ⟨_, getElem?_eq_getElem hi⟩
    obtain ⟨record, hrec, hdesc⟩ := h.described i rule location hrule hloc
    cases hdesc with
    | byte htype =>
      refine ⟨location, _, hloc, deserialize_byte htype hrec h.lt, rfl, fun hsel => ?_⟩
      exact absurd htype (not_isByte_of_selector hsel)
    | selector htype front run back string hrules hle hlt hrun hchars =>
      obtain ⟨string', hstr', hread⟩ := deserialize_selector hrec h.lt
      refine ⟨location, _, hloc, hread, htype.symm, fun _ =>
        ⟨front, run, back, hrules, hle, hlt, hrun, ?_⟩⟩
      exact congrArg some (hstr'.trans hchars)

/-- A parsed rule list is serialized and can be read again, unless a container cannot grow. -/
theorem serializeActions_outcome (memory : Memory) (ruleList : List ContentExtensionRule)
    (hparsed : ∀ rule ∈ ruleList, rule.IsParsed) :
    Outcome (memory.Exhausted (serializedSize ruleList)) (IsSerialization ruleList)
      (serializeActions memory ruleList) :=
  (serializeActionsFrom_outcome hparsed (written_nil ruleList) (by simp)).mono
    fun _ hwritten => hwritten.isSerialization

theorem serializeActions_outcome_selectors :
    let memory : Memory := ⟨fun size => decide (size < 2 ^ 32), fun _ h => of_decide_eq_true h⟩
    let trigger : Trigger := { urlFilter := [97] }
    let selector (character : UInt8) : ContentExtensionRule :=
      ⟨trigger, .ofString .cssDisplayNoneSelector (.ofLChars [character]) Action.defaultActionID⟩
    let block : ContentExtensionRule := ⟨trigger, .ofType .blockLoad Action.defaultActionID⟩
    Outcome (memory.Exhausted 46)
      (IsSerialization [selector 98, selector 99, block, block, selector 100])
      (serializeActions memory [selector 98, selector 99, block, block, selector 100]) := by
  intro memory trigger selector block
  refine serializeActions_outcome memory [selector 98, selector 99, block, block, selector 100] ?_
  have hselector (character : UInt8) : (selector character).IsParsed :=
    ⟨nofun, "css-display-none", some (.ofLChars [character]), rfl⟩
  have hblock : block.IsParsed := ⟨nofun, "block", none, rfl⟩
  simp [hselector, hblock]

end WebKit.ContentExtensions
