import WebKit.ContentExtensions.Term

/-!
# `CombinedURLFilters`

The prefix tree of the patterns of a rule list, and the graphs that are made of it. The edges
of a vertex are a hash map from terms to vertices, here in the order of insertion; an
`ActionSet` is a set of action ids.
-/

namespace WebKit.ContentExtensions

inductive PrefixTreeVertex
  | mk (edges : List (Term × PrefixTreeVertex)) (finalActions : List ℕ)
      (inVariableLengthPrefix : Bool)

namespace PrefixTreeVertex

def edges : PrefixTreeVertex → List (Term × PrefixTreeVertex)
  | .mk edges _ _ => edges

def finalActions : PrefixTreeVertex → List ℕ
  | .mk _ finalActions _ => finalActions

def inVariableLengthPrefix : PrefixTreeVertex → Bool
  | .mk _ _ inVariableLengthPrefix => inVariableLengthPrefix

def create : PrefixTreeVertex := .mk [] [] false

/-- `HashMap::find`. -/
def find (term : Term) : List (Term × PrefixTreeVertex) → Option PrefixTreeVertex
  | [] => none
  | (key, vertex) :: edges => if key = term then some vertex else find term edges

/-- `HashMap::set`, also for a change of the vertex that an edge leads to. -/
def set (term : Term) (vertex : PrefixTreeVertex) :
    List (Term × PrefixTreeVertex) → List (Term × PrefixTreeVertex)
  | [] => [(term, vertex)]
  | (key, old) :: edges =>
    if key = term then (key, vertex) :: edges else (key, old) :: set term vertex edges

/-- `ActionSet::add`. -/
def addAction (actionId : ℕ) (actions : List ℕ) : List ℕ :=
  if actionId ∈ actions then actions else actions ++ [actionId]

/-- The tree with the pattern, and `hasNewTerm`. -/
def extend (actionId : ℕ) : List Term → PrefixTreeVertex → PrefixTreeVertex × Bool
  | [], .mk edges finalActions inVariableLengthPrefix =>
    (.mk edges (addAction actionId finalActions) inVariableLengthPrefix, false)
  | term :: pattern, .mk edges finalActions inVariableLengthPrefix =>
    match find term edges with
    | some next =>
      let extended := extend actionId pattern next
      (.mk (set term extended.1 edges) finalActions inVariableLengthPrefix, extended.2)
    | none =>
      let extended := extend actionId pattern create
      (.mk (set term extended.1 edges) finalActions inVariableLengthPrefix, true)

def mark (hasSeenVariableLengthTerms : Bool) : PrefixTreeVertex → PrefixTreeVertex
  | .mk edges finalActions inVariableLengthPrefix =>
    .mk edges finalActions (inVariableLengthPrefix || hasSeenVariableLengthTerms)

/-- The loop over the terms from the last one: the vertices after them are marked, and the
result is `hasSeenVariableLengthTerms`. -/
def markVariableLengthPrefixes : List Term → PrefixTreeVertex → PrefixTreeVertex × Bool
  | [], vertex => (vertex, false)
  | term :: pattern, .mk edges finalActions inVariableLengthPrefix =>
    match find term edges with
    | some next =>
      let marked := markVariableLengthPrefixes pattern next
      let hasSeenVariableLengthTerms := marked.2 || !term.hasFixedLength
      (.mk (set term (marked.1.mark hasSeenVariableLengthTerms) edges) finalActions
        inVariableLengthPrefix, hasSeenVariableLengthTerms)
    | none => (.mk edges finalActions inVariableLengthPrefix, false)

/-- `CombinedURLFilters::addPattern`, at the root of the tree. -/
def addPattern (actionId : ℕ) (pattern : List Term) (root : PrefixTreeVertex) :
    PrefixTreeVertex :=
  if pattern.isEmpty then root
  else
    let extended := extend actionId pattern root
    if !extended.2 then extended.1
    else
      let marked := markVariableLengthPrefixes pattern extended.1
      marked.1.mark marked.2

/-! ## The graphs of the tree

The stacks of active subtrees are recursions here.
-/

mutual

def generateNFAForSubtree (nfa : NFA) (rootId : ℕ) : PrefixTreeVertex → NFA
  | .mk edges _ _ => generateNFAForEdges nfa rootId edges

def generateNFAForEdges (nfa : NFA) (lastNodeIndex : ℕ) : List (Term × PrefixTreeVertex) → NFA
  | [] => nfa
  | (term, vertex) :: edges =>
    if vertex.inVariableLengthPrefix then generateNFAForEdges nfa lastNodeIndex edges
    else
      let (nfa, newEndNodeIndex) := term.generateGraph nfa lastNodeIndex vertex.finalActions
      generateNFAForEdges (generateNFAForSubtree nfa newEndNodeIndex vertex) lastNodeIndex edges

end

/-- An NFA is generated for the vertex itself. -/
def needToGenerate (vertex : PrefixTreeVertex) : Bool :=
  (vertex.edges.isEmpty && !vertex.finalActions.isEmpty) ||
    vertex.edges.any fun edge => !edge.2.inVariableLengthPrefix

/-- The graph of the terms on the active stack, and its end. -/
def generatePrefix (generatingNFA : NFA) (prefixEnd : ℕ) :
    List (Term × PrefixTreeVertex) → NFA × ℕ
  | [] => (generatingNFA, prefixEnd)
  | (term, vertex) :: activeStack =>
    let (generatingNFA, prefixEnd) :=
      term.generateGraph generatingNFA prefixEnd vertex.finalActions
    generatePrefix generatingNFA prefixEnd activeStack

/-- The NFA for a vertex, from the terms and the vertices on the active stack. -/
def generateNFA (activeStack : List (Term × PrefixTreeVertex)) (vertex : PrefixTreeVertex) : NFA :=
  let (generatingNFA, prefixEnd) := generatePrefix NFA.create NFA.create.root activeStack
  vertex.edges.foldl (fun generatingNFA edge =>
    if edge.2.inVariableLengthPrefix then generatingNFA
    else
      let (generatingNFA, newSubtreeStart) :=
        edge.1.generateGraph generatingNFA prefixEnd edge.2.finalActions
      generateNFAForSubtree generatingNFA newSubtreeStart edge.2) generatingNFA

mutual

def createNFAsFrom (activeStack : List (Term × PrefixTreeVertex)) : PrefixTreeVertex → List NFA
  | .mk edges finalActions inVariableLengthPrefix =>
    let vertex := .mk edges finalActions inVariableLengthPrefix
    createNFAsOfEdges activeStack edges ++
      if vertex.needToGenerate then [generateNFA activeStack vertex] else []

def createNFAsOfEdges (activeStack : List (Term × PrefixTreeVertex)) :
    List (Term × PrefixTreeVertex) → List NFA
  | [] => []
  | (term, vertex) :: edges =>
    (if vertex.inVariableLengthPrefix then
      createNFAsFrom (activeStack ++ [(term, vertex)]) vertex else []) ++
      createNFAsOfEdges activeStack edges

end

/-- `createNFAs`. -/
def createNFAs (root : PrefixTreeVertex) : List NFA := createNFAsFrom [] root

/-- The tree has the pattern with this action. -/
def Has (actionId : ℕ) : List Term → PrefixTreeVertex → Prop
  | [], vertex => actionId ∈ vertex.finalActions
  | term :: pattern, vertex =>
    match find term vertex.edges with
    | some next => Has actionId pattern next
    | none => False

variable {term : Term} {vertex next : PrefixTreeVertex} {edges : List (Term × PrefixTreeVertex)}
  {actionId : ℕ} {pattern : List Term}

@[simp]
theorem find_set : find term (set term next edges) = some next := by
  induction edges with
  | nil => simp [set, find]
  | cons edge edges ih =>
    obtain ⟨key, old⟩ := edge
    by_cases hkey : key = term
    · simp [set, find, hkey]
    · simp [set, find, hkey, ih]

theorem set_eq_self (h : find term edges = some next) : set term next edges = edges := by
  induction edges with
  | nil => cases h
  | cons edge edges ih =>
    obtain ⟨key, old⟩ := edge
    by_cases hkey : key = term
    · simp only [find, if_pos hkey, Option.some.injEq] at h
      simp only [set, if_pos hkey, h]
    · simp only [find, if_neg hkey] at h
      simp only [set, if_neg hkey, ih h]

theorem mem_addAction {actions : List ℕ} : actionId ∈ addAction actionId actions := by
  unfold addAction
  split
  · assumption
  · simp

theorem has_mark {marked : Bool} : Has actionId pattern (vertex.mark marked) ↔
    Has actionId pattern vertex := by
  cases vertex
  cases pattern <;> exact Iff.rfl

theorem has_extend : Has actionId pattern (extend actionId pattern vertex).1 := by
  induction pattern generalizing vertex with
  | nil =>
    cases vertex
    exact mem_addAction
  | cons term pattern ih =>
    obtain ⟨edges, finalActions, inVariableLengthPrefix⟩ := vertex
    unfold extend
    split <;> simp [Has, PrefixTreeVertex.edges, ih]

theorem has_markVariableLengthPrefixes (h : Has actionId pattern vertex) :
    Has actionId pattern (markVariableLengthPrefixes pattern vertex).1 := by
  induction pattern generalizing vertex with
  | nil => exact h
  | cons term pattern ih =>
    obtain ⟨edges, finalActions, inVariableLengthPrefix⟩ := vertex
    simp only [Has, PrefixTreeVertex.edges] at h
    unfold markVariableLengthPrefixes
    split
    · rename_i next hfind
      rw [hfind] at h
      simp only [Has, PrefixTreeVertex.edges, find_set]
      exact has_mark.mpr (ih h)
    · rename_i hfind
      rw [hfind] at h
      cases h

theorem has_addPattern (hpat : pattern ≠ []) :
    Has actionId pattern (addPattern actionId pattern vertex) := by
  unfold addPattern
  rw [if_neg (by simpa using hpat)]
  simp only
  split
  · exact has_extend
  · exact has_mark.mpr (has_markVariableLengthPrefixes has_extend)

theorem extend_of_has (h : Has actionId pattern vertex) :
    extend actionId pattern vertex = (vertex, false) := by
  induction pattern generalizing vertex with
  | nil =>
    obtain ⟨edges, finalActions, inVariableLengthPrefix⟩ := vertex
    have hmem : actionId ∈ finalActions := h
    simp [extend, addAction, hmem]
  | cons term pattern ih =>
    obtain ⟨edges, finalActions, inVariableLengthPrefix⟩ := vertex
    simp only [Has, PrefixTreeVertex.edges] at h
    unfold extend
    split
    · rename_i next hfind
      rw [hfind] at h
      simp only [ih h, set_eq_self hfind]
    · rename_i hfind
      rw [hfind] at h
      cases h

theorem addPattern_eq_self_iff (hpat : pattern ≠ []) :
    addPattern actionId pattern vertex = vertex ↔ Has actionId pattern vertex := by
  constructor
  · intro h
    rw [← h]
    exact has_addPattern hpat
  · intro h
    unfold addPattern
    rw [if_neg (by simpa using hpat), extend_of_has h]
    rfl

end PrefixTreeVertex

end WebKit.ContentExtensions
