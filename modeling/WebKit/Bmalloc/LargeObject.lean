import Mathlib.Data.Nat.Log
import WebKit.Bmalloc.Sizes

/-!
# Boundary tags and large objects

`BoundaryTag.h`, `LargeChunk.h` and `LargeObject.h`. A large chunk starts at a multiple of
`largeChunkSize` with its boundary tags; an object's begin tag is the tag of the
`largeMin` bytes it starts in, and its end tag is the last tag before that of its
neighbour. A small object has one tag for both.

`Tags` is the tag memory of all chunks, chunk after chunk: tag `n` of the chunk at
`chunk * largeChunkSize` is `chunk * boundaryTagCount + n`, so that the begin tag of an
object is a function of its address. The debug validation of tags is left out.
-/

namespace WebKit.Bmalloc

open Function

inductive Owner
  | vmHeap
  | heap
  deriving DecidableEq, Repr

structure Range where
  begin : Nat
  size : Nat
  deriving DecidableEq, Repr

def Range.end (range : Range) : Nat := range.begin + range.size

structure BoundaryTag where
  isFree : Bool
  isEnd : Bool
  owner : Owner
  isMarked : Bool
  compactBegin : Nat
  size : Nat
  deriving DecidableEq, Repr

namespace BoundaryTag

/-- What `clear` leaves, and what fresh memory holds. -/
def null : BoundaryTag := ⟨false, false, .vmHeap, false, 0, 0⟩

def compactBeginOf (object : Nat) : Nat := object % largeMin / largeAlignment

def setFree (isFree : Bool) (tag : BoundaryTag) : BoundaryTag := { tag with isFree }
def setOwner (owner : Owner) (tag : BoundaryTag) : BoundaryTag := { tag with owner }
def setMarked (isMarked : Bool) (tag : BoundaryTag) : BoundaryTag := { tag with isMarked }

/-- The begin takes four bits, the size twenty-four. -/
def setRange (range : Range) (tag : BoundaryTag) : BoundaryTag :=
  { tag with
    compactBegin := compactBeginOf range.begin % 2 ^ 4
    size := range.size % 2 ^ 24 }

def initSentinel (tag : BoundaryTag) : BoundaryTag :=
  ((tag.setRange ⟨0, largeMin⟩).setFree false).setOwner .vmHeap

end BoundaryTag

abbrev Tags := Nat → BoundaryTag

namespace Tags

def modify (tags : Tags) (tag : Nat) (f : BoundaryTag → BoundaryTag) : Tags :=
  update tags tag (f (tags tag))

def clear (tags : Tags) (tag : Nat) : Tags := update tags tag .null

/-- `EndTag::init`. An object can have only one tag, which must not become an end tag. -/
def initEnd (tags : Tags) (endTag beginTag : Nat) : Tags :=
  if endTag = beginTag then tags
  else update tags endTag { tags beginTag with isEnd := true }

end Tags

namespace LargeChunk

def boundaryTagCount : Nat := largeChunkSize / largeMin

/-- The tags take four bytes each; the memory starts behind them, on a page boundary. -/
def begin (chunk : Nat) : Nat := chunk * largeChunkSize + 4 * boundaryTagCount

def beginTag (object : Nat) : Nat := object / largeMin - 1

/-- Subtracting `largeMin` rounds down to the last boundary tag prior to our neighbour. -/
def endTag (object size : Nat) : Nat := (object + size - largeMin) / largeMin - 1

end LargeChunk

def LargeChunk.end (chunk : Nat) : Nat := chunk * largeChunkSize + largeChunkSize

/-- An object in the hands of the heap: its tags and its address. -/
structure LargeObject where
  beginTag : Nat
  endTag : Nat
  object : Nat
  deriving DecidableEq, Repr

namespace LargeObject

/-- The object at an address, as its begin tag describes it. -/
def get (tags : Tags) (object : Nat) : LargeObject where
  beginTag := LargeChunk.beginTag object
  endTag := LargeChunk.endTag object (tags (LargeChunk.beginTag object)).size
  object

def begin (o : LargeObject) : Nat := o.object
def size (tags : Tags) (o : LargeObject) : Nat := (tags o.beginTag).size
def range (tags : Tags) (o : LargeObject) : Range := ⟨o.object, o.size tags⟩
def isFree (tags : Tags) (o : LargeObject) : Bool := (tags o.beginTag).isFree
def owner (tags : Tags) (o : LargeObject) : Owner := (tags o.beginTag).owner
def isMarked (tags : Tags) (o : LargeObject) : Bool := (tags o.beginTag).isMarked

/-- The setters write both tags. -/
def setTags (tags : Tags) (o : LargeObject) (f : BoundaryTag → BoundaryTag) : Tags :=
  (tags.modify o.beginTag f).modify o.endTag f

def setFree (tags : Tags) (o : LargeObject) (isFree : Bool) : Tags :=
  o.setTags tags (.setFree isFree)
def setOwner (tags : Tags) (o : LargeObject) (owner : Owner) : Tags :=
  o.setTags tags (.setOwner owner)
def setMarked (tags : Tags) (o : LargeObject) (isMarked : Bool) : Tags :=
  o.setTags tags (.setMarked isMarked)

/-- Whether an entry of a free list still stands for a free object. -/
def isValidAndFree (tags : Tags) (o : LargeObject) (expectedOwner : Owner)
    (expectedSize : Nat) : Bool :=
  let tag := tags o.beginTag
  tag.isFree && !tag.isEnd && tag.size = expectedSize &&
    tag.compactBegin = BoundaryTag.compactBeginOf o.object && tag.owner = expectedOwner

/-- A neighbour's tag allows a merge with it. -/
def canMerge (tag : BoundaryTag) (owner : Owner) : Bool := tag.isFree && tag.owner = owner

/-- The first half of `merge`: the begin tag and the range, with the left neighbour. -/
def mergeLeft (tags : Tags) (beginTag : Nat) (range : Range) (owner : Owner) :
    Nat × Range × Tags :=
  let prev := beginTag - 1
  if canMerge (tags prev) owner then
    let left : Range := ⟨range.begin - (tags prev).size, (tags prev).size⟩
    let range : Range := ⟨left.begin, left.size + range.size⟩
    (LargeChunk.beginTag range.begin, range, (tags.clear prev).clear beginTag)
  else (beginTag, range, tags)

/-- The second half of `merge`: the end tag and the range, with the right neighbour. -/
def mergeRight (tags : Tags) (endTag : Nat) (range : Range) (owner : Owner) :
    Nat × Range × Tags :=
  let next := endTag + 1
  if canMerge (tags next) owner then
    let right : Range := ⟨range.end, (tags next).size⟩
    let range : Range := ⟨range.begin, range.size + right.size⟩
    (LargeChunk.endTag range.begin range.size, range, (tags.clear endTag).clear next)
  else (endTag, range, tags)

def merge (tags : Tags) (o : LargeObject) : LargeObject × Tags :=
  let owner := o.owner tags
  let (beginTag, range, tags) := mergeLeft tags o.beginTag (o.range tags) owner
  let (endTag, range, tags) := mergeRight tags o.endTag range owner
  let tags := ((tags.modify beginTag (.setRange range)).modify beginTag (.setFree true)).modify
    beginTag (.setOwner owner)
  (⟨beginTag, endTag, range.begin⟩, tags.initEnd endTag beginTag)

def split (tags : Tags) (o : LargeObject) (size : Nat) : LargeObject × LargeObject × Tags :=
  let split : Range := ⟨o.begin, size⟩
  let leftover : Range := ⟨split.end, o.size tags - size⟩
  let splitEndTag := LargeChunk.endTag split.begin size
  let leftoverBeginTag := LargeChunk.beginTag leftover.begin
  let tags := (tags.modify o.beginTag (.setRange split)).initEnd splitEndTag o.beginTag
  let tags : Tags := update tags leftoverBeginTag (tags o.beginTag)
  let tags := (tags.modify leftoverBeginTag (.setRange leftover)).initEnd o.endTag leftoverBeginTag
  (⟨o.beginTag, splitEndTag, split.begin⟩, ⟨leftoverBeginTag, o.endTag, leftover.begin⟩, tags)

/-- `LargeObject::init`: one free object that fills the chunk, between two sentinels. -/
def init (tags : Tags) (chunk : Nat) : Range × Tags :=
  let range : Range := ⟨LargeChunk.begin chunk, LargeChunk.end chunk - LargeChunk.begin chunk⟩
  let beginTag := LargeChunk.beginTag range.begin
  let endTag := LargeChunk.endTag range.begin range.size
  let tags := ((tags.modify beginTag (.setRange range)).modify beginTag (.setFree true)).modify
    beginTag (.setOwner .vmHeap)
  let tags := tags.initEnd endTag beginTag
  (range, (tags.modify (beginTag - 1) .initSentinel).modify (endTag + 1) .initSentinel)

end LargeObject

/-!
## Free lists of large objects

`FreeList.cpp` and `SegregatedFreeList.cpp`. A free list is a vector of ranges, some of
them invalid or duplicate: entries are removed as they are found invalid during
allocation, and when the list reaches its limit. The two versions of `take` differ in the
test an object must pass (`fits`, `fitsAligned`). A search that starts at index `i` of a
vector of size `i + n` takes at most `n` rounds: each round removes an entry or moves on.
-/

/-- `Vector::pop(i)`: the last entry takes the place of the one that is removed. -/
def Range.popAt (vector : List Range) (i : Nat) : List Range :=
  let rest := vector.drop (i + 1)
  vector.take i ++ (rest.getLast?.toList ++ rest.dropLast)

structure FreeList where
  vector : List Range
  limit : Nat
  deriving DecidableEq, Repr

namespace FreeList

def initial : FreeList := ⟨[], freeListSearchDepth⟩

/-- Whether an entry is still valid, for a list of the owner. -/
def isValid (tags : Tags) (owner : Owner) (range : Range) : Bool :=
  (LargeObject.get tags range.begin).isValidAndFree tags owner range.size

/-- The loop of `takeGreedy`, which never leaves the first index. -/
def takeGreedyLoop (tags : Tags) (owner : Owner) :
    Nat → List Range → Option LargeObject × List Range
  | 0, vector => (none, vector)
  | _ + 1, [] => (none, [])
  | n + 1, range :: rest =>
    if isValid tags owner range then
      (some (.get tags range.begin), Range.popAt (range :: rest) 0)
    else takeGreedyLoop tags owner n (Range.popAt (range :: rest) 0)

def takeGreedy (list : FreeList) (tags : Tags) (owner : Owner) : Option LargeObject × FreeList :=
  let (object, vector) := takeGreedyLoop tags owner list.vector.length list.vector
  (object, { list with vector })

/-- What `take(owner, size)` asks of an object. -/
def fits (size : Nat) (tags : Tags) (object : LargeObject) : Bool :=
  size ≤ object.size tags

/-- What `take(owner, alignment, size, unalignedSize)` asks of an object. -/
def fitsAligned (alignment size unalignedSize : Nat) (tags : Tags) (object : LargeObject) :
    Bool :=
  size ≤ object.size tags &&
    !(object.begin % alignment ≠ 0 && object.size tags < unalignedSize)

/-- The search loop of `take`, with the candidate so far and its index: of the objects that
pass the test, the one at the lowest address. -/
def takeLoop (tags : Tags) (owner : Owner) (test : Tags → LargeObject → Bool) :
    Nat → Nat → List Range → Option (LargeObject × Nat) →
      Option (LargeObject × Nat) × List Range
  | 0, _, vector, candidate => (candidate, vector)
  | n + 1, i, vector, candidate =>
    match vector[i]? with
    | none => (candidate, vector)
    | some range =>
      let object := LargeObject.get tags range.begin
      if isValid tags owner range = false then
        takeLoop tags owner test n i (Range.popAt vector i) candidate
      else if test tags object = false then
        takeLoop tags owner test n (i + 1) vector candidate
      else if candidate.any fun best => best.1.begin < object.begin then
        takeLoop tags owner test n (i + 1) vector candidate
      else takeLoop tags owner test n (i + 1) vector (some (object, i))

/-- The end of `take`: the candidate's entry is removed. -/
def finishTake (list : FreeList) :
    Option (LargeObject × Nat) × List Range → Option LargeObject × FreeList
  | (none, vector) => (none, { list with vector })
  | (some (object, i), vector) => (some object, { list with vector := Range.popAt vector i })

/-- The search starts `freeListSearchDepth` entries before the end. -/
def take (list : FreeList) (tags : Tags) (owner : Owner) (test : Tags → LargeObject → Bool) :
    Option LargeObject × FreeList :=
  let begin := list.vector.length - freeListSearchDepth
  list.finishTake (takeLoop tags owner test (list.vector.length - begin) begin list.vector none)

/-- The first loop of `removeInvalidAndDuplicateEntries` takes the marks off. -/
def unmarkLoop (owner : Owner) : Nat → Nat → Tags → List Range → Tags × List Range
  | 0, _, tags, vector => (tags, vector)
  | n + 1, i, tags, vector =>
    match vector[i]? with
    | none => (tags, vector)
    | some range =>
      if isValid tags owner range = false then
        unmarkLoop owner n i tags (Range.popAt vector i)
      else
        unmarkLoop owner n (i + 1)
          ((LargeObject.get tags range.begin).setMarked tags false) vector

/-- The second loop marks each object and removes the entries of marked ones. -/
def markLoop : Nat → Nat → Tags → List Range → Tags × List Range
  | 0, _, tags, vector => (tags, vector)
  | n + 1, i, tags, vector =>
    match vector[i]? with
    | none => (tags, vector)
    | some range =>
      if (LargeObject.get tags range.begin).isMarked tags then
        markLoop n i tags (Range.popAt vector i)
      else
        markLoop n (i + 1) ((LargeObject.get tags range.begin).setMarked tags true) vector

def removeInvalidAndDuplicateEntries (list : FreeList) (tags : Tags) (owner : Owner) :
    Tags × FreeList :=
  let (tags, vector) := unmarkLoop owner list.vector.length 0 tags list.vector
  let (tags, vector) := markLoop vector.length 0 tags vector
  (tags, { list with vector })

def push (list : FreeList) (tags : Tags) (owner : Owner) (object : LargeObject) :
    Tags × FreeList :=
  let (tags, list) :=
    if list.vector.length = list.limit then
      let (tags, list) := list.removeInvalidAndDuplicateEntries tags owner
      (tags, { list with
        limit := max (list.vector.length * freeListGrowFactor) freeListSearchDepth })
    else (tags, list)
  (tags, { list with vector := list.vector ++ [object.range tags] })

end FreeList

/-- The free lists of one owner, by the magnitude of the object's size. -/
structure SegregatedFreeList where
  owner : Owner
  freeLists : List FreeList
  deriving DecidableEq, Repr

namespace SegregatedFreeList

def freeListCount : Nat := 19

def initial (owner : Owner) : SegregatedFreeList :=
  ⟨owner, List.replicate freeListCount .initial⟩

/-- The index `select` computes: the number of bits of the count of alignments. -/
def select (size : Nat) : Nat :=
  let alignCount := (size - largeMin) / largeAlignment
  if alignCount = 0 then 0 else Nat.log2 alignCount + 1

/-- `insert` pushes into the list the object's size selects. -/
def insert (lists : SegregatedFreeList) (tags : Tags) (object : LargeObject) :
    Tags × SegregatedFreeList :=
  let i := select (object.size tags)
  match lists.freeLists[i]? with
  | none => (tags, lists)
  | some list =>
    let (tags, list) := list.push tags lists.owner object
    (tags, { lists with freeLists := lists.freeLists.set i list })

/-- The loop of `take` over the lists behind the first `skip`. -/
def takeLoop (tags : Tags) (owner : Owner) (test : Tags → LargeObject → Bool) :
    Nat → List FreeList → Option LargeObject × List FreeList
  | _, [] => (none, [])
  | skip + 1, list :: lists =>
    let rest := takeLoop tags owner test skip lists
    (rest.1, list :: rest.2)
  | 0, list :: lists =>
    let first := list.take tags owner test
    if first.1.isSome then (first.1, first.2 :: lists)
    else
      let rest := takeLoop tags owner test 0 lists
      (rest.1, first.2 :: rest.2)

def take (lists : SegregatedFreeList) (tags : Tags) (size : Nat)
    (test : Tags → LargeObject → Bool) : Option LargeObject × SegregatedFreeList :=
  let (object, freeLists) := takeLoop tags lists.owner test (select size) lists.freeLists
  (object, { lists with freeLists })

/-- The loop of `takeGreedy`, from the last list to the first. -/
def takeGreedyLoop (tags : Tags) (owner : Owner) :
    List FreeList → Option LargeObject × List FreeList
  | [] => (none, [])
  | list :: lists =>
    let rest := takeGreedyLoop tags owner lists
    if rest.1.isSome then (rest.1, list :: rest.2)
    else
      let first := list.takeGreedy tags owner
      (first.1, first.2 :: rest.2)

def takeGreedy (lists : SegregatedFreeList) (tags : Tags) :
    Option LargeObject × SegregatedFreeList :=
  let (object, freeLists) := takeGreedyLoop tags lists.owner lists.freeLists
  (object, { lists with freeLists })

end SegregatedFreeList

end WebKit.Bmalloc
