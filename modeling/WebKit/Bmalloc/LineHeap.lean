import WebKit.Bmalloc.LineMetadata
import WebKit.Transition.Run

/-!
# Small and medium pages

The part of `Heap` that hands out ranges of small objects: `allocateSmallPage`,
`refillSmallBumpRangeCache` and `deallocateSmallLine`, and their medium copies, which
differ in `LineTraits` only. Chunks are aligned to more than a page, so an address
determines its page and line: page `address / pageSize`, line `address / lineSize`, and
line `lineNumber` of a page is `page * lineCount + lineNumber`.

`LineSystem` adds what the threads hold: the ranges in their caches and allocators, and
the objects their clients own. A small object is freed when the deallocator processes it,
under the heap's lock. The scavenger gives the lock up while it returns a page to the
`VMHeap`; such a page is in `scavenging`.
-/

namespace WebKit.Bmalloc

open Function

structure BumpRange where
  begin : Nat
  objectCount : Nat
  deriving DecidableEq, Repr

/-- The counters of `Line` and `Page`, and the page lists of `Heap` and `VMHeap`. The
first element of a list is the one `pop` returns. -/
structure LineHeap where
  lineRefCount : Nat → Nat
  pageRefCount : Nat → Nat
  pageSizeClass : Nat → Nat
  pagesWithFreeLines : Nat → List Nat
  pages : List Nat
  vmPages : List Nat

namespace LineHeap

variable (t : LineTraits)

def initial : LineHeap where
  lineRefCount _ := 0
  pageRefCount _ := 0
  pageSizeClass _ := 0
  pagesWithFreeLines _ := []
  pages := []
  vmPages := []

/-- `VMHeap::grow`: the pages of a fresh chunk are pushed in order. -/
def grow (h : LineHeap) (chunk : List Nat) : LineHeap :=
  { h with vmPages := chunk.reverse ++ h.vmPages }

/-- The loop of `allocateSmallPage`: the page it returns, if any, and what is left of the
list. A page without objects was promoted to the pages list. -/
def popPageWithFreeLines (h : LineHeap) (sizeClass : Nat) : List Nat → Option Nat × List Nat
  | [] => (none, [])
  | page :: rest =>
    if h.pageRefCount page = 0 ∨ h.pageSizeClass page ≠ sizeClass then
      popPageWithFreeLines h sizeClass rest
    else (some page, rest)

/-- `VMHeap::allocateSmallPage`; `chunk` is the memory the system provides if it grows. -/
def vmAllocatePage (h : LineHeap) (chunk : List Nat) : Option (Nat × LineHeap) :=
  let h := if h.vmPages = [] then h.grow chunk else h
  match h.vmPages with
  | [] => none
  | page :: rest => some (page, { h with vmPages := rest })

/-- A size class is stored in an `unsigned char`. -/
def setSizeClass (h : LineHeap) (page sizeClass : Nat) : LineHeap :=
  { h with pageSizeClass := update h.pageSizeClass page (sizeClass % 256) }

/-- The lambda in `allocateSmallPage`. -/
def takeFreePage (h : LineHeap) (chunk : List Nat) : Option (Nat × LineHeap) :=
  match h.pages with
  | page :: rest => some (page, { h with pages := rest })
  | [] => h.vmAllocatePage chunk

def allocatePage (h : LineHeap) (sizeClass : Nat) (chunk : List Nat) : Option (Nat × LineHeap) :=
  let (popped, rest) := h.popPageWithFreeLines sizeClass (h.pagesWithFreeLines sizeClass)
  let h := { h with pagesWithFreeLines := update h.pagesWithFreeLines sizeClass rest }
  match popped with
  | some page => some (page, h)
  | none => (h.takeFreePage chunk).map fun (page, h) => (page, h.setSizeClass page sizeClass)

/-- `Line::ref` of a line and `Page::ref` of its page; both counters are
`unsigned char`s. -/
def refLine (h : LineHeap) (page lineNumber objectCount : Nat) : LineHeap :=
  { h with
    lineRefCount :=
      update h.lineRefCount (page * t.lineCount + lineNumber) (objectCount % 256)
    pageRefCount := update h.pageRefCount page ((h.pageRefCount page + 1) % 256) }

/-- The nested loops of `refillSmallBumpRangeCache`, over the metadata of the lines from
`lineNumber` on. A range is given while the inner loop merges free lines into it. The
ranges are listed in the order they are pushed. -/
def scanLines (page sizeClass : Nat) :
    LineHeap → Option BumpRange → Nat → List LineMetadata → List BumpRange × LineHeap
  | h, range, _, [] => (range.toList, h)
  | h, none, lineNumber, md :: rest =>
    if h.lineRefCount (page * t.lineCount + lineNumber) ≠ 0 then
      scanLines page sizeClass h none (lineNumber + 1) rest
    else
      scanLines page sizeClass (h.refLine t page lineNumber md.objectCount)
        (some ⟨(page * t.lineCount + lineNumber) * t.lineSize + md.startOffset, md.objectCount⟩)
        (lineNumber + 1) rest
  | h, some range, lineNumber, md :: rest =>
    if h.lineRefCount (page * t.lineCount + lineNumber) ≠ 0 then
      let (ranges, h) := scanLines page sizeClass h none (lineNumber + 1) rest
      (range :: ranges, h)
    else
      scanLines page sizeClass (h.refLine t page lineNumber md.objectCount)
        (some ⟨range.begin, (range.objectCount + md.objectCount) % 65536⟩) (lineNumber + 1) rest

/-- `refillSmallBumpRangeCache`; the cache is empty when it is called. -/
def refillBumpRangeCache (h : LineHeap) (sizeClass : Nat) (chunk : List Nat) :
    Option (List BumpRange × LineHeap) :=
  (h.allocatePage sizeClass chunk).map fun (page, h) =>
    scanLines t page sizeClass h none 0 ((t.lineMetadata sizeClass).take (t.usableLines sizeClass))

/-- `deallocateSmallLine`, for the page of a line whose last object was freed. -/
def deallocateLine (h : LineHeap) (page : Nat) : LineHeap :=
  let refCount := h.pageRefCount page
  let h := { h with pageRefCount := update h.pageRefCount page ((refCount + 255) % 256) }
  -- First free line in the page.
  if refCount = t.lineCount then
    let sizeClass := h.pageSizeClass page
    { h with
      pagesWithFreeLines :=
        update h.pagesWithFreeLines sizeClass (page :: h.pagesWithFreeLines sizeClass) }
  -- Last free line in the page.
  else if refCount = 1 then { h with pages := page :: h.pages }
  else h

/-- `derefSmallLine` of the line an object starts in. -/
def derefLine (h : LineHeap) (object : Nat) : LineHeap :=
  let line := object / t.lineSize
  let refCount := (h.lineRefCount line + 255) % 256
  let h := { h with lineRefCount := update h.lineRefCount line refCount }
  if refCount = 0 then h.deallocateLine t (line / t.lineCount) else h

end LineHeap

/-- An object: its address and its size class. -/
abbrev Object := Nat × Nat

/-- The objects a range stands for. -/
def BumpRange.objects (sizeClass : Nat) (range : BumpRange) : List Object :=
  (List.range range.objectCount).map fun i => (range.begin + i * objectSize sizeClass, sizeClass)

/-- `BumpAllocator::allocate`: the object handed out and the rest of the range. -/
def BumpRange.allocate (sizeClass : Nat) (range : BumpRange) : Option (Nat × BumpRange) :=
  if range.objectCount = 0 then none
  else some (range.begin, ⟨range.begin + objectSize sizeClass, range.objectCount - 1⟩)

structure LineSystem where
  heap : LineHeap
  /-- The ranges in the caches and allocators of the threads, with their size class. -/
  ranges : List (Nat × BumpRange)
  /-- The objects the clients own. -/
  allocated : List Object
  /-- The pages on their way from the heap to the `VMHeap`. -/
  scavenging : List Nat
  /-- Every page of every chunk the system provided. -/
  created : List Nat

/-- What can happen under one hold of the heap's lock, and an allocation from a range. The
chunk of a refill is the memory it gets if it has to grow. -/
inductive LineEvent
  | refill (sizeClass : Nat) (chunk : List Nat)
  | allocate (sizeClass : Nat) (range : BumpRange)
  | free (object : Object)
  | scavengeBegin
  | scavengeEnd (page : Nat)
  | grow (chunk : List Nat)
  deriving DecidableEq

/-- The chunk the system provides has pages, and none that exist already. -/
def FreshChunk (created chunk : List Nat) : Prop :=
  chunk ≠ [] ∧ chunk.Nodup ∧ ∀ page ∈ chunk, page ∉ created

namespace LineSystem

variable (t : LineTraits)

def initial : LineSystem where
  heap := .initial
  ranges := []
  allocated := []
  scavenging := []
  created := []

/-- The objects that were put into a range and not freed since. -/
def outstanding (s : LineSystem) : List Object :=
  s.allocated ++ s.ranges.flatMap fun x => x.2.objects x.1

inductive Step : LineSystem → LineEvent → LineSystem → Prop
  | refill {s : LineSystem} {sizeClass : Nat} {chunk : List Nat} {ranges : List BumpRange}
      {heap : LineHeap} (hserves : t.Serves sizeClass) (hfresh : FreshChunk s.created chunk)
      (hrefill : s.heap.refillBumpRangeCache t sizeClass chunk = some (ranges, heap)) :
      Step s (.refill sizeClass chunk)
        { s with
          heap
          ranges := ranges.map (sizeClass, ·) ++ s.ranges
          created := chunk ++ s.created }
  | allocate {s : LineSystem} {sizeClass object : Nat} {range range' : BumpRange}
      (hrange : (sizeClass, range) ∈ s.ranges)
      (hallocate : range.allocate sizeClass = some (object, range')) :
      Step s (.allocate sizeClass range)
        { s with
          ranges := (sizeClass, range') :: s.ranges.erase (sizeClass, range)
          allocated := (object, sizeClass) :: s.allocated }
  | free {s : LineSystem} {object : Object} (hobject : object ∈ s.allocated) :
      Step s (.free object)
        { s with heap := s.heap.derefLine t object.1, allocated := s.allocated.erase object }
  | scavengeBegin {s : LineSystem} {page : Nat} {rest : List Nat}
      (hpages : s.heap.pages = page :: rest) :
      Step s .scavengeBegin
        { s with heap := { s.heap with pages := rest }, scavenging := page :: s.scavenging }
  | scavengeEnd {s : LineSystem} {page : Nat} (hpage : page ∈ s.scavenging) :
      Step s (.scavengeEnd page)
        { s with
          heap := { s.heap with vmPages := page :: s.heap.vmPages }
          scavenging := s.scavenging.erase page }
  | grow {s : LineSystem} {chunk : List Nat} (hfresh : FreshChunk s.created chunk) :
      Step s (.grow chunk)
        { s with heap := s.heap.grow chunk, created := chunk ++ s.created }

end LineSystem

end WebKit.Bmalloc
