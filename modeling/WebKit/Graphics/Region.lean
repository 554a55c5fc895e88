import Mathlib

/-!
# Regions

A `Region` is a set of points of a grid, kept as its bounding rectangle and a `Shape`. The
shape divides the plane into spans of rows: each span has the row where it begins and an
index into a common vector of segments, the columns at which the span goes in and out of the
set. Union, intersection and difference are one scanline merge of two shapes, which is
parameterised by an opcode and by what becomes of the segments and spans that are left when
one of the two has ended.

Coordinates are integers here. They stand for an `int` as long as no difference of two of
them overflows.
-/

namespace WebKit.Graphics

structure IntPoint where
  x : ℤ
  y : ℤ
  deriving DecidableEq, Repr

structure IntSize where
  width : ℤ
  height : ℤ
  deriving DecidableEq, Repr

structure IntRect where
  x : ℤ
  y : ℤ
  width : ℤ
  height : ℤ
  deriving DecidableEq, Repr

namespace IntRect

def empty : IntRect := ⟨0, 0, 0, 0⟩

def maxX (r : IntRect) : ℤ := r.x + r.width

def maxY (r : IntRect) : ℤ := r.y + r.height

def isEmpty (r : IntRect) : Bool := r.width ≤ 0 || r.height ≤ 0

def intersects (r other : IntRect) : Bool :=
  !r.isEmpty && !other.isEmpty && r.x < other.maxX && other.x < r.maxX && r.y < other.maxY &&
    other.y < r.maxY

def contains (r other : IntRect) : Bool :=
  r.x ≤ other.x && r.maxX ≥ other.maxX && r.y ≤ other.y && r.maxY ≥ other.maxY

def containsPoint (r : IntRect) (p : IntPoint) : Bool :=
  p.x ≥ r.x && p.x < r.maxX && p.y ≥ r.y && p.y < r.maxY

def unite (r other : IntRect) : IntRect :=
  if other.isEmpty then r
  else if r.isEmpty then other
  else
    let left := min r.x other.x
    let top := min r.y other.y
    let right := max r.maxX other.maxX
    let bottom := max r.maxY other.maxY
    ⟨left, top, right - left, bottom - top⟩

def move (r : IntRect) (size : IntSize) : IntRect :=
  { r with x := r.x + size.width, y := r.y + size.height }

end IntRect

/-- The row where a span begins, and where its segments begin. -/
structure Span where
  y : ℤ
  segmentIndex : ℕ
  deriving DecidableEq, Repr

structure Shape where
  segments : List ℤ
  spans : List Span
  deriving DecidableEq, Repr

/-- A span iterator is the rest of the spans. -/
abbrev SpanIterator := List Span

namespace Shape

def empty : Shape := ⟨[], []⟩

def isEmpty (shape : Shape) : Bool := shape.spans.isEmpty

def isRect (shape : Shape) : Bool := shape.spans.length ≤ 2 && shape.segments.length ≤ 2

/-- `appendSpan(int)` -/
def appendSpanAt (shape : Shape) (y : ℤ) : Shape :=
  { shape with spans := shape.spans ++ [⟨y, shape.segments.length⟩] }

def appendSegment (shape : Shape) (x : ℤ) : Shape :=
  { shape with segments := shape.segments ++ [x] }

def ofRect (rect : IntRect) : Shape :=
  ((((empty.appendSpanAt rect.y).appendSegment rect.x).appendSegment rect.maxX).appendSpanAt
    rect.maxY)

/-- A pointer to the first segment of a span; `none` is the null pointer. -/
def segmentsBegin (shape : Shape) : SpanIterator → Option ℕ
  | [] => none
  | span :: _ =>
    if span.segmentIndex = shape.segments.length then none else some span.segmentIndex

/-- A pointer past the last segment of a span. A span with segments has another one after it. -/
def segmentsEnd (shape : Shape) : SpanIterator → Option ℕ
  | [] => none
  | span :: rest =>
    if span.segmentIndex = shape.segments.length then none
    else some ((rest.head?.map Span.segmentIndex).getD shape.segments.length)

/-- The segments from `segments_begin` to `segments_end`. -/
def segmentsOf (shape : Shape) (it : SpanIterator) : List ℤ :=
  match shape.segmentsBegin it, shape.segmentsEnd it with
  | some first, some last => (shape.segments.take last).drop first
  | _, _ => []

/-- The rows and segments of the spans from an iterator on. -/
def bandsFrom (shape : Shape) : SpanIterator → List (ℤ × List ℤ)
  | [] => []
  | span :: rest => (span.y, shape.segmentsOf (span :: rest)) :: shape.bandsFrom rest

/-- The rows and segments of all spans. -/
def bands (shape : Shape) : List (ℤ × List ℤ) := shape.bandsFrom shape.spans

/-- The last span has the same segments. -/
def canCoalesce (shape : Shape) (segments : List ℤ) : Bool :=
  match shape.spans.getLast? with
  | none => false
  | some span => shape.segments.drop span.segmentIndex = segments

def appendSpan (shape : Shape) (y : ℤ) (segments : List ℤ) : Shape :=
  if shape.canCoalesce segments then shape
  else
    let shape := shape.appendSpanAt y
    { shape with segments := shape.segments ++ segments }

def appendSpans (shape : Shape) : List (ℤ × List ℤ) → Shape
  | [] => shape
  | (y, segments) :: rest => (shape.appendSpan y segments).appendSpans rest

/-- The loop of `bounds`. The columns are read through the pointers, also where a span has no
segments of its own. -/
def boundsFrom (shape : Shape) : SpanIterator → ℤ → ℤ → ℤ × ℤ
  | span :: next :: rest, minX, maxX =>
    match shape.segmentsBegin (span :: next :: rest), shape.segmentsEnd (span :: next :: rest) with
    | some first, some last =>
      let firstSegment := shape.segments.getD first 0
      let lastSegment := shape.segments.getD (last - 1) 0
      let minX := if firstSegment < minX then firstSegment else minX
      let maxX := if lastSegment > maxX then lastSegment else maxX
      shape.boundsFrom (next :: rest) minX maxX
    | _, _ => shape.boundsFrom (next :: rest) minX maxX
  | _, minX, maxX => (minX, maxX)

def bounds (shape : Shape) : IntRect :=
  match shape.spans.head?, shape.spans.getLast? with
  | some first, some last =>
    let minY := first.y
    let maxY := last.y
    let (minX, maxX) := shape.boundsFrom shape.spans (2 ^ 31 - 1) (-2 ^ 31)
    ⟨minX, minY, maxX - minX, maxY - minY⟩
  | _, _ => .empty

def translate (shape : Shape) (offset : IntSize) : Shape where
  segments := shape.segments.map (· + offset.width)
  spans := shape.spans.map fun span => { span with y := span.y + offset.height }

/-- The rectangles of one span. -/
def spanRects (y height : ℤ) : List ℤ → List IntRect
  | x :: maxX :: segments => ⟨x, y, maxX - x, height⟩ :: spanRects y height segments
  | _ => []

def rectsFrom : List (ℤ × List ℤ) → List IntRect
  | (y, segments) :: (maxY, next) :: rest =>
    spanRects y (maxY - y) segments ++ rectsFrom ((maxY, next) :: rest)
  | _ => []

end Shape

/-- The constants an operation is made of. -/
structure ShapeOperation where
  opCode : ℕ
  shouldAddRemainingSegmentsFromSpan1 : Bool
  shouldAddRemainingSegmentsFromSpan2 : Bool
  shouldAddRemainingSpansFromShape1 : Bool
  shouldAddRemainingSpansFromShape2 : Bool
  /-- Whether an empty first shape makes the result the second one. -/
  copiesIfFirstIsEmpty : Bool
  deriving DecidableEq, Repr

namespace ShapeOperation

def union : ShapeOperation := ⟨0, true, true, true, true, true⟩

def intersection : ShapeOperation := ⟨3, false, false, false, false, false⟩

def difference : ShapeOperation := ⟨1, true, false, true, false, false⟩

variable (operation : ShapeOperation)

/-- The segments of two spans; `flag` says in which of the two the scan is. -/
def mergeSegments (flag : ℕ) : List ℤ → List ℤ → List ℤ
  | x₁ :: s₁, x₂ :: s₂ =>
    let test := x₁ - x₂
    let x := if test ≥ 0 then x₂ else x₁
    let flag₁ := if test ≤ 0 then flag ^^^ 1 else flag
    let flag₂ := if test ≥ 0 then flag₁ ^^^ 2 else flag₁
    let segments := mergeSegments flag₂ (if test ≤ 0 then s₁ else x₁ :: s₁)
      (if test ≥ 0 then s₂ else x₂ :: s₂)
    if flag₂ = operation.opCode || flag = operation.opCode then x :: segments else segments
  | s₁, s₂ =>
    if operation.shouldAddRemainingSegmentsFromSpan1 && s₁ ≠ [] then s₁
    else if operation.shouldAddRemainingSegmentsFromSpan2 && s₂ ≠ [] then s₂
    else []
  termination_by s₁ s₂ => s₁.length + s₂.length
  decreasing_by
    split <;> split <;> simp only [List.length_cons] <;> omega

/-- The spans of two shapes are merged into a result; `segments₁` and `segments₂` are those of
the spans that have begun. -/
def mergeSpans : List (ℤ × List ℤ) → List (ℤ × List ℤ) → List ℤ → List ℤ → Shape → Shape
  | (y₁, new₁) :: spans₁, (y₂, new₂) :: spans₂, segments₁, segments₂, result =>
    let test := y₁ - y₂
    let y := if test ≥ 0 then y₂ else y₁
    let segments₁ := if test ≤ 0 then new₁ else segments₁
    let segments₂ := if test ≥ 0 then new₂ else segments₂
    let segments := operation.mergeSegments 0 segments₁ segments₂
    let result :=
      if segments ≠ [] || !result.isEmpty then result.appendSpan y segments else result
    mergeSpans (if test ≤ 0 then spans₁ else (y₁, new₁) :: spans₁)
      (if test ≥ 0 then spans₂ else (y₂, new₂) :: spans₂) segments₁ segments₂ result
  | spans₁, spans₂, _, _, result =>
    if operation.shouldAddRemainingSpansFromShape1 && spans₁ ≠ [] then result.appendSpans spans₁
    else if operation.shouldAddRemainingSpansFromShape2 && spans₂ ≠ [] then
      result.appendSpans spans₂
    else result
  termination_by spans₁ spans₂ => spans₁.length + spans₂.length
  decreasing_by
    split <;> split <;> simp only [List.length_cons] <;> omega

def shapeOperation (shape₁ shape₂ : Shape) : Shape :=
  if operation.copiesIfFirstIsEmpty && shape₁.isEmpty then shape₂
  else operation.mergeSpans shape₁.bands shape₂.bands [] [] .empty

end ShapeOperation

/-- What a comparison returns when a part of one shape is outside the other, or overlaps it;
`none` goes on. -/
structure CompareOperation where
  defaultResult : Bool
  aOutsideB : Option Bool
  bOutsideA : Option Bool
  aOverlapsB : Option Bool

namespace CompareOperation

def contains : CompareOperation := ⟨true, none, some false, none⟩

variable (operation : CompareOperation)

/-- A test that returns a result, or goes on. -/
def check (condition : Bool) (result : Option Bool) : Option Bool :=
  if condition then result else none

/-- The segments of two spans that overlap. -/
def compareSegments : List ℤ → List ℤ → Option Bool
  | aX :: aMaxX :: a, bX :: bMaxX :: b =>
    match check (bMaxX > aX && bX < aMaxX) operation.aOverlapsB <|>
      check (aX < bX) operation.aOutsideB <|> check (bX < aX) operation.bOutsideA with
    | some result => some result
    | none =>
      if aMaxX < bMaxX then compareSegments a (bX :: bMaxX :: b)
      else if bMaxX < aMaxX then compareSegments (aX :: aMaxX :: a) b
      else compareSegments a b
  | a, b =>
    check (a ≠ []) operation.aOutsideB <|> check (b ≠ []) operation.bOutsideA
  termination_by a b => a.length + b.length

/-- The spans of two shapes. -/
def compareSpans : List (ℤ × List ℤ) → List (ℤ × List ℤ) → Bool → Bool → Bool
  | (aY, a) :: (aMaxY, aNext) :: aSpan, (bY, b) :: (bMaxY, bNext) :: bSpan,
      aHadSegmentInPreviousSpan, bHadSegmentInPreviousSpan =>
    let aHasSegmentInSpan := a ≠ []
    let bHasSegmentInSpan := b ≠ []
    match check (aY < bY && !bHadSegmentInPreviousSpan && aHasSegmentInSpan) operation.aOutsideB <|>
      check (bY < aY && !aHadSegmentInPreviousSpan && bHasSegmentInSpan) operation.bOutsideA <|>
      (if bMaxY > aY && bY < aMaxY then operation.compareSegments a b else none) with
    | some result => result
    | none =>
      if aMaxY < bMaxY then
        compareSpans ((aMaxY, aNext) :: aSpan) ((bY, b) :: (bMaxY, bNext) :: bSpan)
          aHasSegmentInSpan bHasSegmentInSpan
      else if bMaxY < aMaxY then
        compareSpans ((aY, a) :: (aMaxY, aNext) :: aSpan) ((bMaxY, bNext) :: bSpan)
          aHasSegmentInSpan bHasSegmentInSpan
      else
        compareSpans ((aMaxY, aNext) :: aSpan) ((bMaxY, bNext) :: bSpan)
          aHasSegmentInSpan bHasSegmentInSpan
  | aSpan, bSpan, _, _ =>
    (check (1 < aSpan.length) operation.aOutsideB <|>
      check (1 < bSpan.length) operation.bOutsideA).getD operation.defaultResult
  termination_by aSpan bSpan => aSpan.length + bSpan.length

def compareShapes (aShape bShape : Shape) : Bool :=
  operation.compareSpans aShape.bands bShape.bands false false

end CompareOperation

structure Region where
  bounds : IntRect
  shape : Shape
  deriving DecidableEq, Repr

namespace Region

def empty : Region := ⟨.empty, .empty⟩

def ofRect (rect : IntRect) : Region := ⟨rect, .ofRect rect⟩

def isEmpty (region : Region) : Bool := region.bounds.isEmpty

def isRect (region : Region) : Bool := region.shape.isRect

def rects (region : Region) : List IntRect := Shape.rectsFrom region.shape.bands

/-- `contains(const Region&)` -/
def contains (region other : Region) : Bool :=
  if !region.bounds.contains other.bounds then false
  else CompareOperation.contains.compareShapes region.shape other.shape

def intersect (region other : Region) : Region :=
  if region.bounds.isEmpty then region
  else if !region.bounds.intersects other.bounds then empty
  else
    let shape := ShapeOperation.intersection.shapeOperation region.shape other.shape
    ⟨shape.bounds, shape⟩

def unite (region other : Region) : Region :=
  if other.isEmpty then region
  else if region.isRect && region.bounds.contains other.bounds then region
  else if other.isRect && other.bounds.contains region.bounds then ⟨other.bounds, other.shape⟩
  else if !region.isRect && region.contains other then region
  else
    ⟨region.bounds.unite other.bounds,
      ShapeOperation.union.shapeOperation region.shape other.shape⟩

def subtract (region other : Region) : Region :=
  if region.bounds.isEmpty then region
  else if other.isEmpty then region
  else if !region.bounds.intersects other.bounds then region
  else
    let shape := ShapeOperation.difference.shapeOperation region.shape other.shape
    ⟨shape.bounds, shape⟩

def translate (region : Region) (offset : IntSize) : Region :=
  ⟨region.bounds.move offset, region.shape.translate offset⟩

end Region

end WebKit.Graphics
