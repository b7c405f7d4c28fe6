import Mathlib.Data.Int.Order.Basic

/-!
# Rectangles and regions

A region keeps a bounding rectangle and a shape. The shape is a vector of
spans, sorted by their `y`, and one vector of segment boundaries shared by all
spans: a span's segments reach from its `segmentIndex` to that of the next span.

## Implementation notes

A span iterator is the list of the spans from the iterator to the end of the
vector, so `it + 1` is the tail. A pair of segment iterators is the list of the
boundaries between them, and null iterators are the empty list. Coordinates are
integers: regions are built within the range of `LayoutUnit`, where no
difference of two coordinates leaves the range of `int`.
-/

namespace QtWebKit.Graphics

/-- A rectangle; one without width or height is empty. -/
structure IntRect where
  x : Int
  y : Int
  width : Int
  height : Int
  deriving DecidableEq, Repr

namespace IntRect

/-- The rectangle of an empty region. -/
def zero : IntRect := ⟨0, 0, 0, 0⟩

/-- The first column behind the rectangle. -/
def maxX (rect : IntRect) : Int := rect.x + rect.width

/-- The first row behind the rectangle. -/
def maxY (rect : IntRect) : Int := rect.y + rect.height

/-- No point is inside. -/
def isEmpty (rect : IntRect) : Bool := rect.width ≤ 0 || rect.height ≤ 0

/-- The point is inside. -/
def containsPoint (rect : IntRect) (px py : Int) : Bool :=
  px ≥ rect.x && px < rect.maxX && py ≥ rect.y && py < rect.maxY

/-- The sides of the other rectangle are within those of this one. -/
def contains (rect other : IntRect) : Bool :=
  rect.x ≤ other.x && rect.maxX ≥ other.maxX && rect.y ≤ other.y && rect.maxY ≥ other.maxY

/-- Two rectangles, neither of them empty, share a point. -/
def intersects (rect other : IntRect) : Bool :=
  !rect.isEmpty && !other.isEmpty && rect.x < other.maxX && other.x < rect.maxX &&
    rect.y < other.maxY && other.y < rect.maxY

/-- The smallest rectangle around both, where an empty one does not count. -/
def unite (rect other : IntRect) : IntRect :=
  if other.isEmpty then rect
  else if rect.isEmpty then other
  else
    let l := min rect.x other.x
    let t := min rect.y other.y
    let r := max rect.maxX other.maxX
    let b := max rect.maxY other.maxY
    ⟨l, t, r - l, b - t⟩

/-- The rectangle moved by an offset. -/
def move (rect : IntRect) (dx dy : Int) : IntRect :=
  { rect with x := rect.x + dx, y := rect.y + dy }

end IntRect

/-- A row boundary, with the index of the first segment below it. -/
structure Span where
  y : Int
  segmentIndex : Nat
  deriving DecidableEq, Repr

/-- The spans and the segments of a region. -/
structure Shape where
  segments : List Int
  spans : List Span
  deriving DecidableEq, Repr

namespace Shape

/-- The shape without spans. -/
def empty : Shape := ⟨[], []⟩

variable (shape : Shape)

/-- There are no spans. -/
def isEmpty : Bool := shape.spans.isEmpty

/-- At most one row with at most one segment. -/
def isRect : Bool := shape.spans.length ≤ 2 && shape.segments.length ≤ 2

/-- The boundaries between `segments_begin(it)` and `segments_end(it)`. -/
def segmentsAt : List Span → List Int
  | [] => []
  | span :: rest =>
    if span.segmentIndex = shape.segments.length then []
    else
      match rest with
      | [] => []
      | next :: _ =>
        (shape.segments.drop span.segmentIndex).take (next.segmentIndex - span.segmentIndex)

/-- Adds a segment boundary. -/
def appendSegment (x : Int) : Shape :=
  { shape with segments := shape.segments ++ [x] }

/-- Adds a span whose segments are those that follow. -/
def appendSpan (y : Int) : Shape :=
  { shape with spans := shape.spans ++ [⟨y, shape.segments.length⟩] }

/-- The shape of a rectangle. -/
def ofRect (rect : IntRect) : Shape :=
  ((((empty.appendSpan rect.y).appendSegment rect.x).appendSegment rect.maxX).appendSpan rect.maxY)

/-- The last span has exactly these segments. -/
def canCoalesce (segments : List Int) : Bool :=
  match shape.spans.getLast? with
  | none => false
  | some last =>
    let lastSegments := shape.segments.drop last.segmentIndex
    lastSegments.length = segments.length && lastSegments = segments

/-- Adds a span with its segments, unless the last one goes on with the same segments. -/
def appendSpanSegments (y : Int) (segments : List Int) : Shape :=
  if shape.canCoalesce segments then shape
  else
    let appended := shape.appendSpan y
    { appended with segments := appended.segments ++ segments }

/-- `appendSpans(shape, it, shape.spans_end())`. -/
def appendSpans (result shape : Shape) : List Span → Shape
  | [] => result
  | span :: rest =>
    (result.appendSpanSegments span.y (shape.segmentsAt (span :: rest))).appendSpans shape rest

/-- The largest `int`. -/
def intMax : Int := 2147483647

/-- The smallest `int`. -/
def intMin : Int := -2147483648

/-- The loop of `bounds`, up to the last span. The two pointers are read by
index: for a span without segments in front of others they point at a segment
of the next span and of the previous one. -/
def boundsLoop (shape : Shape) : List Span → Int → Int → Int × Int
  | span :: next :: rest, minX, maxX =>
    if span.segmentIndex = shape.segments.length then
      shape.boundsLoop (next :: rest) minX maxX
    else
      let first := shape.segments.getD span.segmentIndex 0
      let last := shape.segments.getD (next.segmentIndex - 1) 0
      shape.boundsLoop (next :: rest) (if first < minX then first else minX)
        (if last > maxX then last else maxX)
  | _, minX, maxX => (minX, maxX)

/-- The bounding rectangle of the segments and spans. -/
def bounds : IntRect :=
  match shape.spans.head?, shape.spans.getLast? with
  | some first, some last =>
    let (minX, maxX) := shape.boundsLoop shape.spans intMax intMin
    ⟨minX, first.y, maxX - minX, last.y - first.y⟩
  | _, _ => IntRect.zero

/-- The shape moved by an offset. -/
def translate (dx dy : Int) : Shape :=
  ⟨shape.segments.map (· + dx), shape.spans.map fun span => { span with y := span.y + dy }⟩

/-! ### Comparing shapes -/

/-- The hooks of a comparison; `some result` makes `compareShapes` return. -/
structure CompareOperation where
  defaultResult : Bool
  aOutsideB : Option Bool
  bOutsideA : Option Bool
  aOverlapsB : Option Bool

/-- Whether the first shape contains the second: it ends where the second is outside. -/
def compareContainsOperation : CompareOperation := ⟨true, none, some false, none⟩

/-- Whether the shapes intersect: it ends where they overlap. -/
def compareIntersectsOperation : CompareOperation := ⟨false, none, none, some true⟩

/-- `condition && hook(result)`, then `return result`. -/
def returnIf (condition : Bool) (hook : Option Bool) : Option Bool :=
  if condition then hook else none

/-- The comparison of the segments of two overlapping spans. -/
def compareSegments (operation : CompareOperation) (aSegments bSegments : List Int) : Option Bool :=
  match aSegments, bSegments with
  | aX :: aMaxX :: aRest, bX :: bMaxX :: bRest =>
    (returnIf (bMaxX > aX && bX < aMaxX) operation.aOverlapsB).or <|
    (returnIf (aX < bX) operation.aOutsideB).or <|
    (returnIf (bX < aX) operation.bOutsideA).or <|
    if aMaxX < bMaxX then compareSegments operation aRest (bX :: bMaxX :: bRest)
    else if bMaxX < aMaxX then compareSegments operation (aX :: aMaxX :: aRest) bRest
    else compareSegments operation aRest bRest
  | aSegments, bSegments =>
    (returnIf (!aSegments.isEmpty) operation.aOutsideB).or
      (returnIf (!bSegments.isEmpty) operation.bOutsideA)
termination_by aSegments.length + bSegments.length

/-- The walk over the spans of both shapes. -/
def compareSpans (operation : CompareOperation) (aShape bShape : Shape)
    (aSpans bSpans : List Span) (aHadSegmentInPreviousSpan bHadSegmentInPreviousSpan : Bool) :
    Bool :=
  match aSpans, bSpans with
  | aSpan :: aNext :: aRest, bSpan :: bNext :: bRest =>
    let aSegments := aShape.segmentsAt (aSpan :: aNext :: aRest)
    let bSegments := bShape.segmentsAt (bSpan :: bNext :: bRest)
    let aHasSegmentInSpan := !aSegments.isEmpty
    let bHasSegmentInSpan := !bSegments.isEmpty
    let outside :=
      (returnIf (aSpan.y < bSpan.y && !bHadSegmentInPreviousSpan && aHasSegmentInSpan)
        operation.aOutsideB).or
      (returnIf (bSpan.y < aSpan.y && !aHadSegmentInPreviousSpan && bHasSegmentInSpan)
        operation.bOutsideA)
    let inside :=
      if bNext.y > aSpan.y && bSpan.y < aNext.y then
        compareSegments operation aSegments bSegments
      else none
    match outside.or inside with
    | some result => result
    | none =>
      if aNext.y < bNext.y then
        compareSpans operation aShape bShape (aNext :: aRest) (bSpan :: bNext :: bRest)
          aHasSegmentInSpan bHasSegmentInSpan
      else if bNext.y < aNext.y then
        compareSpans operation aShape bShape (aSpan :: aNext :: aRest) (bNext :: bRest)
          aHasSegmentInSpan bHasSegmentInSpan
      else
        compareSpans operation aShape bShape (aNext :: aRest) (bNext :: bRest)
          aHasSegmentInSpan bHasSegmentInSpan
  | aSpans, bSpans =>
    ((returnIf (aSpans.length ≥ 2) operation.aOutsideB).or
      (returnIf (bSpans.length ≥ 2) operation.bOutsideA)).getD operation.defaultResult
termination_by aSpans.length + bSpans.length

/-- Walks from the first spans, with no segments above them. -/
def compareShapes (operation : CompareOperation) (aShape bShape : Shape) : Bool :=
  compareSpans operation aShape bShape aShape.spans bShape.spans false false

/-! ### Combining shapes -/

/-- The parameters of `shapeOperation`. -/
structure Operation where
  trySimpleOperation : Shape → Shape → Option Shape
  opCode : Nat
  shouldAddRemainingSegmentsFromSpan1 : Bool
  shouldAddRemainingSegmentsFromSpan2 : Bool
  shouldAddRemainingSpansFromShape1 : Bool
  shouldAddRemainingSpansFromShape2 : Bool

/-- The merge of the segments of two spans. -/
def mergeSegments (operation : Operation) (s1 s2 : List Int) (flag oldFlag : Nat) : List Int :=
  match s1, s2 with
  | x1 :: rest1, x2 :: rest2 =>
    let test := x1 - x2
    let x := if test ≥ 0 then x2 else x1
    let flag' := (flag ^^^ (if test ≤ 0 then 1 else 0)) ^^^ (if test ≥ 0 then 2 else 0)
    let merged :=
      if test < 0 then mergeSegments operation rest1 (x2 :: rest2) flag' flag'
      else if test > 0 then mergeSegments operation (x1 :: rest1) rest2 flag' flag'
      else mergeSegments operation rest1 rest2 flag' flag'
    if flag' = operation.opCode || oldFlag = operation.opCode then x :: merged else merged
  | s1, s2 =>
    if operation.shouldAddRemainingSegmentsFromSpan1 && !s1.isEmpty then s1
    else if operation.shouldAddRemainingSegmentsFromSpan2 && !s2.isEmpty then s2
    else []
termination_by s1.length + s2.length

/-- The walk over the spans of both shapes; `segments1` and `segments2` are the
segments of the spans that were last entered. -/
def mergeSpans (operation : Operation) (shape1 shape2 : Shape) (spans1 spans2 : List Span)
    (segments1 segments2 : List Int) (result : Shape) : Shape :=
  match spans1, spans2 with
  | span1 :: rest1, span2 :: rest2 =>
    let test := span1.y - span2.y
    let y := if test ≥ 0 then span2.y else span1.y
    let segments1' := if test ≤ 0 then shape1.segmentsAt (span1 :: rest1) else segments1
    let segments2' := if test ≥ 0 then shape2.segmentsAt (span2 :: rest2) else segments2
    let segments := mergeSegments operation segments1' segments2' 0 0
    let result' :=
      if !segments.isEmpty || !result.isEmpty then result.appendSpanSegments y segments
      else result
    if test < 0 then
      mergeSpans operation shape1 shape2 rest1 (span2 :: rest2) segments1' segments2' result'
    else if test > 0 then
      mergeSpans operation shape1 shape2 (span1 :: rest1) rest2 segments1' segments2' result'
    else mergeSpans operation shape1 shape2 rest1 rest2 segments1' segments2' result'
  | spans1, spans2 =>
    if operation.shouldAddRemainingSpansFromShape1 && !spans1.isEmpty then
      result.appendSpans shape1 spans1
    else if operation.shouldAddRemainingSpansFromShape2 && !spans2.isEmpty then
      result.appendSpans shape2 spans2
    else result
termination_by spans1.length + spans2.length

/-- The simple operation if it applies, and the merge of all spans otherwise. -/
def shapeOperation (operation : Operation) (shape1 shape2 : Shape) : Shape :=
  match operation.trySimpleOperation shape1 shape2 with
  | some result => result
  | none => mergeSpans operation shape1 shape2 shape1.spans shape2.spans [] [] empty

/-- Everything that is in one of the shapes. -/
def unionOperation : Operation :=
  ⟨fun shape1 shape2 => if shape1.isEmpty then some shape2 else none, 0, true, true, true, true⟩

/-- Everything that is in both shapes. -/
def intersectOperation : Operation := ⟨fun _ _ => none, 3, false, false, false, false⟩

/-- Everything that is only in the first shape. -/
def subtractOperation : Operation := ⟨fun _ _ => none, 1, true, false, true, false⟩

/-- The union of two shapes. -/
def unionShapes (shape1 shape2 : Shape) : Shape := shapeOperation unionOperation shape1 shape2

/-- The intersection of two shapes. -/
def intersectShapes (shape1 shape2 : Shape) : Shape :=
  shapeOperation intersectOperation shape1 shape2

/-- The first shape without the second. -/
def subtractShapes (shape1 shape2 : Shape) : Shape :=
  shapeOperation subtractOperation shape1 shape2

end Shape

/-- A shape with its bounding rectangle. -/
structure Region where
  bounds : IntRect
  shape : Shape
  deriving DecidableEq, Repr

namespace Region

/-- The region without points. -/
def empty : Region := ⟨IntRect.zero, Shape.empty⟩

/-- The region of a rectangle. -/
def ofRect (rect : IntRect) : Region := ⟨rect, Shape.ofRect rect⟩

/-- The bounding rectangle is empty. -/
def isEmpty (region : Region) : Bool := region.bounds.isEmpty

/-- The shape is that of a rectangle. -/
def isRect (region : Region) : Bool := region.shape.isRect

/-- The rectangles of one span. -/
def segmentRects (y height : Int) : List Int → List IntRect
  | x :: maxX :: rest => ⟨x, y, maxX - x, height⟩ :: segmentRects y height rest
  | _ => []

/-- The rectangles of all spans. -/
def rectsFrom (shape : Shape) : List Span → List IntRect
  | span :: next :: rest =>
    segmentRects span.y (next.y - span.y) (shape.segmentsAt (span :: next :: rest)) ++
      rectsFrom shape (next :: rest)
  | _ => []

/-- The rectangles that a region consists of. -/
def rects (region : Region) : List IntRect := rectsFrom region.shape region.shape.spans

variable (region other : Region)

/-- Compares the shapes if the bounding rectangles allow it. -/
def containsRegion : Bool :=
  if !region.bounds.contains other.bounds then false
  else Shape.compareShapes Shape.compareContainsOperation region.shape other.shape

/-- The search for a segment around `px`. -/
def segmentsContain (px : Int) : List Int → Bool
  | x :: maxX :: rest =>
    if x > px then false
    else if maxX > px then true
    else segmentsContain px rest
  | _ => false

/-- The search for a span around `py`. -/
def spansContain (shape : Shape) (px py : Int) : List Span → Bool
  | span :: next :: rest =>
    if span.y > py then false
    else if next.y ≤ py then spansContain shape px py (next :: rest)
    else if segmentsContain px (shape.segmentsAt (span :: next :: rest)) then true
    else spansContain shape px py (next :: rest)
  | _ => false

/-- Looks the point up if the bounding rectangle has it. -/
def containsPoint (region : Region) (px py : Int) : Bool :=
  if !region.bounds.containsPoint px py then false
  else spansContain region.shape px py region.shape.spans

/-- Compares the shapes if the bounding rectangles intersect. -/
def intersects : Bool :=
  if !region.bounds.intersects other.bounds then false
  else Shape.compareShapes Shape.compareIntersectsOperation region.shape other.shape

/-- The points of both regions, with the bounds computed again. -/
def intersect : Region :=
  if region.bounds.isEmpty then region
  else if !region.bounds.intersects other.bounds then ⟨IntRect.zero, Shape.empty⟩
  else
    let intersectedShape := Shape.intersectShapes region.shape other.shape
    ⟨intersectedShape.bounds, intersectedShape⟩

/-- The points of one of the regions; the four cases before the last avoid the merge. -/
def unite : Region :=
  if other.isEmpty then region
  else if region.isRect && region.bounds.contains other.bounds then region
  else if other.isRect && other.bounds.contains region.bounds then ⟨other.bounds, other.shape⟩
  else if !region.isRect && region.containsRegion other then region
  else ⟨region.bounds.unite other.bounds, Shape.unionShapes region.shape other.shape⟩

/-- The points of the first region only, with the bounds computed again. -/
def subtract : Region :=
  if region.bounds.isEmpty then region
  else if other.isEmpty then region
  else if !region.bounds.intersects other.bounds then region
  else
    let subtractedShape := Shape.subtractShapes region.shape other.shape
    ⟨subtractedShape.bounds, subtractedShape⟩

/-- The region moved by an offset. -/
def translate (region : Region) (dx dy : Int) : Region :=
  ⟨region.bounds.move dx dy, region.shape.translate dx dy⟩

end Region

end QtWebKit.Graphics
