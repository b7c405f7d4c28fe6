import QtWebKit.Graphics.RegionShape
import QtWebKit.Graphics.RegionQueries

/-!
# Regions as sets of pixels

A region that is built from rectangles by union, intersection, difference and
translation keeps the bounding rectangle and the canonical shape of its set of
pixels, whichever of the shortcuts for rectangles and for bounds is taken. The
queries therefore answer about the set. The one exception is the containment of
a region without pixels, which is first decided on the two bounding rectangles.
-/

namespace QtWebKit.Graphics

open StepFunction Shape List IntRect Set

/-! ### The range of coordinates -/

/-- `LayoutUnit` holds the integers between `INT_MIN / 64` and `INT_MAX / 64`. -/
def intMaxForLayoutUnit : Int := 33554431

def intMinForLayoutUnit : Int := -33554432

def IntRect.InLayoutRange (rect : IntRect) : Prop :=
  intMinForLayoutUnit ≤ rect.x ∧ rect.maxX ≤ intMaxForLayoutUnit ∧
    intMinForLayoutUnit ≤ rect.y ∧ rect.maxY ≤ intMaxForLayoutUnit

instance (rect : IntRect) : Decidable rect.InLayoutRange :=
  inferInstanceAs (Decidable (_ ∧ _))

/-- Pixels of rectangles in range. -/
def PointsInRange (points : Set (Int × Int)) : Prop :=
  ∀ x y, (x, y) ∈ points → intMinForLayoutUnit ≤ x ∧ x < intMaxForLayoutUnit

/-! ### The set of a region -/

/-- A region with the canonical shape and the bounds of a set of pixels. -/
structure Represents (region : Region) (points : Set (Int × Int)) : Prop where
  shape : ∃ rows, CanonicalRows rows ∧ region.shape = ofRows rows ∧ rowPoints rows = points
  emptyBounds : points = ∅ → region.bounds.isEmpty = true
  bounds : points.Nonempty → IsBoundingBox region.bounds points

theorem rowPoints_nil : rowPoints [] = ∅ := by
  ext p
  exact iff_of_false Bool.false_ne_true (notMem_empty p)

/-- Canonical rows without pixels are no rows. -/
theorem CanonicalRows.eq_nil_iff {rows} (h : CanonicalRows rows) :
    rows = [] ↔ rowPoints rows = ∅ := by
  constructor
  · rintro rfl
    exact rowPoints_nil
  · intro he
    cases rows with
    | nil => rfl
    | cons row rest =>
      obtain ⟨x, hx⟩ := exists_mem_rowPoints (y := row.1) h
        (by rw [valueAt_of_mem h.increasing mem_cons_self]; exact h.changes.1)
      rw [he] at hx
      cases hx

namespace Represents

variable {region oth : Region} {pts pts' : Set (Int × Int)}

variable (h : Represents region pts)
include h

theorem covers {x y} (hxy : (x, y) ∈ pts) : region.bounds.containsPoint x y = true :=
  (h.bounds ⟨_, hxy⟩).covers x y hxy

theorem pointsInRange (hg : region.bounds.InLayoutRange) : PointsInRange pts := by
  intro x y hxy
  have hin := containsPoint_iff.mp (h.covers hxy)
  simp only [IntRect.InLayoutRange] at hg
  omega

theorem isEmpty_iff : region.isEmpty = true ↔ pts = ∅ := by
  constructor
  · intro he
    by_contra hne
    have := (h.bounds (nonempty_iff_ne_empty.mpr hne)).nonempty
    rw [Region.isEmpty, this] at he
    cases he
  · exact h.emptyBounds

theorem isEmpty_eq_false_iff : region.isEmpty = false ↔ pts.Nonempty := by
  rw [nonempty_iff_ne_empty, ne_eq, ← h.isEmpty_iff, Bool.not_eq_true]

theorem containsPoint_iff (px py : Int) : region.containsPoint px py = true ↔ (px, py) ∈ pts := by
  obtain ⟨rows, hrw, hs, rfl⟩ := h.shape
  have hsp : Region.spansContain region.shape px py region.shape.spans = true ↔
      (px, py) ∈ rowPoints rows := by
    have hrs := rowsAt_ofRows hrw.final
    rw [hs, Region.spansContain_eq _ _ (by rw [hrs]; exact spanRows_of_canonicalRows hrw),
      hrs, mem_rowPoints]
  rw [Region.containsPoint]
  cases hin : region.bounds.containsPoint px py with
  | true => simpa using hsp
  | false =>
    refine iff_of_false (by simp) fun hm => ?_
    rw [h.covers hm] at hin
    cases hin

theorem rects_iff (px py : Int) :
    (∃ rect ∈ region.rects, rect.containsPoint px py = true) ↔ (px, py) ∈ pts := by
  obtain ⟨rows, hrw, hs, rfl⟩ := h.shape
  have hrs := rowsAt_ofRows hrw.final
  rw [Region.rects, hs, Region.mem_rectsFrom _ _ (by rw [hrs]; exact spanRows_of_canonicalRows hrw),
    hrs, mem_rowPoints]

theorem pairwise_rects : region.rects.Pairwise Region.DisjointRects := by
  obtain ⟨rows, hrw, hs, rfl⟩ := h.shape
  have hrs := rowsAt_ofRows hrw.final
  rw [Region.rects, hs]
  exact Region.pairwise_rectsFrom _ _ (by rw [hrs]; exact spanRows_of_canonicalRows hrw)

variable (h' : Represents oth pts')
include h'

/-- Rectangles with a common pixel intersect. -/
theorem intersects_bounds
    (hne : (pts ∩ pts').Nonempty) : region.bounds.intersects oth.bounds = true := by
  obtain ⟨⟨x, y⟩, hxy, hxy'⟩ := hne
  have hbx := (h.bounds ⟨_, hxy⟩).nonempty
  have hbx' := (h'.bounds ⟨_, hxy'⟩).nonempty
  have hin := IntRect.containsPoint_iff.mp (h.covers hxy)
  have hin' := IntRect.containsPoint_iff.mp (h'.covers hxy')
  simp only [IntRect.intersects, hbx, hbx', Bool.not_false, Bool.true_and, Bool.and_eq_true,
    decide_eq_true_eq]
  omega

theorem intersects_iff : region.intersects oth = true ↔ (pts ∩ pts').Nonempty := by
  cases hbs : region.bounds.intersects oth.bounds with
  | false =>
    refine iff_of_false (by simp [Region.intersects, hbs]) fun hne => ?_
    rw [h.intersects_bounds h' hne] at hbs
    cases hbs
  | true =>
    obtain ⟨rows, hrw, hs, rfl⟩ := h.shape
    obtain ⟨rows', hrw', hs', rfl⟩ := h'.shape
    rw [← compareShapes_intersects hrw hrw', Region.intersects, hbs, hs, hs']
    rfl

/-- Past the test on the bounds, containment is that of the sets. -/
theorem containsRegion_of_bounds (hbs : region.bounds.contains oth.bounds = true) :
    region.containsRegion oth = true ↔ pts' ⊆ pts := by
  obtain ⟨rows, hrw, hs, rfl⟩ := h.shape
  obtain ⟨rows', hrw', hs', rfl⟩ := h'.shape
  rw [← compareShapes_contains hrw hrw', Region.containsRegion, hbs, hs, hs']
  rfl

theorem bounds_contains (hne : pts'.Nonempty) (hsb : pts' ⊆ pts) :
    region.bounds.contains oth.bounds = true :=
  (h'.bounds hne).least _ fun _ _ hxy => h.covers (hsb hxy)

/-- A region with pixels is contained exactly if its pixels are. -/
theorem containsRegion_iff
    (hne : pts'.Nonempty) : region.containsRegion oth = true ↔ pts' ⊆ pts := by
  cases hbs : region.bounds.contains oth.bounds with
  | true => exact h.containsRegion_of_bounds h' hbs
  | false =>
    refine iff_of_false (by simp [Region.containsRegion, hbs]) fun hsb => ?_
    rw [h.bounds_contains h' hne hsb] at hbs
    cases hbs

/-- Regions with the same pixels have the same shape. -/
theorem shape_eq_iff : region.shape = oth.shape ↔ pts = pts' := by
  obtain ⟨rows, hrw, hs, rfl⟩ := h.shape
  obtain ⟨rows', hrw', hs', rfl⟩ := h'.shape
  rw [hs, hs']
  constructor
  · intro heq
    rw [← rowsAt_ofRows hrw.final, ← rowsAt_ofRows hrw'.final, heq]
  · intro heq
    rw [hrw.eq_of_points hrw' heq]

end Represents

/-! ### Rectangles and recomputed bounds -/

theorem represents_empty : Represents Region.empty ∅ where
  shape := ⟨[], ⟨List.Pairwise.nil, trivial, rfl, by simp⟩, rfl, rowPoints_nil⟩
  emptyBounds _ := rfl
  bounds hne := absurd hne not_nonempty_empty

def rectPoints (rect : IntRect) : Set (Int × Int) := { p | rect.containsPoint p.1 p.2 = true }

theorem mem_rectPoints {rect : IntRect} {x y} :
    (x, y) ∈ rectPoints rect ↔ rect.x ≤ x ∧ x < rect.maxX ∧ rect.y ≤ y ∧ y < rect.maxY :=
  containsPoint_iff

theorem rowPoints_rect {rect : IntRect} (h : rect.isEmpty = false) :
    rowPoints [(rect.y, [rect.x, rect.maxX]), (rect.maxY, [])] = rectPoints rect := by
  have hx : rect.x < rect.maxX := by
    have := (isEmpty_eq_false_iff.mp h).1
    simp only [maxX]
    omega
  ext ⟨px, py⟩
  have hsg := toggled_cons_cons (show [rect.x, rect.maxX].Pairwise (· < ·) by simpa using hx) px
  rw [toggled_nil] at hsg
  rw [mem_rowPoints, mem_rectPoints, valueAt_cons, valueAt_cons, valueAt_nil]
  simp only [Bool.false_eq_true, or_false] at hsg
  split_ifs with hlow hhigh
  · exact iff_of_false (by simp) (by omega)
  · rw [hsg]
    omega
  · exact iff_of_false (by simp) (by omega)

theorem represents_ofRect {rect : IntRect} (h : rect.isEmpty = false) :
    Represents (Region.ofRect rect) (rectPoints rect) where
  shape := ⟨_, canonicalRows_ofRect h, ofRect_eq rect, rowPoints_rect h⟩
  emptyBounds he := by
    have hsz := isEmpty_eq_false_iff.mp h
    have hcr : (rect.x, rect.y) ∈ rectPoints rect := by
      rw [mem_rectPoints]
      simp only [maxX, maxY]
      omega
    rw [he] at hcr
    cases hcr
  bounds _ := by
    have hsz := isEmpty_eq_false_iff.mp h
    have hrc : rect = ⟨rect.x, rect.y, rect.maxX - rect.x, rect.maxY - rect.y⟩ := by
      simp only [maxX, maxY, add_sub_cancel_left]
    rw [Region.ofRect]
    nth_rewrite 1 [hrc]
    apply isBoundingBox_of_touches
    · intro x y hxy
      exact mem_rectPoints.mp hxy
    · exact ⟨rect.y, mem_rectPoints.mpr (by simp only [maxX, maxY]; omega)⟩
    · exact ⟨rect.y, mem_rectPoints.mpr (by simp only [maxX, maxY]; omega)⟩
    · exact ⟨rect.x, mem_rectPoints.mpr (by simp only [maxX, maxY]; omega)⟩
    · exact ⟨rect.x, mem_rectPoints.mpr (by simp only [maxX, maxY]; omega)⟩

/-- Boundaries of rows in range fit into an `int`. -/
theorem boundaries_inRange {rows} (h : CanonicalRows rows) (hg : PointsInRange (rowPoints rows)) :
    ∀ x ∈ (ofRows rows).segments, intMin ≤ x ∧ x ≤ intMax := by
  intro x hx
  obtain ⟨row, hro, hx⟩ := mem_flatMap.mp hx
  have hv : valueAt [] rows row.1 = row.2 := valueAt_of_mem h.increasing hro
  have hbd (x') (hx' : toggled row.2 x' = true) :
      intMinForLayoutUnit ≤ x' ∧ x' < intMaxForLayoutUnit :=
    hg x' row.1 (by rw [mem_rowPoints, hv]; exact hx')
  simp only [intMinForLayoutUnit, intMaxForLayoutUnit] at hbd
  simp only [intMin, intMax]
  rcases toggled_of_mem (h.segments row hro) hx with hop | hcl
  · have := hbd x hop
    omega
  · have := hbd (x - 1) hcl
    omega

/-- A shape with the bounds computed from it. -/
theorem represents_ofRows {rows} (h : CanonicalRows rows) (hg : PointsInRange (rowPoints rows)) :
    Represents ⟨(ofRows rows).bounds, ofRows rows⟩ (rowPoints rows) where
  shape := ⟨rows, h, rfl, rfl⟩
  emptyBounds he := by
    rw [h.eq_nil_iff.mpr he]
    rfl
  bounds hne :=
    isBoundingBox_bounds h
      (fun hnl => nonempty_iff_ne_empty.mp hne (h.eq_nil_iff.mp hnl))
      (boundaries_inRange h hg)

theorem PointsInRange.mono {pts pts'} (h : PointsInRange pts)
    (hsb : pts' ⊆ pts) : PointsInRange pts' :=
  fun x y hxy => h x y (hsb hxy)

/-! ### The operations -/

namespace Represents

variable {region oth : Region} {pts pts' : Set (Int × Int)}

theorem intersect (h : Represents region pts) (h' : Represents oth pts')
    (hg : PointsInRange pts) : Represents (region.intersect oth) (pts ∩ pts') := by
  rw [Region.intersect]
  split_ifs with he hd
  · rw [h.isEmpty_iff.mp he, empty_inter]
    exact h.isEmpty_iff.mp he ▸ h
  · have hit : pts ∩ pts' = ∅ := by
      by_contra hne
      rw [h.intersects_bounds h' (nonempty_iff_ne_empty.mpr hne)] at hd
      cases hd
    rw [hit]
    exact represents_empty
  · obtain ⟨rows, hrw, hs, rfl⟩ := h.shape
    obtain ⟨rows', hrw', hs', rfl⟩ := h'.shape
    rw [hs, hs', intersectShapes_ofRows hrw hrw', ← rowPoints_intersect hrw hrw']
    apply represents_ofRows (canonicalRows_combineRows uniform_intersect hrw hrw')
    rw [rowPoints_intersect hrw hrw']
    exact hg.mono inter_subset_left

theorem subtract (h : Represents region pts) (h' : Represents oth pts')
    (hg : PointsInRange pts) : Represents (region.subtract oth) (pts \ pts') := by
  rw [Region.subtract]
  split_ifs with he he' hd
  · rw [h.isEmpty_iff.mp he, empty_sdiff]
    exact h.isEmpty_iff.mp he ▸ h
  · rw [h'.isEmpty_iff.mp he', sdiff_empty]
    exact h
  · have hdf : pts \ pts' = pts := by
      rw [sdiff_eq_left, disjoint_iff_inter_eq_empty]
      by_contra hne
      rw [h.intersects_bounds h' (nonempty_iff_ne_empty.mpr hne)] at hd
      cases hd
    rw [hdf]
    exact h
  · obtain ⟨rows, hrw, hs, rfl⟩ := h.shape
    obtain ⟨rows', hrw', hs', rfl⟩ := h'.shape
    rw [hs, hs', subtractShapes_ofRows hrw hrw', ← rowPoints_subtract hrw hrw']
    apply represents_ofRows (canonicalRows_combineRows uniform_subtract hrw hrw')
    rw [rowPoints_subtract hrw hrw']
    exact hg.mono sdiff_subset

theorem length_layoutSpans (idx : Nat) (rows : List Row) :
    (layoutSpans idx rows).length = rows.length := by
  induction rows generalizing idx with
  | nil => rfl
  | cons row rest ih => rw [layoutSpans, length_cons, length_cons, ih]

/-- Canonical rows that satisfy the test for a rectangle. -/
theorem exists_rect_of_isRect {rows} (h : CanonicalRows rows) (hne : rows ≠ [])
    (hrc : (ofRows rows).isRect = true) :
    ∃ rect : IntRect, rect.isEmpty = false ∧
      rows = [(rect.y, [rect.x, rect.maxX]), (rect.maxY, [])] := by
  simp only [isRect, ofRows, length_layoutSpans, Bool.and_eq_true, decide_eq_true_eq] at hrc
  obtain ⟨⟨y, segs⟩, rest, rfl⟩ := exists_cons_of_ne_nil hne
  have hss : segs ≠ [] := h.changes.1
  obtain ⟨maxY, segs', tail, rfl⟩ := exists_next h hss
  obtain rfl : tail = [] := eq_nil_of_length_eq_zero (by
    simp only [length_cons] at hrc
    omega)
  obtain rfl : segs' = [] := h.final
  rcases segmentList_cases (h.segments _ mem_cons_self) with
    rfl | ⟨x, maxX, rest, rfl, hx, -, -⟩
  · exact absurd rfl hss
  · obtain rfl : rest = [] := eq_nil_of_length_eq_zero (by
      have hn : rest.length + 2 ≤ 2 := by simpa using hrc.2
      omega)
    have hy : y < maxY := (increasing_cons.mp h.increasing).1 _ mem_cons_self
    refine ⟨⟨x, y, maxX - x, maxY - y⟩, ?_, ?_⟩
    · rw [IntRect.isEmpty_eq_false_iff]
      constructor
      · exact sub_pos.mpr hx
      · exact sub_pos.mpr hy
    · simp only [IntRect.maxX, IntRect.maxY, add_sub_cancel]

/-- A region with one segment is all of its bounds. -/
theorem eq_rectPoints_of_isRect (h : Represents region pts) (hne : pts.Nonempty)
    (hrc : region.isRect = true) : pts = rectPoints region.bounds := by
  obtain ⟨rows, hrw, hs, hpn⟩ := h.shape
  rw [Region.isRect, hs] at hrc
  obtain ⟨rect, hrc, heq⟩ := exists_rect_of_isRect hrw
    (fun hnl => hne.ne_empty (hpn ▸ hrw.eq_nil_iff.mp hnl)) hrc
  rw [heq, rowPoints_rect hrc] at hpn
  subst hpn
  apply Set.Subset.antisymm
  · rintro ⟨x, y⟩ hxy
    exact h.covers hxy
  · rintro ⟨x, y⟩ hxy
    have hl := contains_iff.mp ((h.bounds hne).least rect fun _ _ hxy => hxy)
    rw [mem_rectPoints] at hxy ⊢
    omega

theorem subset_of_isRect (h : Represents region pts) (h' : Represents oth pts')
    (hne : pts.Nonempty) (hrc : region.isRect = true)
    (hbs : region.bounds.contains oth.bounds = true) : pts' ⊆ pts := by
  rintro ⟨x, y⟩ hxy
  have hin := IntRect.containsPoint_iff.mp (h'.covers hxy)
  rw [IntRect.contains_iff] at hbs
  rw [h.eq_rectPoints_of_isRect hne hrc, mem_rectPoints]
  omega

/-- Bounds around a region with pixels belong to a region with pixels. -/
theorem nonempty_of_contains (h : Represents region pts) (h' : Represents oth pts')
    (hne' : pts'.Nonempty) (hbs : region.bounds.contains oth.bounds = true) : pts.Nonempty := by
  have hsz := IntRect.isEmpty_eq_false_iff.mp (h'.bounds hne').nonempty
  rw [← h.isEmpty_eq_false_iff, Region.isEmpty, IntRect.isEmpty_eq_false_iff]
  rw [IntRect.contains_iff] at hbs
  simp only [IntRect.maxX, IntRect.maxY] at hbs
  omega

theorem isBoundingBox_unite {rect rect' : IntRect} (h : IsBoundingBox rect pts)
    (h' : IsBoundingBox rect' pts') : IsBoundingBox (rect.unite rect') (pts ∪ pts') := by
  have hsz := IntRect.isEmpty_eq_false_iff.mp h.nonempty
  rw [IntRect.unite, if_neg (by simp [h'.nonempty]), if_neg (by simp [h.nonempty])]
  refine ⟨?_, ?_, ?_⟩
  · rw [IntRect.isEmpty_eq_false_iff]
    simp only [IntRect.maxX, IntRect.maxY]
    omega
  · rintro x y (hxy | hxy)
    · have hin := IntRect.containsPoint_iff.mp (h.covers x y hxy)
      rw [IntRect.containsPoint_iff]
      simp only [IntRect.maxX, IntRect.maxY] at hin ⊢
      omega
    · have hin := IntRect.containsPoint_iff.mp (h'.covers x y hxy)
      rw [IntRect.containsPoint_iff]
      simp only [IntRect.maxX, IntRect.maxY] at hin ⊢
      omega
  · intro rect'' hcv
    have hl := IntRect.contains_iff.mp (h.least rect'' fun x y hxy => hcv x y (.inl hxy))
    have hl' := IntRect.contains_iff.mp (h'.least rect'' fun x y hxy => hcv x y (.inr hxy))
    rw [IntRect.contains_iff]
    simp only [IntRect.maxX, IntRect.maxY] at hl hl' ⊢
    omega

theorem unite_of_merge (h : Represents region pts) (h' : Represents oth pts')
    (hne' : pts'.Nonempty) :
    Represents ⟨region.bounds.unite oth.bounds, unionShapes region.shape oth.shape⟩
      (pts ∪ pts') where
  shape := by
    obtain ⟨rows, hrw, hs, rfl⟩ := h.shape
    obtain ⟨rows', hrw', hs', rfl⟩ := h'.shape
    refine ⟨_, canonicalRows_combineRows uniform_union hrw hrw', ?_, rowPoints_union hrw hrw'⟩
    rw [hs, hs', unionShapes_ofRows hrw hrw']
  emptyBounds he := by
    rw [union_empty_iff] at he
    exact absurd he.2 (nonempty_iff_ne_empty.mp hne')
  bounds _ := by
    rcases eq_empty_or_nonempty pts with he | hne
    · have hbs : region.bounds.unite oth.bounds = oth.bounds := by
        rw [unite, if_neg (by simp [(h'.bounds hne').nonempty]), if_pos (h.emptyBounds he)]
      rw [hbs, he, empty_union]
      exact h'.bounds hne'
    · exact isBoundingBox_unite (h.bounds hne) (h'.bounds hne')

theorem unite (h : Represents region pts) (h' : Represents oth pts') :
    Represents (region.unite oth) (pts ∪ pts') := by
  rw [Region.unite]
  cases he' : oth.isEmpty with
  | true =>
    rw [if_pos rfl, h'.isEmpty_iff.mp he', union_empty]
    exact h
  | false =>
    have hne' := h'.isEmpty_eq_false_iff.mp he'
    rw [if_neg Bool.false_ne_true]
    split_ifs with hi hi' hc
    · rw [Bool.and_eq_true] at hi
      have hne := h.nonempty_of_contains h' hne' hi.2
      rw [union_eq_left.mpr (h.subset_of_isRect h' hne hi.1 hi.2)]
      exact h
    · rw [Bool.and_eq_true] at hi'
      rw [union_eq_right.mpr (h'.subset_of_isRect h hne' hi'.1 hi'.2)]
      exact h'
    · rw [Bool.and_eq_true] at hc
      rw [union_eq_left.mpr ((h.containsRegion_iff h' hne').mp hc.2)]
      exact h
    · exact h.unite_of_merge h' hne'

end Represents

/-! ### Translation -/

variable (dx dy : Int)

/-- The pixels moved by an offset. -/
def translatePoints (points : Set (Int × Int)) : Set (Int × Int) :=
  { p | (p.1 - dx, p.2 - dy) ∈ points }

theorem mem_translatePoints {dx dy x y pts} :
    (x, y) ∈ translatePoints dx dy pts ↔ (x - dx, y - dy) ∈ pts := Iff.rfl

theorem mem_translatePoints_add {dx dy x y pts} :
    (x + dx, y + dy) ∈ translatePoints dx dy pts ↔ (x, y) ∈ pts := by
  rw [mem_translatePoints, add_sub_cancel_right, add_sub_cancel_right]

def translateRows (rows : List Row) : List Row :=
  rows.map fun row => (row.1 + dy, row.2.map (· + dx))

theorem toggled_translate (dx : Int) (segs : List Int) (x : Int) :
    toggled (segs.map (· + dx)) x = toggled segs (x - dx) := by
  induction segs with
  | nil => rfl
  | cons x' rest ih =>
    rw [map_cons, toggled_cons, toggled_cons, ih, decide_eq_decide.mpr le_sub_iff_add_le.symm]

theorem valueAt_translateRows (d : List Int) (rows : List Row) (y : Int) :
    valueAt (d.map (· + dx)) (translateRows dx dy rows) y =
      (valueAt d rows (y - dy)).map (· + dx) := by
  induction rows generalizing d with
  | nil => rfl
  | cons row rest ih =>
    have hr := ih row.2
    rw [translateRows, map_cons, valueAt_cons, valueAt_cons, ← translateRows, hr]
    by_cases hy : y < row.1 + dy
    · rw [if_pos hy, if_pos (sub_lt_iff_lt_add.mpr hy)]
    · rw [if_neg hy, if_neg (mt sub_lt_iff_lt_add.mp hy)]

theorem rowPoints_translateRows (rows : List Row) :
    rowPoints (translateRows dx dy rows) = translatePoints dx dy (rowPoints rows) := by
  ext ⟨x, y⟩
  have hv := valueAt_translateRows dx dy [] rows y
  rw [map_nil] at hv
  rw [mem_translatePoints, mem_rowPoints, mem_rowPoints, hv, toggled_translate]

theorem finalValue_translateRows (d : List Int) (rows : List Row) :
    finalValue (d.map (· + dx)) (translateRows dx dy rows) = (finalValue d rows).map (· + dx) := by
  induction rows generalizing d with
  | nil => rfl
  | cons row rest ih => exact ih row.2

theorem changes_translateRows {d : List Int} {rows : List Row} (h : Changes d rows) :
    Changes (d.map (· + dx)) (translateRows dx dy rows) := by
  induction rows generalizing d with
  | nil => exact trivial
  | cons row rest ih =>
    refine ⟨fun heq => h.1 ?_, ih h.2⟩
    exact map_injective_iff.mpr (add_left_injective dx) heq

theorem segmentList_translate (dx : Int) {segs : List Int} (h : SegmentList segs) :
    SegmentList (segs.map (· + dx)) := by
  refine ⟨?_, ?_⟩
  · rw [pairwise_map]
    exact h.sorted.imp fun hlt => Int.add_lt_add_right hlt dx
  · rw [length_map]
    exact h.even

theorem canonicalRows_translateRows {rows} (h : CanonicalRows rows) :
    CanonicalRows (translateRows dx dy rows) where
  increasing := by
    rw [Increasing, translateRows, pairwise_map]
    exact h.increasing.imp fun hlt => Int.add_lt_add_right hlt dy
  changes := changes_translateRows dx dy h.changes
  final := by
    have hf := finalValue_translateRows dx dy [] rows
    rwa [h.final] at hf
  segments := by
    intro row hro
    obtain ⟨row', hro', rfl⟩ := mem_map.mp hro
    exact segmentList_translate dx (h.segments row' hro')

theorem layoutSpans_translateRows (idx : Nat) (rows : List Row) :
    layoutSpans idx (translateRows dx dy rows) =
      (layoutSpans idx rows).map fun span => { span with y := span.y + dy } := by
  induction rows generalizing idx with
  | nil => rfl
  | cons row rest ih =>
    have hr := ih (idx + row.2.length)
    rw [translateRows, map_cons, layoutSpans, ← translateRows, layoutSpans, map_cons,
      length_map, hr]

theorem translate_ofRows (rows : List Row) :
    (ofRows rows).translate dx dy = ofRows (translateRows dx dy rows) := by
  rw [Shape.translate, ofRows, ofRows, layoutSpans_translateRows, translateRows, flatMap_map,
    map_flatMap]

theorem isBoundingBox_move {rect : IntRect} {pts} (h : IsBoundingBox rect pts) :
    IsBoundingBox (rect.move dx dy) (translatePoints dx dy pts) where
  nonempty := h.nonempty
  covers x y hxy := by
    have hin := containsPoint_iff.mp (h.covers _ _ hxy)
    rw [containsPoint_iff]
    simp only [move, maxX, maxY] at hin ⊢
    omega
  least rect' hrc' := by
    have hbc := h.least (rect'.move (-dx) (-dy)) fun x y hxy => by
      have hin := containsPoint_iff.mp (hrc' _ _ (mem_translatePoints_add.mpr hxy))
      rw [containsPoint_iff]
      simp only [move, maxX, maxY] at hin ⊢
      omega
    rw [contains_iff] at hbc ⊢
    simp only [move, maxX, maxY] at hbc ⊢
    omega

theorem Represents.translate {region : Region} {pts} (h : Represents region pts) (dx dy : Int) :
    Represents (region.translate dx dy) (translatePoints dx dy pts) where
  shape := by
    obtain ⟨rows, hrw, hs, rfl⟩ := h.shape
    refine ⟨_, canonicalRows_translateRows dx dy hrw, ?_, rowPoints_translateRows dx dy rows⟩
    rw [Region.translate, hs, translate_ofRows]
  emptyBounds he := by
    refine h.emptyBounds (eq_empty_of_forall_notMem fun p hp => ?_)
    have hmv : (p.1 + dx, p.2 + dy) ∈ translatePoints dx dy pts :=
      mem_translatePoints_add.mpr hp
    rw [he] at hmv
    cases hmv
  bounds hne := by
    obtain ⟨p, hp⟩ := hne
    exact isBoundingBox_move dx dy (h.bounds ⟨_, hp⟩)

/-! ### Regions built from rectangles -/

/-- How a region is built. -/
inductive RegionExpr where
  | empty
  | rect (rect : IntRect)
  | unite (region other : RegionExpr)
  | intersect (region other : RegionExpr)
  | subtract (region other : RegionExpr)
  | translate (region : RegionExpr) (dx dy : Int)

namespace RegionExpr

/-- The region that the code builds. -/
def eval : RegionExpr → Region
  | empty => Region.empty
  | rect r => Region.ofRect r
  | unite region other => region.eval.unite other.eval
  | intersect region other => region.eval.intersect other.eval
  | subtract region other => region.eval.subtract other.eval
  | translate region dx dy => region.eval.translate dx dy

/-- The pixels that are meant. -/
def points : RegionExpr → Set (Int × Int)
  | empty => ∅
  | rect r => rectPoints r
  | unite region other => region.points ∪ other.points
  | intersect region other => region.points ∩ other.points
  | subtract region other => region.points \ other.points
  | translate region dx dy => translatePoints dx dy region.points

/-- Rectangles with pixels, and only coordinates that a `LayoutUnit` can hold. -/
def InRange : RegionExpr → Prop
  | empty => True
  | rect r => r.isEmpty = false ∧ r.InLayoutRange
  | unite region other => region.InRange ∧ other.InRange
  | intersect region other => region.InRange ∧ other.InRange
  | subtract region other => region.InRange ∧ other.InRange
  | translate region dx dy => region.InRange ∧ (region.eval.bounds.move dx dy).InLayoutRange

instance decidableInRange : (e : RegionExpr) → Decidable e.InRange
  | empty => isTrue trivial
  | rect r => inferInstanceAs (Decidable (r.isEmpty = false ∧ r.InLayoutRange))
  | unite region other =>
    @instDecidableAnd _ _ (decidableInRange region) (decidableInRange other)
  | intersect region other =>
    @instDecidableAnd _ _ (decidableInRange region) (decidableInRange other)
  | subtract region other =>
    @instDecidableAnd _ _ (decidableInRange region) (decidableInRange other)
  | translate region dx dy =>
    @instDecidableAnd _ (region.eval.bounds.move dx dy).InLayoutRange (decidableInRange region)
      inferInstance

/-- What is built represents what is meant. -/
theorem represents_eval {e : RegionExpr} (h : e.InRange) :
    Represents e.eval e.points ∧ PointsInRange e.points := by
  induction e with
  | empty => exact ⟨represents_empty, fun x y hxy => absurd hxy (notMem_empty _)⟩
  | rect r =>
    have hrc := represents_ofRect h.1
    exact ⟨hrc, hrc.pointsInRange h.2⟩
  | unite region oth ih ih' =>
    obtain ⟨hrg, hg⟩ := ih h.1
    obtain ⟨ho, hg'⟩ := ih' h.2
    refine ⟨hrg.unite ho, ?_⟩
    rintro x y (hxy | hxy)
    · exact hg x y hxy
    · exact hg' x y hxy
  | intersect region oth ih ih' =>
    obtain ⟨hrg, hg⟩ := ih h.1
    exact ⟨hrg.intersect (ih' h.2).1 hg, hg.mono inter_subset_left⟩
  | subtract region oth ih ih' =>
    obtain ⟨hrg, hg⟩ := ih h.1
    exact ⟨hrg.subtract (ih' h.2).1 hg, hg.mono sdiff_subset⟩
  | translate region dx dy ih =>
    have hmv := (ih h.1).1.translate dx dy
    exact ⟨hmv, hmv.pointsInRange h.2⟩

/-- Every query on a region, and on a second one, is answered as on their sets
of pixels, and their shapes are equal exactly if the sets are. -/
structure AgreesWithPoints (a b : RegionExpr) : Prop where
  containsPoint : ∀ px py, a.eval.containsPoint px py = true ↔ (px, py) ∈ a.points
  containsRegion : a.eval.containsRegion b.eval = true ↔ b.points ⊆ a.points
  intersects : a.eval.intersects b.eval = true ↔ (a.points ∩ b.points).Nonempty
  rectsDisjoint : a.eval.rects.Pairwise Region.DisjointRects
  rectsCover : ∀ px py,
    (∃ rect ∈ a.eval.rects, rect.containsPoint px py = true) ↔ (px, py) ∈ a.points
  isEmpty : a.eval.isEmpty = true ↔ a.points = ∅
  bounds : a.points.Nonempty → IsBoundingBox a.eval.bounds a.points
  shape : a.eval.shape = b.eval.shape ↔ a.points = b.points

theorem agreesWithPoints_iff_containsRegion {a b : RegionExpr} (ha : a.InRange) (hb : b.InRange) :
    AgreesWithPoints a b ↔ (a.eval.containsRegion b.eval = true ↔ b.points ⊆ a.points) := by
  obtain ⟨ha, -⟩ := represents_eval ha
  obtain ⟨hb, -⟩ := represents_eval hb
  refine ⟨fun h => h.containsRegion, fun h => ?_⟩
  exact {
    containsPoint := ha.containsPoint_iff
    containsRegion := h
    intersects := ha.intersects_iff hb
    rectsDisjoint := ha.pairwise_rects
    rectsCover := ha.rects_iff
    isEmpty := ha.isEmpty_iff
    bounds := ha.bounds
    shape := ha.shape_eq_iff hb }

/-- The queries agree with the sets of pixels unless the region asked for has no
pixels and its bounds lie outside. -/
theorem agreesWithPoints_iff (a b : RegionExpr) (ha : a.InRange) (hb : b.InRange) :
    AgreesWithPoints a b ↔
      b.eval.isEmpty = false ∨ a.eval.bounds.contains b.eval.bounds = true := by
  rw [agreesWithPoints_iff_containsRegion ha hb]
  obtain ⟨ha, -⟩ := represents_eval ha
  obtain ⟨hb, -⟩ := represents_eval hb
  constructor
  · intro hexact
    by_contra houtside
    obtain ⟨hemp, hbds⟩ := not_or.mp houtside
    rw [Bool.not_eq_false, hb.isEmpty_iff] at hemp
    have hcont := hexact.mpr (hemp ▸ empty_subset _)
    rw [Bool.not_eq_true] at hbds
    rw [Region.containsRegion, hbds] at hcont
    cases hcont
  · rintro (hne | hbds)
    · exact ha.containsRegion_iff hb (hb.isEmpty_eq_false_iff.mp hne)
    · exact ha.containsRegion_of_bounds hb hbds

/-- A rectangle with a hole around the pixels of a moved rectangle. -/
theorem agreesWithPoints_hole :
    AgreesWithPoints (subtract (rect ⟨0, 0, 10, 10⟩) (rect ⟨6, 6, 3, 3⟩))
      (translate (rect ⟨0, 0, 4, 4⟩) 1 1) :=
  (agreesWithPoints_iff _ _ (by decide) (by decide)).mpr (.inl (by decide))

/-- A region without pixels is not contained in a rectangle that is away from
the origin. -/
theorem containsRegion_empty_intersection :
    let a := rect ⟨10, 10, 10, 10⟩
    let b := intersect (rect ⟨0, 0, 5, 5⟩) (rect ⟨20, 20, 5, 5⟩)
    a.InRange ∧ b.InRange ∧ b.points ⊆ a.points ∧ a.eval.containsRegion b.eval = false ∧
      ¬ AgreesWithPoints a b := by
  intro a b
  have hb : b.InRange := by decide
  have hsub : b.points ⊆ a.points := by
    have hemp : b.eval.isEmpty = true := by decide
    rw [(represents_eval hb).1.isEmpty_iff.mp hemp]
    exact empty_subset _
  have hcode : a.eval.containsRegion b.eval = false := by decide
  refine ⟨by decide, hb, hsub, hcode, fun hagrees => ?_⟩
  rw [hagrees.containsRegion.mpr hsub] at hcode
  cases hcode

end RegionExpr

end QtWebKit.Graphics
