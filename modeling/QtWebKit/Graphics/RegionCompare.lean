import QtWebKit.Graphics.RegionRows

/-!
# The comparison of two shapes

`compareShapes` answers containment and overlap by one simultaneous walk. The
containment walk only looks at the part of the second shape that starts with the
current span of the first: what lies above was tested with the previous span,
or the walk has ended there.
-/

namespace QtWebKit.Graphics.Shape

open StepFunction List

/-! ### Comparing segments -/

/-- The second list lies within the first. -/
def Covers (a b : List Int) : Prop := ∀ x, toggled b x = true → toggled a x = true

/-- The two lists have a common point. -/
def Meets (a b : List Int) : Prop := ∃ x, toggled a x = true ∧ toggled b x = true

theorem covers_nil (a : List Int) : Covers a [] := by
  intro x hx
  simp at hx

theorem not_meets_nil_left (b : List Int) : ¬ Meets [] b := by
  rintro ⟨x, hx, _⟩
  simp at hx

theorem not_meets_nil_right (a : List Int) : ¬ Meets a [] := by
  rintro ⟨x, _, hx⟩
  simp at hx

/-- A list of segments is empty or starts with a segment. -/
theorem segmentList_cases {segs} (h : SegmentList segs) :
    segs = [] ∨ ∃ x maxX rest, segs = x :: maxX :: rest ∧ x < maxX ∧
      (∀ x' ∈ rest, maxX < x') ∧ SegmentList rest := by
  match segs, h with
  | [], _ => exact .inl rfl
  | [x], h => exact absurd h.even (by simp)
  | x :: maxX :: rest, h =>
    have hs := h.sorted
    simp only [pairwise_cons, mem_cons, forall_eq_or_imp] at hs
    have hev := h.even
    simp only [length_cons] at hev
    exact .inr ⟨x, maxX, rest, rfl, hs.1.1, hs.2.1, ⟨hs.2.2, by omega⟩⟩

/-- Induction over the segments of a list. -/
theorem SegmentList.induction {motive : ∀ segs, SegmentList segs → Prop}
    (nil : ∀ h, motive [] h) (cons : ∀ x maxX rest h, x < maxX → (∀ x' ∈ rest, maxX < x') →
      (htl : SegmentList rest) → motive rest htl → motive (x :: maxX :: rest) h)
    {segs} (h : SegmentList segs) : motive segs h := by
  induction hn : segs.length using Nat.strong_induction_on generalizing segs with
  | _ n ih =>
    rcases segmentList_cases h with rfl | ⟨x, maxX, rest, rfl, hx, hr, htl⟩
    · exact nil h
    · simp only [length_cons] at hn
      exact cons x maxX rest h hx hr htl (ih rest.length (by omega) htl rfl)

theorem not_covers_nil {b} (hb : SegmentList b) (hne : b ≠ []) : ¬ Covers [] b := by
  intro hc
  obtain ⟨x, rest, rfl⟩ := exists_cons_of_ne_nil hne
  have hs := hb.sorted
  rw [pairwise_cons] at hs
  have hx := hc x (toggled_head hs.1)
  simp at hx

/-- Where a first segment and the rest lie. -/
theorem toggled_segment {x maxX rest} (hx : x < maxX)
    (hr : ∀ x' ∈ rest, maxX < x') (h : SegmentList rest) (p : Int) :
    (toggled (x :: maxX :: rest) p = true ↔ (x ≤ p ∧ p < maxX) ∨ toggled rest p = true) ∧
      (toggled rest p = true → maxX < p) := by
  constructor
  · apply toggled_cons_cons
    simp only [pairwise_cons, mem_cons, forall_eq_or_imp]
    exact ⟨⟨hx, fun x' hx' => hx.trans (hr x' hx')⟩, hr, h.sorted⟩
  · intro hp
    by_contra hle
    rw [toggled_eq_false_of_lt fun x' hx' => (not_lt.mp hle).trans_lt (hr x' hx')] at hp
    cases hp

theorem compareSegments_contains_cons (aX aMaxX bX bMaxX : Int) (aRest bRest : List Int) :
    compareSegments compareContainsOperation (aX :: aMaxX :: aRest) (bX :: bMaxX :: bRest) =
      if bX < aX then some false
      else if aMaxX < bMaxX then
        compareSegments compareContainsOperation aRest (bX :: bMaxX :: bRest)
      else if bMaxX < aMaxX then
        compareSegments compareContainsOperation (aX :: aMaxX :: aRest) bRest
      else compareSegments compareContainsOperation aRest bRest := by
  rw [compareSegments]
  by_cases h : bX < aX <;> simp [compareContainsOperation, returnIf, h]

theorem compareSegments_intersects_cons (aX aMaxX bX bMaxX : Int) (aRest bRest : List Int) :
    compareSegments compareIntersectsOperation (aX :: aMaxX :: aRest) (bX :: bMaxX :: bRest) =
      if aX < bMaxX ∧ bX < aMaxX then some true
      else if aMaxX < bMaxX then
        compareSegments compareIntersectsOperation aRest (bX :: bMaxX :: bRest)
      else if bMaxX < aMaxX then
        compareSegments compareIntersectsOperation (aX :: aMaxX :: aRest) bRest
      else compareSegments compareIntersectsOperation aRest bRest := by
  rw [compareSegments]
  by_cases h : aX < bMaxX ∧ bX < aMaxX
  · simp [compareIntersectsOperation, returnIf, h]
  · have hf : (decide (bMaxX > aX) && decide (bX < aMaxX)) = false := by
      simpa only [Bool.and_eq_false_iff, decide_eq_false_iff_not, gt_iff_lt] using not_and_or.mp h
    simp [compareIntersectsOperation, returnIf, h, hf]

/-- Segments of overlapping spans: containment. -/
theorem compareSegments_contains {a b} (ha : SegmentList a) (hb : SegmentList b) :
    (Covers a b ∧ compareSegments compareContainsOperation a b = none) ∨
      (¬ Covers a b ∧ compareSegments compareContainsOperation a b = some false) := by
  induction hn : a.length + b.length using Nat.strong_induction_on generalizing a b with
  | _ n ih =>
    rcases segmentList_cases hb with rfl | ⟨bX, bMaxX, bRest, rfl, hb1, hb2, hb3⟩
    · refine .inl ⟨covers_nil a, ?_⟩
      rw [compareSegments]
      · simp [compareContainsOperation, returnIf]
      · simp
    rcases segmentList_cases ha with rfl | ⟨aX, aMaxX, aRest, rfl, ha1, ha2, ha3⟩
    · refine .inr ⟨not_covers_nil hb (by simp), ?_⟩
      rw [compareSegments]
      · simp [compareContainsOperation, returnIf]
      · simp
    simp only [length_cons] at hn
    have hA := toggled_segment ha1 ha2 ha3
    have hB := toggled_segment hb1 hb2 hb3
    rw [compareSegments_contains_cons]
    by_cases hlf : bX < aX
    · rw [if_pos hlf]
      refine .inr ⟨fun hc => ?_, rfl⟩
      rcases (hA bX).1.mp (hc bX ((hB bX).1.mpr (.inl ⟨le_rfl, hb1⟩))) with hx | hx
      · omega
      · have hr := (hA bX).2 hx
        omega
    rw [if_neg hlf]
    by_cases hlt : aMaxX < bMaxX
    · rw [if_pos hlt]
      have hi : Covers (aX :: aMaxX :: aRest) (bX :: bMaxX :: bRest) ↔
          Covers aRest (bX :: bMaxX :: bRest) := by
        refine ⟨fun hc x hx => ?_, fun hc x hx => (hA x).1.mpr (.inr (hc x hx))⟩
        rcases (hA x).1.mp (hc x hx) with hsg | hr
        · -- the segment of the second list would reach beyond the one around `x`
          have hmx : toggled (bX :: bMaxX :: bRest) aMaxX = true := by
            refine (hB aMaxX).1.mpr (.inl ⟨?_, hlt⟩)
            rcases (hB x).1.mp hx with hbx | hbx
            · omega
            · have haf := (hB x).2 hbx
              omega
          rcases (hA aMaxX).1.mp (hc aMaxX hmx) with hm | hm
          · omega
          · have haf := (hA aMaxX).2 hm
            omega
        · exact hr
      rw [hi]
      exact ih _ (by simp only [length_cons]; omega) ha3 hb rfl
    rw [if_neg hlt]
    by_cases hgt : bMaxX < aMaxX
    · rw [if_pos hgt]
      have hi : Covers (aX :: aMaxX :: aRest) (bX :: bMaxX :: bRest) ↔
          Covers (aX :: aMaxX :: aRest) bRest := by
        refine ⟨fun hc x hx => hc x ((hB x).1.mpr (.inr hx)), fun hc x hx => ?_⟩
        rcases (hB x).1.mp hx with hsg | hr
        · exact (hA x).1.mpr (.inl ⟨by omega, by omega⟩)
        · exact hc x hr
      rw [hi]
      exact ih _ (by simp only [length_cons]; omega) ha hb3 rfl
    rw [if_neg hgt]
    have hi : Covers (aX :: aMaxX :: aRest) (bX :: bMaxX :: bRest) ↔ Covers aRest bRest := by
      refine ⟨fun hc x hx => ?_, fun hc x hx => ?_⟩
      · have haf := (hB x).2 hx
        rcases (hA x).1.mp (hc x ((hB x).1.mpr (.inr hx))) with hsg | hr
        · omega
        · exact hr
      · rcases (hB x).1.mp hx with hsg | hr
        · exact (hA x).1.mpr (.inl ⟨by omega, by omega⟩)
        · exact (hA x).1.mpr (.inr (hc x hr))
    rw [hi]
    exact ih _ (by omega) ha3 hb3 rfl

/-- Segments of overlapping spans: overlap. -/
theorem compareSegments_intersects {a b} (ha : SegmentList a) (hb : SegmentList b) :
    (¬ Meets a b ∧ compareSegments compareIntersectsOperation a b = none) ∨
      (Meets a b ∧ compareSegments compareIntersectsOperation a b = some true) := by
  induction hn : a.length + b.length using Nat.strong_induction_on generalizing a b with
  | _ n ih =>
    rcases segmentList_cases hb with rfl | ⟨bX, bMaxX, bRest, rfl, hb1, hb2, hb3⟩
    · refine .inl ⟨not_meets_nil_right a, ?_⟩
      rw [compareSegments]
      · simp [compareIntersectsOperation, returnIf]
      · simp
    rcases segmentList_cases ha with rfl | ⟨aX, aMaxX, aRest, rfl, ha1, ha2, ha3⟩
    · refine .inl ⟨not_meets_nil_left _, ?_⟩
      rw [compareSegments]
      · simp [compareIntersectsOperation, returnIf]
      · simp
    simp only [length_cons] at hn
    have hA := toggled_segment ha1 ha2 ha3
    have hB := toggled_segment hb1 hb2 hb3
    rw [compareSegments_intersects_cons]
    by_cases ho : aX < bMaxX ∧ bX < aMaxX
    · rw [if_pos ho]
      refine .inr ⟨⟨max aX bX, (hA _).1.mpr (.inl ?_), (hB _).1.mpr (.inl ?_)⟩, rfl⟩ <;> omega
    rw [if_neg ho]
    by_cases hlt : aMaxX < bMaxX
    · rw [if_pos hlt]
      have hi : Meets (aX :: aMaxX :: aRest) (bX :: bMaxX :: bRest) ↔
          Meets aRest (bX :: bMaxX :: bRest) := by
        constructor <;> rintro ⟨x, hax, hbx⟩ <;> refine ⟨x, ?_, hbx⟩
        · rcases (hA x).1.mp hax with hsg | hr
          · rcases (hB x).1.mp hbx with hbseg | hbr
            · omega
            · have haf := (hB x).2 hbr
              omega
          · exact hr
        · exact (hA x).1.mpr (.inr hax)
      rw [hi]
      exact ih _ (by simp only [length_cons]; omega) ha3 hb rfl
    rw [if_neg hlt]
    by_cases hgt : bMaxX < aMaxX
    · rw [if_pos hgt]
      have hi : Meets (aX :: aMaxX :: aRest) (bX :: bMaxX :: bRest) ↔
          Meets (aX :: aMaxX :: aRest) bRest := by
        constructor <;> rintro ⟨x, hax, hbx⟩ <;> refine ⟨x, hax, ?_⟩
        · rcases (hB x).1.mp hbx with hsg | hr
          · rcases (hA x).1.mp hax with haseg | har
            · omega
            · have haf := (hA x).2 har
              omega
          · exact hr
        · exact (hB x).1.mpr (.inr hbx)
      rw [hi]
      exact ih _ (by simp only [length_cons]; omega) ha hb3 rfl
    omega

/-! ### One step over the spans -/

section

variable {aY aMaxY bY bMaxY : Int} {a a' b b' : List Int} {aRows bRows : List Row}

/-- The first shape covers the second from `y0` on. -/
def CoversFrom (y0 : Int) (aRows bRows : List Row) : Prop :=
  ∀ y, y0 ≤ y → Covers (valueAt [] aRows y) (valueAt [] bRows y)

/-- The two shapes have a common point. -/
def MeetSomewhere (aRows bRows : List Row) : Prop :=
  ∃ y, Meets (valueAt [] aRows y) (valueAt [] bRows y)

/-- A relation holds between the segments of two shapes from `y0` on. -/
def HoldsFrom (relation : List Int → List Int → Prop) (y0 : Int) (aRows bRows : List Row) : Prop :=
  ∀ y, y0 ≤ y → relation (valueAt [] aRows y) (valueAt [] bRows y)

variable {relation : List Int → List Int → Prop}

/-- Up to the end of the first span that ends, the segments are those of the two spans. -/
theorem holdsFrom_split (hnl : ∀ a, relation a []) (ha : aY < aMaxY) (hb : bY < bMaxY)
    (hst : aY < bMaxY) :
    HoldsFrom relation aY ((aY, a) :: (aMaxY, a') :: aRows) ((bY, b) :: (bMaxY, b') :: bRows) ↔
      (bY < aMaxY → relation a b) ∧ HoldsFrom relation (min aMaxY bMaxY)
        ((aY, a) :: (aMaxY, a') :: aRows) ((bY, b) :: (bMaxY, b') :: bRows) := by
  constructor
  · intro h
    refine ⟨fun ho => ?_, fun y hy => h y (by omega)⟩
    have hmx := h (max aY bY) (le_max_left _ _)
    rwa [valueAt_first (by omega) (by omega), valueAt_first (by omega) (by omega)] at hmx
  · rintro ⟨hss, hr⟩ y hy
    by_cases he : y < min aMaxY bMaxY
    · by_cases hby : y < bY
      · rw [valueAt_before hby]
        exact hnl _
      · rw [valueAt_first hy (by omega), valueAt_first (by omega) (by omega)]
        exact hss (by omega)
    · exact hr y (not_lt.mp he)

/-- One step of a walk: the shape whose span ends goes on to its next span. -/
theorem holdsFrom_step (hnl : ∀ a, relation a []) (ha : aY < aMaxY) (hb : bY < bMaxY)
    (hst : aY < bMaxY) :
    HoldsFrom relation aY ((aY, a) :: (aMaxY, a') :: aRows) ((bY, b) :: (bMaxY, b') :: bRows) ↔
      (bY < aMaxY → relation a b) ∧
        if aMaxY < bMaxY then
          HoldsFrom relation aMaxY ((aMaxY, a') :: aRows) ((bY, b) :: (bMaxY, b') :: bRows)
        else if bMaxY < aMaxY then
          HoldsFrom relation aY ((aY, a) :: (aMaxY, a') :: aRows) ((bMaxY, b') :: bRows)
        else HoldsFrom relation aMaxY ((aMaxY, a') :: aRows) ((bMaxY, b') :: bRows) := by
  rw [holdsFrom_split hnl ha hb hst]
  apply and_congr_right'
  rcases lt_trichotomy aMaxY bMaxY with hlt | rfl | hgt
  · rw [if_pos hlt, min_eq_left hlt.le]
    refine forall₂_congr fun y hy => ?_
    rw [valueAt_tail ha hy]
  · rw [if_neg (lt_irrefl _), if_neg (lt_irrefl _), min_self]
    refine forall₂_congr fun y hy => ?_
    rw [valueAt_tail ha hy, valueAt_tail hb hy]
  · rw [if_neg hgt.not_gt, if_pos hgt, min_eq_right hgt.le]
    constructor
    · intro h y hy
      by_cases hby : y < bMaxY
      · rw [valueAt_before hby]
        exact hnl _
      · have hy' := h y (not_lt.mp hby)
        rwa [valueAt_tail hb (not_lt.mp hby)] at hy'
    · intro h y hy
      rw [valueAt_tail hb hy]
      exact h y (hst.le.trans hy)

/-- One step of the containment walk. -/
theorem coversFrom_step (ha : aY < aMaxY) (hb : bY < bMaxY) (hst : aY < bMaxY) :
    CoversFrom aY ((aY, a) :: (aMaxY, a') :: aRows) ((bY, b) :: (bMaxY, b') :: bRows) ↔
      (bY < aMaxY → Covers a b) ∧
        if aMaxY < bMaxY then
          CoversFrom aMaxY ((aMaxY, a') :: aRows) ((bY, b) :: (bMaxY, b') :: bRows)
        else if bMaxY < aMaxY then
          CoversFrom aY ((aY, a) :: (aMaxY, a') :: aRows) ((bMaxY, b') :: bRows)
        else CoversFrom aMaxY ((aMaxY, a') :: aRows) ((bMaxY, b') :: bRows) :=
  holdsFrom_step covers_nil ha hb hst

/-- Two shapes are apart when their segments are from the first span of one of them on. -/
theorem meetSomewhere_iff : MeetSomewhere ((aY, a) :: aRows) bRows ↔
    ¬ HoldsFrom (fun a b => ¬ Meets a b) aY ((aY, a) :: aRows) bRows := by
  simp only [HoldsFrom, not_forall, not_not]
  constructor
  · rintro ⟨y, hmt⟩
    refine ⟨y, ?_, hmt⟩
    by_contra hay
    rw [valueAt_before (not_le.mp hay)] at hmt
    exact not_meets_nil_left _ hmt
  · rintro ⟨y, -, hmt⟩
    exact ⟨y, hmt⟩

/-- One step of the overlap walk. -/
theorem meetSomewhere_step (ha : aY < aMaxY) (hb : bY < bMaxY) :
    MeetSomewhere ((aY, a) :: (aMaxY, a') :: aRows) ((bY, b) :: (bMaxY, b') :: bRows) ↔
      (bMaxY > aY ∧ bY < aMaxY) ∧ Meets a b ∨
        if aMaxY < bMaxY then
          MeetSomewhere ((aMaxY, a') :: aRows) ((bY, b) :: (bMaxY, b') :: bRows)
        else if bMaxY < aMaxY then
          MeetSomewhere ((aY, a) :: (aMaxY, a') :: aRows) ((bMaxY, b') :: bRows)
        else MeetSomewhere ((aMaxY, a') :: aRows) ((bMaxY, b') :: bRows) := by
  simp only [meetSomewhere_iff]
  by_cases hst : aY < bMaxY
  · rw [holdsFrom_step not_meets_nil_right ha hb hst, not_and_or, Classical.not_imp, not_not]
    simp only [gt_iff_lt, hst, true_and]
    split_ifs <;> rfl
  · -- The span of the second shape ends before the first shape starts.
    have hlt : bMaxY < aMaxY := by omega
    rw [if_neg hlt.not_gt, if_pos hlt, or_iff_right (by omega)]
    refine not_congr (forall₂_congr fun y hy => ?_)
    rw [valueAt_tail hb (by omega)]

end

/-! ### The walk over the spans -/

/-- What the rows from a span on keep of canonical rows. -/
structure SpanRows (rows : List Row) : Prop where
  increasing : Increasing rows
  segments : ∀ row ∈ rows, SegmentList row.2
  final : finalValue [] rows = []
  distinct : rows.IsChain fun row row' => row'.2 ≠ row.2

variable {rows : List Row}

theorem SpanRows.tail {row} (h : SpanRows (row :: rows)) : SpanRows rows := by
  refine ⟨(increasing_cons.mp h.increasing).2, (forall_mem_cons.mp h.segments).2, ?_, ?_⟩
  · cases rows with
    | nil => rfl
    | cons row' rest => exact h.final
  · cases rows with
    | nil => exact List.IsChain.nil
    | cons row' rest => exact (isChain_cons_cons.mp h.distinct).2

theorem SpanRows.lt {row row' : Row} (h : SpanRows (row :: row' :: rows)) : row.1 < row'.1 :=
  (increasing_cons.mp h.increasing).1 row' mem_cons_self

theorem SpanRows.head {row : Row} (h : SpanRows (row :: rows)) : SegmentList row.2 :=
  h.segments row mem_cons_self

theorem isChain_of_changes {d} (h : Changes d rows) :
    rows.IsChain fun row row' => row'.2 ≠ row.2 := by
  induction rows generalizing d with
  | nil => exact List.IsChain.nil
  | cons row rest ih =>
    have hr := ih h.2
    cases rest with
    | nil => exact List.IsChain.singleton _
    | cons row' rest => exact List.IsChain.cons_cons h.2.1 hr

theorem spanRows_of_canonicalRows (h : CanonicalRows rows) : SpanRows rows :=
  ⟨h.increasing, h.segments, h.final, isChain_of_changes h.changes⟩

/-- A shape that goes on has a row with segments. -/
theorem exists_valueAt_ne_nil {bY bMaxY y0 b b' bRows}
    (h : SpanRows ((bY, b) :: (bMaxY, b') :: bRows)) (hst : y0 < bMaxY) :
    ∃ y, y0 ≤ y ∧ valueAt [] ((bY, b) :: (bMaxY, b') :: bRows) y ≠ [] := by
  have hlt : bY < bMaxY := h.lt
  by_cases hb : b = []
  · have hb' : b' ≠ [] := by
      have hd := h.distinct
      rw [isChain_cons_cons] at hd
      rw [← hb]
      exact hd.1
    refine ⟨bMaxY, hst.le, ?_⟩
    have hv := valueAt_of_mem (d := ([] : List Int)) h.tail.increasing mem_cons_self
    rw [valueAt_tail hlt le_rfl, hv]
    exact hb'
  · refine ⟨max y0 bY, le_max_left _ _, ?_⟩
    rwa [valueAt_first (by omega) (by omega)]

/-- A step of the walk when no span is outside of the other shape. -/
theorem compareSpans_cons {op : CompareOperation} {aShape bShape : Shape}
    {aSpan aNext bSpan bNext : Span} {aRest bRest aHad bHad}
    (hot : (returnIf
      (aSpan.y < bSpan.y && !bHad && !(aShape.segmentsAt (aSpan :: aNext :: aRest)).isEmpty)
      op.aOutsideB).or (returnIf (bSpan.y < aSpan.y && !aHad &&
        !(bShape.segmentsAt (bSpan :: bNext :: bRest)).isEmpty) op.bOutsideA) = none) :
    let a := aShape.segmentsAt (aSpan :: aNext :: aRest)
    let b := bShape.segmentsAt (bSpan :: bNext :: bRest)
    compareSpans op aShape bShape (aSpan :: aNext :: aRest) (bSpan :: bNext :: bRest) aHad bHad =
      (if bNext.y > aSpan.y && bSpan.y < aNext.y then compareSegments op a b else none).getD
        (if aNext.y < bNext.y then
          compareSpans op aShape bShape (aNext :: aRest) (bSpan :: bNext :: bRest) (!a.isEmpty)
            (!b.isEmpty)
        else if bNext.y < aNext.y then
          compareSpans op aShape bShape (aSpan :: aNext :: aRest) (bNext :: bRest) (!a.isEmpty)
            (!b.isEmpty)
        else
          compareSpans op aShape bShape (aNext :: aRest) (bNext :: bRest) (!a.isEmpty)
            (!b.isEmpty)) := by
  intro a b
  rw [compareSpans, hot, Option.none_or]
  cases (if bNext.y > aSpan.y && bSpan.y < aNext.y then compareSegments op a b else none) <;> rfl

theorem returnIf_none (cond : Bool) : returnIf cond none = none := by
  cases cond <;> rfl

theorem outside_contains {aSpan bSpan : Span} {a b : List Int} {aHad bHad}
    (hpr : bSpan.y < aSpan.y → b ≠ [] → aHad = true) :
    (returnIf (aSpan.y < bSpan.y && !bHad && !a.isEmpty) compareContainsOperation.aOutsideB).or
      (returnIf (bSpan.y < aSpan.y && !aHad && !b.isEmpty) compareContainsOperation.bOutsideA) =
        none := by
  rw [show compareContainsOperation.aOutsideB = none from rfl, returnIf_none, Option.none_or,
    returnIf, if_neg]
  simp only [Bool.and_eq_true, decide_eq_true_eq, Bool.not_eq_true', isEmpty_eq_false_iff, not_and,
    ne_eq]
  rintro ⟨hlt, hf⟩ hne
  rw [hpr hlt hne] at hf
  cases hf

/-- Before the last two spans nothing is left to meet. -/
theorem valueAt_eq_nil_of_length_lt {shape : Shape} {spans : List Span}
    (h : SpanRows (shape.rowsAt spans)) (hl : spans.length < 2) (y : Int) :
    valueAt [] (shape.rowsAt spans) y = [] := by
  match spans with
  | [] => rfl
  | [span] =>
    have hnl : shape.segmentsAt [span] = [] := h.final
    simp [rowsAt, hnl, valueAt_cons, valueAt_nil]
  | span :: next :: rest =>
    simp only [length_cons] at hl
    omega

/-- The result when one of the walks has come to its last span. -/
theorem compareSpans_end (op : CompareOperation) (aShape bShape : Shape) {aSpans bSpans : List Span}
    (aHad bHad : Bool) (h : aSpans.length < 2 ∨ bSpans.length < 2) :
    compareSpans op aShape bShape aSpans bSpans aHad bHad =
      ((returnIf (aSpans.length ≥ 2) op.aOutsideB).or
        (returnIf (bSpans.length ≥ 2) op.bOutsideA)).getD op.defaultResult := by
  rw [compareSpans]
  rintro aSpan aNext aRest bSpan bNext bRest rfl rfl
  simp only [length_cons] at h
  omega

/-- The segments of two spans are compared only where the spans overlap. -/
theorem inside_contains {aY aMaxY bY bMaxY : Int} {a b} (hst : aY < bMaxY) (ha : SegmentList a)
    (hb : SegmentList b) :
    (bY < aMaxY → Covers a b) ∧ (if bMaxY > aY && bY < aMaxY then
        compareSegments compareContainsOperation a b else none) = none ∨
      ¬ (bY < aMaxY → Covers a b) ∧ (if bMaxY > aY && bY < aMaxY then
        compareSegments compareContainsOperation a b else none) = some false := by
  by_cases hlt : bY < aMaxY
  · rw [if_pos (by simp [hst, hlt])]
    rcases compareSegments_contains ha hb with ⟨hc, hcd⟩ | ⟨hc, hcd⟩
    · exact .inl ⟨fun _ => hc, hcd⟩
    · exact .inr ⟨fun h => hc (h hlt), hcd⟩
  · exact .inl ⟨fun h => absurd h hlt, if_neg (by simp [hlt])⟩

/-- A shape that has ended covers no shape that goes on. -/
theorem not_coversFrom_last {aShape bShape : Shape} {aSpan bSpan bNext : Span} {bTail : List Span}
    (hA : SpanRows (aShape.rowsAt [aSpan]))
    (hB : SpanRows (bShape.rowsAt (bSpan :: bNext :: bTail))) (hst : aSpan.y < bNext.y) :
    ¬ CoversFrom aSpan.y (aShape.rowsAt [aSpan])
      (bShape.rowsAt (bSpan :: bNext :: bTail)) := by
  intro hc
  obtain ⟨y, hy, hne⟩ := exists_valueAt_ne_nil hB hst
  have hy' := hc y hy
  rw [valueAt_eq_nil_of_length_lt hA Nat.one_lt_two] at hy'
  exact not_covers_nil (segmentList_valueAt segmentList_nil hB.segments y) hne hy'

/-- The containment walk from overlapping or adjacent spans on. -/
theorem compareSpans_contains (aShape bShape : Shape) (aSpan bSpan : Span)
    (aRest bRest : List Span) (aHad bHad : Bool)
    (hA : SpanRows (aShape.rowsAt (aSpan :: aRest)))
      (hB : SpanRows (bShape.rowsAt (bSpan :: bRest)))
    (hst : ∀ bNext bTail, bRest = bNext :: bTail → aSpan.y < bNext.y)
    (hpr : bSpan.y < aSpan.y → bShape.segmentsAt (bSpan :: bRest) ≠ [] → aHad = true) :
    compareSpans compareContainsOperation aShape bShape (aSpan :: aRest) (bSpan :: bRest) aHad
      bHad =
        true ↔
      CoversFrom aSpan.y (aShape.rowsAt (aSpan :: aRest)) (bShape.rowsAt (bSpan :: bRest)) := by
  induction hn : aRest.length + bRest.length using Nat.strong_induction_on
    generalizing aSpan bSpan aRest bRest aHad bHad with
  | _ n ih =>
    rcases bRest with - | ⟨bNext, bTail⟩
    · refine iff_of_true ?_ fun y _ => ?_
      · rw [compareSpans_end _ _ _ _ _ (.inr (by simp))]
        simp [compareContainsOperation, returnIf]
      · rw [valueAt_eq_nil_of_length_lt hB Nat.one_lt_two]
        exact covers_nil _
    have hfr := hst bNext bTail rfl
    rcases aRest with - | ⟨aNext, aTail⟩
    · refine iff_of_false ?_ (not_coversFrom_last hA hB hfr)
      rw [compareSpans_end _ _ _ _ _ (.inl (by simp))]
      simp [compareContainsOperation, returnIf]
    simp only [length_cons] at hn
    rw [compareSpans_cons (outside_contains hpr)]
    refine Iff.trans ?_ (coversFrom_step hA.lt hB.lt hfr).symm
    have hlr (bNext' : Span) (bTail') (h : bTail = bNext' :: bTail') : bNext.y < bNext'.y := by
      subst h
      exact hB.tail.lt
    rcases inside_contains hfr hA.head hB.head with ⟨hc, hin⟩ | ⟨hc, hin⟩
    · rw [hin, and_iff_right hc, Option.getD_none]
      rcases lt_trichotomy aNext.y bNext.y with hlt | heq | hgt
      · rw [if_pos hlt, if_pos hlt]
        refine ih _ ?_ aNext bSpan aTail (bNext :: bTail) _ _ hA.tail hB ?_ ?_ rfl
        · simp only [length_cons]
          omega
        · rintro bNext' bTail' ⟨⟩
          exact hlt
        · intro hlt hne
          simp only [Bool.not_eq_true', isEmpty_eq_false_iff]
          intro hnl
          have hc' := hc hlt
          rw [hnl] at hc'
          exact not_covers_nil hB.head hne hc'
      · rw [if_neg heq.not_lt, if_neg heq.not_gt, if_neg heq.not_lt, if_neg heq.not_gt]
        refine ih _ (by omega) aNext bNext aTail bTail _ _ hA.tail hB.tail ?_ ?_ rfl
        · intro bNext' bTail' h
          exact heq ▸ hlr bNext' bTail' h
        · intro hlt
          exact absurd hlt heq.not_gt
      · rw [if_neg hgt.not_gt, if_pos hgt, if_neg hgt.not_gt, if_pos hgt]
        refine ih _ ?_ aSpan bNext (aNext :: aTail) bTail _ _ hA hB.tail ?_ ?_ rfl
        · simp only [length_cons]
          omega
        · intro bNext' bTail' h
          exact hfr.trans (hlr bNext' bTail' h)
        · intro hlt
          exact absurd hlt hfr.not_gt
    · rw [hin]
      exact ⟨fun h => absurd h Bool.false_ne_true, fun h => absurd h.1 hc⟩

theorem exists_cons_cons {α : Type*} {l : List α} (h : 2 ≤ l.length) :
    ∃ a b rest, l = a :: b :: rest := by
  match l with
  | [] => simp at h
  | [a] => simp at h
  | a :: b :: rest => exact ⟨a, b, rest, rfl⟩

/-- The overlap walk. -/
theorem compareSpans_intersects (aShape bShape : Shape) (aSpans bSpans : List Span)
    (aHad bHad : Bool) (hA : SpanRows (aShape.rowsAt aSpans))
      (hB : SpanRows (bShape.rowsAt bSpans)) :
    compareSpans compareIntersectsOperation aShape bShape aSpans bSpans aHad bHad = true ↔
      MeetSomewhere (aShape.rowsAt aSpans) (bShape.rowsAt bSpans) := by
  induction hn : aSpans.length + bSpans.length using Nat.strong_induction_on
    generalizing aSpans bSpans aHad bHad with
  | _ n ih =>
    by_cases he : aSpans.length < 2 ∨ bSpans.length < 2
    · rw [compareSpans_end _ aShape bShape aHad bHad he]
      refine iff_of_false (by simp [compareIntersectsOperation, returnIf]) fun ⟨y, hmt⟩ => ?_
      rcases he with hl | hl
      · rw [valueAt_eq_nil_of_length_lt hA hl] at hmt
        exact absurd hmt (not_meets_nil_left _)
      · rw [valueAt_eq_nil_of_length_lt hB hl] at hmt
        exact absurd hmt (not_meets_nil_right _)
    · obtain ⟨hln, hlg⟩ := not_or.mp he
      obtain ⟨aSpan, aNext, aTail, rfl⟩ := exists_cons_cons (not_lt.mp hln)
      obtain ⟨bSpan, bNext, bTail, rfl⟩ := exists_cons_cons (not_lt.mp hlg)
      simp only [length_cons] at hn
      rw [compareSpans_cons
        (by rw [compareIntersectsOperation, returnIf_none, returnIf_none, Option.none_or])]
      refine Iff.trans ?_ (meetSomewhere_step hA.lt hB.lt).symm
      by_cases hmt : (bNext.y > aSpan.y ∧ bSpan.y < aNext.y) ∧
          Meets (aShape.segmentsAt (aSpan :: aNext :: aTail))
            (bShape.segmentsAt (bSpan :: bNext :: bTail))
      · rw [if_pos (by simp [hmt.1.1, hmt.1.2])]
        rcases compareSegments_intersects hA.head hB.head with ⟨hnt, _⟩ | ⟨_, hcd⟩
        · exact absurd hmt.2 hnt
        · rw [hcd]
          exact ⟨fun _ => .inl hmt, fun _ => rfl⟩
      · have hin : (if bNext.y > aSpan.y && bSpan.y < aNext.y then
            compareSegments compareIntersectsOperation (aShape.segmentsAt (aSpan :: aNext :: aTail))
              (bShape.segmentsAt (bSpan :: bNext :: bTail)) else none) = none := by
          split_ifs with ho
          · simp only [Bool.and_eq_true, decide_eq_true_eq] at ho
            rcases compareSegments_intersects hA.head hB.head with ⟨_, hcd⟩ | ⟨hys, _⟩
            · exact hcd
            · exact absurd ⟨ho, hys⟩ hmt
          · rfl
        rw [hin, or_iff_right hmt, Option.getD_none]
        rcases lt_trichotomy aNext.y bNext.y with hlt | heq | hgt
        · rw [if_pos hlt, if_pos hlt]
          refine ih _ ?_ (aNext :: aTail) (bSpan :: bNext :: bTail) _ _ hA.tail hB rfl
          simp only [length_cons]
          omega
        · rw [if_neg heq.not_lt, if_neg heq.not_gt, if_neg heq.not_lt, if_neg heq.not_gt]
          refine ih _ ?_ (aNext :: aTail) (bNext :: bTail) _ _ hA.tail hB.tail rfl
          simp only [length_cons]
          omega
        · rw [if_neg hgt.not_gt, if_pos hgt, if_neg hgt.not_gt, if_pos hgt]
          refine ih _ ?_ (aSpan :: aNext :: aTail) (bNext :: bTail) _ _ hA hB.tail rfl
          simp only [length_cons]
          omega

/-! ### The comparisons of whole shapes -/

theorem eq_nil_or_head (h : CanonicalRows rows) :
    rows = [] ∨ ∃ y segs rest, rows = (y, segs) :: rest ∧ segs ≠ [] := by
  cases rows with
  | nil => exact .inl rfl
  | cons row rest => exact .inr ⟨row.1, row.2, rest, rfl, h.changes.1⟩

theorem compareShapes_intersects {aRows bRows} (hA : CanonicalRows aRows)
    (hB : CanonicalRows bRows) :
    compareShapes compareIntersectsOperation (ofRows aRows) (ofRows bRows) = true ↔
      (rowPoints aRows ∩ rowPoints bRows).Nonempty := by
  have hw := compareSpans_intersects (ofRows aRows) (ofRows bRows) (ofRows aRows).spans
    (ofRows bRows).spans false false
  rw [rowsAt_ofRows hA.final, rowsAt_ofRows hB.final] at hw
  rw [compareShapes, hw (spanRows_of_canonicalRows hA) (spanRows_of_canonicalRows hB)]
  exact ⟨fun ⟨y, x, hax, hbx⟩ => ⟨(x, y), hax, hbx⟩, fun ⟨⟨x, y⟩, hax, hbx⟩ => ⟨y, x, hax, hbx⟩⟩

theorem exists_next {y segs rest} (h : CanonicalRows ((y, segs) :: rest)) (hne : segs ≠ []) :
    ∃ maxY segs' tail, rest = (maxY, segs') :: tail := by
  cases rest with
  | nil => exact absurd h.final hne
  | cons row tail => exact ⟨row.1, row.2, tail, rfl⟩

theorem exists_span {shape : Shape} {spans} {y : Int} {segs : List Int}
    {rest : List Row} (h : shape.rowsAt spans = (y, segs) :: rest) :
    ∃ span spans', spans = span :: spans' ∧ span.y = y := by
  cases spans with
  | nil => cases h
  | cons span spans' => exact ⟨span, spans', rfl, congrArg Prod.fst (cons.inj h).1⟩

theorem spans_ofRows_cons {y segs rest} (h : CanonicalRows ((y, segs) :: rest)) :
    ∃ spans, (ofRows ((y, segs) :: rest)).spans = ⟨y, 0⟩ :: spans ∧
      (ofRows ((y, segs) :: rest)).segmentsAt (⟨y, 0⟩ :: spans) = segs := by
  have hrw := rowsAt_ofRows h.final
  refine ⟨layoutSpans (0 + segs.length) rest, rfl, ?_⟩
  exact congrArg Prod.snd (cons.inj hrw).1

/-- The containment walk, started on whole shapes. -/
theorem compareShapes_contains {aRows bRows} (hA : CanonicalRows aRows) (hB : CanonicalRows bRows) :
    compareShapes compareContainsOperation (ofRows aRows) (ofRows bRows) = true ↔
      rowPoints bRows ⊆ rowPoints aRows := by
  rcases eq_nil_or_head hB with rfl | ⟨bY, b, bRest, rfl, hb⟩
  · have hcd : compareShapes compareContainsOperation (ofRows aRows) (ofRows []) = true := by
      rw [compareShapes, compareSpans]
      · simp [compareContainsOperation, returnIf, ofRows, layoutSpans]
      · simp [ofRows, layoutSpans]
    rw [hcd]
    exact ⟨fun _ p hp => absurd hp Bool.false_ne_true, fun _ => rfl⟩
  have hpn : (b.headD 0, bY) ∈ rowPoints ((bY, b) :: bRest) := by
    rw [mem_rowPoints, valueAt_of_mem hB.increasing (e := (bY, b)) mem_cons_self]
    obtain ⟨x, rest, rfl⟩ := exists_cons_of_ne_nil hb
    have hs := (hB.segments _ mem_cons_self).sorted
    rw [pairwise_cons] at hs
    exact toggled_head hs.1
  rcases eq_nil_or_head hA with rfl | ⟨aY, a, aRest, rfl, ha⟩
  · have hcd : compareShapes compareContainsOperation (ofRows []) (ofRows ((bY, b) :: bRest)) =
        false := by
      obtain ⟨bMaxY, b', bTail, rfl⟩ := exists_next hB hb
      rw [compareShapes, compareSpans]
      · simp [compareContainsOperation, returnIf, ofRows, layoutSpans]
      · simp [ofRows, layoutSpans]
    rw [hcd]
    refine ⟨fun h => absurd h Bool.false_ne_true, fun hsb => ?_⟩
    exact absurd (hsb hpn) Bool.false_ne_true
  obtain ⟨aSpans, hsp, hsegmentsA⟩ := spans_ofRows_cons hA
  obtain ⟨bSpans, hsn, hsm⟩ := spans_ofRows_cons hB
  have hrs := rowsAt_ofRows hA.final
  have hrb := rowsAt_ofRows hB.final
  rw [hsp] at hrs
  rw [hsn] at hrb
  rw [compareShapes, hsp, hsn]
  obtain ⟨bMaxY, b', bTail, rfl⟩ := exists_next hB hb
  obtain ⟨bNext, bSpans, rfl, hbNext⟩ := exists_span (cons.inj hrb).2
  by_cases hlt : bY < aY
  · have hcd : compareSpans compareContainsOperation (ofRows ((aY, a) :: aRest))
        (ofRows ((bY, b) :: (bMaxY, b') :: bTail)) (⟨aY, 0⟩ :: aSpans)
        (⟨bY, 0⟩ :: bNext :: bSpans) false false = false := by
      obtain ⟨aMaxY, a', aTail, rfl⟩ := exists_next hA ha
      obtain ⟨aNext, aSpans, rfl, _⟩ := exists_span (cons.inj hrs).2
      rw [compareSpans, hsm]
      simp [compareContainsOperation, returnIf, hlt, hb]
    rw [hcd]
    refine ⟨fun h => absurd h Bool.false_ne_true, fun hsb => ?_⟩
    have hm := hsb hpn
    rw [mem_rowPoints, valueAt_before hlt] at hm
    exact absurd hm Bool.false_ne_true
  · have hA' := spanRows_of_canonicalRows hA
    have hB' := spanRows_of_canonicalRows hB
    rw [← hrs] at hA'
    rw [← hrb] at hB'
    rw [compareSpans_contains _ _ _ _ _ _ _ _ hA' hB', hrs, hrb]
    · refine ⟨fun hc p hp => ?_, fun hsb y _ x hx => hsb (a := (x, y)) hx⟩
      by_cases hy : aY ≤ p.2
      · exact hc p.2 hy p.1 hp
      · rw [rowPoints, Set.mem_ofPred_eq, valueAt_before (by omega)] at hp
        exact absurd hp Bool.false_ne_true
    · rintro bNext' bTail' ⟨⟩
      have hnx : bY < bMaxY := (spanRows_of_canonicalRows hB).lt
      show aY < bNext.y
      omega
    · exact fun h => absurd h hlt

end QtWebKit.Graphics.Shape
