import QtWebKit.Graphics.RegionCompare
import Mathlib.Data.List.GetD

/-!
# Points, rectangles and bounds of a shape

The queries that read a shape directly: the search for a point, the list of
rectangles, and the bounding rectangle.
-/

namespace QtWebKit.Graphics

open StepFunction Shape List

/-! ### Rectangle queries -/

theorem IntRect.containsPoint_iff {rect : IntRect} {px py} :
    rect.containsPoint px py = true ↔
      rect.x ≤ px ∧ px < rect.maxX ∧ rect.y ≤ py ∧ py < rect.maxY := by
  simp [IntRect.containsPoint, and_assoc]

theorem IntRect.contains_iff {rect oth : IntRect} :
    rect.contains oth = true ↔
      rect.x ≤ oth.x ∧ oth.maxX ≤ rect.maxX ∧ rect.y ≤ oth.y ∧ oth.maxY ≤ rect.maxY := by
  simp [IntRect.contains, and_assoc]

theorem IntRect.isEmpty_eq_false_iff {rect : IntRect} :
    rect.isEmpty = false ↔ 0 < rect.width ∧ 0 < rect.height := by
  simp [IntRect.isEmpty, Bool.or_eq_false_iff, not_le]

/-! ### Points -/

namespace Region

theorem segmentsContain_eq {segs} (h : SegmentList segs) (px : Int) :
    segmentsContain px segs = toggled segs px := by
  induction h using SegmentList.induction with
  | nil => rfl
  | cons x maxX rest h hx hrs htl ih =>
    have hin := toggled_segment hx hrs htl px
    rw [Bool.eq_iff_iff, hin.1, segmentsContain]
    by_cases hlw : x > px
    · rw [if_pos hlw]
      refine ⟨fun h => absurd h Bool.false_ne_true, ?_⟩
      rintro (hse | hse)
      · omega
      · have haf := hin.2 hse
        omega
    · rw [if_neg hlw]
      by_cases hh : maxX > px
      · rw [if_pos hh]
        exact ⟨fun _ => .inl ⟨by omega, hh⟩, fun _ => rfl⟩
      · rw [if_neg hh, ih]
        exact ⟨.inr, fun h => h.resolve_left (by omega)⟩

theorem spansContain_eq (shape : Shape) (spans : List Span) (h : SpanRows (shape.rowsAt spans))
    (px py : Int) :
    spansContain shape px py spans = toggled (valueAt [] (shape.rowsAt spans) py) px := by
  induction spans with
  | nil => rfl
  | cons span spans ih =>
    cases spans with
    | nil =>
      rw [valueAt_eq_nil_of_length_lt h (by simp)]
      rfl
    | cons next rest =>
      have hlt := h.lt
      have hrs := ih h.tail
      rw [spansContain]
      by_cases hlw : span.y > py
      · rw [if_pos hlw, rowsAt, valueAt_before hlw]
        rfl
      · rw [if_neg hlw]
        by_cases hh : next.y ≤ py
        · simp only [if_pos hh, hrs, rowsAt, valueAt_tail hlt hh]
        · rw [if_neg hh, segmentsContain_eq h.head, hrs]
          have hbf : valueAt [] (shape.rowsAt (next :: rest)) py = [] := by
            rw [rowsAt, valueAt_before (not_le.mp hh)]
          have hf : valueAt [] (shape.rowsAt (span :: next :: rest)) py =
              shape.segmentsAt (span :: next :: rest) := by
            rw [rowsAt, rowsAt, valueAt_first (not_lt.mp hlw) (not_le.mp hh)]
          rw [hbf, hf, toggled_nil]
          cases toggled (shape.segmentsAt (span :: next :: rest)) px <;> rfl

/-! ### Rectangles -/

/-- No pixel lies in both rectangles. -/
def DisjointRects (rect other : IntRect) : Prop :=
  ∀ px py, ¬ (rect.containsPoint px py = true ∧ other.containsPoint px py = true)

theorem mem_segmentRects {segs} (h : SegmentList segs) (y heg px py : Int) :
    (∃ rect ∈ segmentRects y heg segs, rect.containsPoint px py = true) ↔
      (y ≤ py ∧ py < y + heg) ∧ toggled segs px = true := by
  induction h using SegmentList.induction with
  | nil => simp [segmentRects]
  | cons x maxX rest h hx hrs htl ih =>
    have hin := (toggled_segment hx hrs htl px).1
    rw [segmentRects, exists_mem_cons_iff, ih, hin, IntRect.containsPoint_iff]
    simp only [IntRect.maxX, IntRect.maxY, show x + (maxX - x) = maxX by omega]
    constructor
    · rintro (⟨h1, h2, h3, h4⟩ | ⟨hy, hp⟩)
      · exact ⟨⟨h3, h4⟩, .inl ⟨h1, h2⟩⟩
      · exact ⟨hy, .inr hp⟩
    · rintro ⟨hy, ⟨h1, h2⟩ | hp⟩
      · exact .inl ⟨h1, h2, hy.1, hy.2⟩
      · exact .inr ⟨hy, hp⟩

theorem pairwise_segmentRects {segs} (h : SegmentList segs) (y heg : Int) :
    (segmentRects y heg segs).Pairwise DisjointRects := by
  induction h using SegmentList.induction with
  | nil => exact List.Pairwise.nil
  | cons x maxX rest h hx hrs htl ih =>
    rw [segmentRects, pairwise_cons]
    refine ⟨fun rect hrc px py ⟨hf, ho⟩ => ?_, ih⟩
    have hp := ((mem_segmentRects htl y heg px py).mp ⟨rect, hrc, ho⟩).2
    have haf := (toggled_segment hx hrs htl px).2 hp
    rw [IntRect.containsPoint_iff] at hf
    simp only [IntRect.maxX] at hf
    omega

theorem mem_rectsFrom (shape : Shape) (spans : List Span) (h : SpanRows (shape.rowsAt spans))
    (px py : Int) :
    (∃ rect ∈ rectsFrom shape spans, rect.containsPoint px py = true) ↔
      toggled (valueAt [] (shape.rowsAt spans) py) px = true := by
  induction spans with
  | nil => simp [rectsFrom, rowsAt]
  | cons span spans ih =>
    cases spans with
    | nil =>
      rw [valueAt_eq_nil_of_length_lt h (by simp)]
      simp [rectsFrom]
    | cons next rest =>
      have hlt := h.lt
      have hrs := ih h.tail
      have hf := mem_segmentRects h.head span.y (next.y - span.y) px py
      rw [show span.y + (next.y - span.y) = next.y by omega] at hf
      simp only [rectsFrom, mem_append, or_and_right, exists_or]
      rw [hrs]
      refine Iff.trans (or_congr_left hf) ?_
      simp only [rowsAt]
      by_cases hlw : py < span.y
      · rw [valueAt_before hlw, valueAt_before (hlw.trans hlt)]
        simp [not_le.mpr hlw]
      · by_cases hh : py < next.y
        · rw [valueAt_first (not_lt.mp hlw) hh, valueAt_before hh]
          simp [not_lt.mp hlw, hh]
        · rw [valueAt_tail hlt (not_lt.mp hh)]
          simp [hh]

theorem pairwise_rectsFrom (shape : Shape) (spans : List Span)
    (h : SpanRows (shape.rowsAt spans)) : (rectsFrom shape spans).Pairwise DisjointRects := by
  induction spans with
  | nil => exact List.Pairwise.nil
  | cons span spans ih =>
    cases spans with
    | nil => exact List.Pairwise.nil
    | cons next rest =>
      rw [rectsFrom, pairwise_append]
      refine ⟨pairwise_segmentRects h.head _ _, ih h.tail, ?_⟩
      rintro rect hrc oth ho px py ⟨hin, hin'⟩
      have hf := (mem_segmentRects h.head span.y (next.y - span.y) px py).mp ⟨rect, hrc, hin⟩
      have hlr := (mem_rectsFrom shape (next :: rest) h.tail px py).mp ⟨oth, ho, hin'⟩
      rw [rowsAt, valueAt_before (by omega)] at hlr
      exact absurd hlr Bool.false_ne_true

end Region

/-! ### The bounding rectangle -/

/-- The smallest rectangle around a set of pixels. -/
structure IsBoundingBox (rect : IntRect) (points : Set (Int × Int)) : Prop where
  nonempty : rect.isEmpty = false
  covers : ∀ x y, (x, y) ∈ points → rect.containsPoint x y = true
  least : ∀ rect' : IntRect, (∀ x y, (x, y) ∈ points → rect'.containsPoint x y = true) →
    rect'.contains rect = true

/-- A rectangle around a set is the smallest one if each of its four sides
touches the set. -/
theorem isBoundingBox_of_touches {pts minX minY maxX maxY}
    (hcv : ∀ x y, (x, y) ∈ pts → minX ≤ x ∧ x < maxX ∧ minY ≤ y ∧ y < maxY)
    (hlf : ∃ y, (minX, y) ∈ pts) (hrg : ∃ y, (maxX - 1, y) ∈ pts)
    (htp : ∃ x, (x, minY) ∈ pts) (hbt : ∃ x, (x, maxY - 1) ∈ pts) :
    IsBoundingBox ⟨minX, minY, maxX - minX, maxY - minY⟩ pts := by
  obtain ⟨yl, hlf⟩ := hlf
  obtain ⟨yr, hrg⟩ := hrg
  obtain ⟨xt, htp⟩ := htp
  obtain ⟨xb, hbt⟩ := hbt
  constructor
  · have := hcv _ _ hlf
    rw [IntRect.isEmpty_eq_false_iff]
    constructor <;> dsimp only <;> omega
  · intro x y hxy
    have := hcv x y hxy
    rw [IntRect.containsPoint_iff]
    simp only [IntRect.maxX, IntRect.maxY]
    omega
  · intro rect' hrc'
    have hl := IntRect.containsPoint_iff.mp (hrc' _ _ hlf)
    have hr := IntRect.containsPoint_iff.mp (hrc' _ _ hrg)
    have ht := IntRect.containsPoint_iff.mp (hrc' _ _ htp)
    have hb := IntRect.containsPoint_iff.mp (hrc' _ _ hbt)
    rw [IntRect.contains_iff]
    simp only [IntRect.maxX, IntRect.maxY] at hl hr ht hb ⊢
    omega

/-- A boundary opens a segment or closes one. -/
theorem toggled_of_mem {segs} (h : SegmentList segs) {x}
    (hx : x ∈ segs) : toggled segs x = true ∨ toggled segs (x - 1) = true := by
  induction h using SegmentList.induction with
  | nil => cases hx
  | cons x0 maxX rest h hlt hrs htl ih =>
    have hin := toggled_segment hlt hrs htl
    rw [(hin x).1, (hin (x - 1)).1]
    simp only [mem_cons] at hx
    rcases hx with rfl | rfl | hm
    · exact .inl (.inl ⟨le_rfl, hlt⟩)
    · exact .inr (.inl ⟨by omega, by omega⟩)
    · rcases ih hm with hop | hc
      · exact .inl (.inr hop)
      · exact .inr (.inr hc)

/-- A point in segments lies between two boundaries. -/
theorem exists_boundaries {segs} (h : SegmentList segs) {p}
    (hp : toggled segs p = true) : (∃ x ∈ segs, x ≤ p) ∧ ∃ x ∈ segs, p < x := by
  constructor
  · by_contra hno
    simp only [not_exists, not_and, not_le] at hno
    rw [toggled_eq_false_of_lt hno] at hp
    cases hp
  · by_contra hno
    simp only [not_exists, not_and, not_lt] at hno
    rw [toggled_eq_of_le hno, h.even] at hp
    exact absurd hp (by decide)

/-- The lowest and the highest boundary of rows. -/
theorem toggled_of_extreme {segs} (h : SegmentList segs) {x} (hx : x ∈ segs) :
    ((∀ x' ∈ segs, x ≤ x') → toggled segs x = true) ∧
      ((∀ x' ∈ segs, x' ≤ x) → toggled segs (x - 1) = true) := by
  constructor
  · intro hla
    rcases toggled_of_mem h hx with hop | hc
    · exact hop
    · obtain ⟨⟨x', hx', hle⟩, -⟩ := exists_boundaries h hc
      have := hla x' hx'
      omega
  · intro hgr
    rcases toggled_of_mem h hx with hop | hc
    · obtain ⟨-, x', hx', hlt⟩ := exists_boundaries h hop
      have := hgr x' hx'
      omega
    · exact hc

/-- The value in front of the last key differs from the last value. -/
theorem valueAt_last_sub_one {d} {rows : List Row} {last : Row}
    (hic : Increasing rows) (hch : Changes d rows)
    (hls : rows.getLast? = some last) : valueAt d rows (last.1 - 1) ≠ finalValue d rows := by
  induction rows generalizing d with
  | nil => cases hls
  | cons row rest ih =>
    obtain ⟨y, segs⟩ := row
    rw [increasing_cons] at hic
    cases rest with
    | nil =>
      obtain rfl : (y, segs) = last := by simpa using hls
      rw [valueAt_before (by omega)]
      exact fun h => hch.1 h.symm
    | cons next rest =>
      have hm : last ∈ next :: rest := mem_of_getLast? hls
      have hlt := hic.1 last hm
      rw [valueAt_cons, if_neg (by omega)]
      exact ih hic.2 hch.2 hls

/-- From the last key on nothing changes. -/
theorem valueAt_of_last_le {d} {rows : List Row} {last : Row}
    (hic : Increasing rows) (hls : rows.getLast? = some last) {y}
    (hy : last.1 ≤ y) : valueAt d rows y = finalValue d rows := by
  induction rows generalizing d with
  | nil => cases hls
  | cons row rest ih =>
    obtain ⟨y', segs⟩ := row
    rw [increasing_cons] at hic
    cases rest with
    | nil =>
      obtain rfl : (y', segs) = last := by simpa using hls
      rw [valueAt_cons, if_neg (by omega)]
      rfl
    | cons next rest =>
      have hm : last ∈ next :: rest := mem_of_getLast? hls
      have hlt := hic.1 last hm
      rw [valueAt_cons, if_neg (by omega)]
      exact ih hic.2 hls

namespace Shape

/-- The two boundaries that one round of `bounds` reads. -/
theorem getD_boundaries {pre segs after} (hsg : SegmentList segs)
    (hbf : pre ++ segs ≠ []) (haf : segs ++ after ≠ []) :
    let first := (pre ++ segs ++ after).getD pre.length 0
    let last := (pre ++ segs ++ after).getD (pre.length + segs.length - 1) 0
    first ∈ pre ++ segs ++ after ∧ last ∈ pre ++ segs ++ after ∧
      ∀ x ∈ segs, first ≤ x ∧ x ≤ last := by
  intro first last
  have hn := length_pos_iff.mpr haf
  have hn' := length_pos_iff.mpr hbf
  rw [length_append] at hn hn'
  have hm (i) (hi : i < (pre ++ segs ++ after).length) :
      (pre ++ segs ++ after).getD i 0 ∈ pre ++ segs ++ after := by
    rw [getD_eq_getElem _ _ hi]
    exact getElem_mem hi
  refine ⟨hm _ (by simp only [length_append]; omega),
    hm _ (by simp only [length_append]; omega), fun x hx => ⟨?_, ?_⟩⟩
  · obtain ⟨x0, rest, rfl⟩ := exists_cons_of_ne_nil (ne_nil_of_mem hx)
    have hf : first = x0 := by simp [first]
    have hsr := hsg.sorted
    rw [pairwise_cons] at hsr
    rcases mem_cons.mp hx with rfl | hrs
    · exact hf.le
    · exact hf.le.trans (hsr.1 x hrs).le
  · rcases eq_nil_or_concat segs with rfl | ⟨rest, x1, rfl⟩
    · cases hx
    · have hls : last = x1 := by
        simp [last, concat_eq_append]
      have hsr := hsg.sorted
      rw [concat_eq_append, pairwise_append] at hsr
      rw [concat_eq_append, mem_append, mem_singleton] at hx
      rcases hx with hrs | rfl
      · exact (hsr.2.2 x hrs x1 (mem_singleton_self x1)).le.trans hls.ge
      · exact hls.ge

/-- The loop of `bounds` ends with boundaries of the shape that no remaining
boundary exceeds. -/
theorem boundsLoop_spec (shape : Shape) (pre : List Int) (rows : List Row) (minX maxX : Int)
    (hsg : shape.segments = pre ++ rows.flatMap Prod.snd)
    (hrw : ∀ row ∈ rows, SegmentList row.2) (hfn : finalValue [] rows = [])
    (hrd : pre = [] → ∀ row ∈ rows.head?, row.2 ≠ []) :
    let res := shape.boundsLoop (layoutSpans pre.length rows) minX maxX
    (res.1 = minX ∨ res.1 ∈ shape.segments) ∧ (res.2 = maxX ∨ res.2 ∈ shape.segments) ∧
      res.1 ≤ minX ∧ maxX ≤ res.2 ∧
      ∀ x ∈ rows.flatMap Prod.snd, res.1 ≤ x ∧ x ≤ res.2 := by
  induction rows generalizing pre minX maxX with
  | nil => simp [layoutSpans, boundsLoop]
  | cons row rest ih =>
    obtain ⟨y, segs⟩ := row
    rw [forall_mem_cons] at hrw
    cases rest with
    | nil =>
      have hnl : segs = [] := hfn
      simp [layoutSpans, boundsLoop, hnl]
    | cons next rest =>
      have hbf : pre ++ segs ≠ [] := by
        intro hnl
        obtain ⟨hb, hs⟩ := append_eq_nil_iff.mp hnl
        exact hrd hb (y, segs) rfl hs
      have hsp : shape.segments = pre ++ segs ++ (next :: rest).flatMap Prod.snd := by
        rw [hsg, flatMap_cons, append_assoc]
      have hrs (minX' maxX') := ih (pre ++ segs) minX' maxX' hsp hrw.2 hfn
        (fun h => absurd h hbf)
      rw [length_append] at hrs
      simp only [layoutSpans, boundsLoop] at hrs ⊢
      by_cases he : pre.length = shape.segments.length
      · simp only [if_pos he]
        have hnl : segs = [] := by
          rw [hsp, length_append, length_append] at he
          exact eq_nil_of_length_eq_zero (by omega)
        subst hnl
        simpa only [flatMap_cons, nil_append] using hrs minX maxX
      · simp only [if_neg he]
        have haf : segs ++ (next :: rest).flatMap Prod.snd ≠ [] := by
          intro hnl
          rw [hsp, append_assoc, hnl, append_nil] at he
          exact he rfl
        obtain ⟨hf, hls, ha⟩ := getD_boundaries hrw.1 hbf haf
        rw [← hsp] at hf hls ha
        set first := shape.segments.getD pre.length 0
        set last := shape.segments.getD (pre.length + segs.length - 1) 0
        obtain ⟨h1, h2, h3, h4, h5⟩ := hrs (if first < minX then first else minX)
          (if last > maxX then last else maxX)
        have hmn : (if first < minX then first else minX) ≤ minX ∧
            (if first < minX then first else minX) ≤ first := by
          split_ifs <;> omega
        have hmx : maxX ≤ (if last > maxX then last else maxX) ∧
            last ≤ (if last > maxX then last else maxX) := by
          split_ifs <;> omega
        refine ⟨?_, ?_, h3.trans hmn.1, hmx.1.trans h4, ?_⟩
        · rcases h1 with h1 | h1
          · rw [h1]
            split_ifs
            · exact .inr hf
            · exact .inl rfl
          · exact .inr h1
        · rcases h2 with h2 | h2
          · rw [h2]
            split_ifs
            · exact .inr hls
            · exact .inl rfl
          · exact .inr h2
        · intro x hx
          rw [flatMap_cons, mem_append] at hx
          rcases hx with hx | hx
          · have hbds := ha x hx
            omega
          · exact h5 x hx

theorem bounds_ofRows {row last rest} (hls : (row :: rest).getLast? = some last) :
    (ofRows (row :: rest)).bounds =
      let res := (ofRows (row :: rest)).boundsLoop (layoutSpans 0 (row :: rest)) intMax intMin
      ⟨res.1, row.1, res.2 - res.1, last.1 - row.1⟩ := by
  have hsn : ∃ idx, (ofRows (row :: rest)).spans.getLast? = some ⟨last.1, idx⟩ := by
    rcases eq_nil_or_concat (row :: rest) with hnl | ⟨front, last', hcn⟩
    · cases hnl
    · rw [concat_eq_append] at hcn
      rw [hcn, getLast?_concat, Option.some.injEq] at hls
      rw [hcn, ofRows_concat, getLast?_concat, hls]
      exact ⟨_, rfl⟩
  obtain ⟨idx, hsn⟩ := hsn
  rw [bounds, hsn]
  rfl

theorem valueAt_eq_or_mem (d : List Int) (rows : List Row) (y : Int) :
    valueAt d rows y = d ∨ ∃ row ∈ rows, valueAt d rows y = row.2 := by
  induction rows generalizing d with
  | nil => exact .inl rfl
  | cons row rest ih =>
    rw [valueAt_cons]
    split_ifs
    · exact .inl rfl
    · rcases ih row.2 with hd | ⟨row', hro', hv⟩
      · exact .inr ⟨row, mem_cons_self, hd⟩
      · exact .inr ⟨row', mem_cons_of_mem _ hro', hv⟩

/-- A row with segments has a pixel. -/
theorem exists_mem_rowPoints {rows} (h : CanonicalRows rows) {y}
    (hne : valueAt [] rows y ≠ []) : ∃ x, (x, y) ∈ rowPoints rows := by
  have hsg := h.segmentList_valueAt y
  obtain ⟨x, rest, heq⟩ := exists_cons_of_ne_nil hne
  refine ⟨x, ?_⟩
  rw [mem_rowPoints]
  rw [heq] at hsg ⊢
  exact toggled_head (pairwise_cons.mp hsg.sorted).1

/-- Pixels lie between boundaries of the shape. -/
theorem boundaries_of_mem_rowPoints {rows : List Row} (h : CanonicalRows rows) {x y}
    (hxy : (x, y) ∈ rowPoints rows) :
    (∃ x' ∈ rows.flatMap Prod.snd, x' ≤ x) ∧ ∃ x' ∈ rows.flatMap Prod.snd, x < x' := by
  rw [mem_rowPoints] at hxy
  obtain ⟨⟨x1, hx1, hle⟩, x2, hx2, hlt⟩ := exists_boundaries (h.segmentList_valueAt y) hxy
  rcases valueAt_eq_or_mem [] rows y with hnl | ⟨row, hro, hv⟩
  · rw [hnl] at hx1
    cases hx1
  · rw [hv] at hx1 hx2
    exact ⟨⟨x1, mem_flatMap.mpr ⟨row, hro, hx1⟩, hle⟩, ⟨x2, mem_flatMap.mpr ⟨row, hro, hx2⟩, hlt⟩⟩

/-- The lowest and the highest boundary touch pixels. -/
theorem mem_rowPoints_of_extreme {rows : List Row} (h : CanonicalRows rows) {x}
    (hx : x ∈ rows.flatMap Prod.snd) :
    ((∀ x' ∈ rows.flatMap Prod.snd, x ≤ x') → ∃ y, (x, y) ∈ rowPoints rows) ∧
      ((∀ x' ∈ rows.flatMap Prod.snd, x' ≤ x) → ∃ y, (x - 1, y) ∈ rowPoints rows) := by
  obtain ⟨row, hro, hx⟩ := mem_flatMap.mp hx
  have hv : valueAt [] rows row.1 = row.2 := valueAt_of_mem h.increasing hro
  have hex := toggled_of_extreme (h.segments row hro) hx
  have hm (x') (hx' : x' ∈ row.2) : x' ∈ rows.flatMap Prod.snd :=
    mem_flatMap.mpr ⟨row, hro, hx'⟩
  simp only [mem_rowPoints]
  constructor
  · intro hla
    refine ⟨row.1, ?_⟩
    rw [hv]
    exact hex.1 fun x' hx' => hla x' (hm x' hx')
  · intro hgr
    refine ⟨row.1, ?_⟩
    rw [hv]
    exact hex.2 fun x' hx' => hgr x' (hm x' hx')

/-- Pixels lie between the first row and the last. -/
theorem between_of_mem_rowPoints {row last : Row} {rest}
    (h : CanonicalRows (row :: rest)) (hls : (row :: rest).getLast? = some last) {x y}
    (hxy : (x, y) ∈ rowPoints (row :: rest)) : row.1 ≤ y ∧ y < last.1 := by
  rw [mem_rowPoints] at hxy
  constructor
  · by_contra hlt
    rw [valueAt_before (by omega)] at hxy
    cases hxy
  · by_contra hle
    rw [valueAt_of_last_le h.increasing hls (by omega), h.final] at hxy
    cases hxy

/-- The bounds of canonical rows with coordinates that fit into an `int`. -/
theorem isBoundingBox_bounds {rows} (h : CanonicalRows rows) (hne : rows ≠ [])
    (hg : ∀ x ∈ (ofRows rows).segments, intMin ≤ x ∧ x ≤ intMax) :
    IsBoundingBox (ofRows rows).bounds (rowPoints rows) := by
  obtain ⟨row, rest, rfl⟩ := exists_cons_of_ne_nil hne
  have hne0 : row.2 ≠ [] := h.changes.1
  obtain ⟨last, hls⟩ : ∃ last, (row :: rest).getLast? = some last :=
    ⟨_, getLast?_eq_some_getLast (cons_ne_nil _ _)⟩
  obtain ⟨x0, hx0⟩ := exists_mem_of_ne_nil _ hne0
  have hmem0 : x0 ∈ (ofRows (row :: rest)).segments :=
    mem_flatMap.mpr ⟨row, mem_cons_self, hx0⟩
  have hlp := boundsLoop_spec (ofRows (row :: rest)) [] (row :: rest)
    intMax intMin rfl h.segments h.final (by simp [hne0])
  rw [length_nil] at hlp
  rw [bounds_ofRows hls]
  set res := (ofRows (row :: rest)).boundsLoop (layoutSpans 0 (row :: rest)) intMax intMin
  obtain ⟨hmn, hmx, hmn', hmx', ha⟩ := hlp
  have hbounds0 := ha x0 hmem0
  have hrange0 := hg x0 hmem0
  have hmn : res.1 ∈ (ofRows (row :: rest)).segments := by
    rcases hmn with heq | hm
    · have : res.1 = x0 := le_antisymm hbounds0.1 (by omega)
      exact this ▸ hmem0
    · exact hm
  have hmx : res.2 ∈ (ofRows (row :: rest)).segments := by
    rcases hmx with heq | hm
    · have : res.2 = x0 := le_antisymm (by omega) hbounds0.2
      exact this ▸ hmem0
    · exact hm
  apply isBoundingBox_of_touches
  · intro x y hxy
    obtain ⟨⟨x1, hx1, hle⟩, x2, hx2, hlt⟩ := boundaries_of_mem_rowPoints h hxy
    have h1 := ha x1 hx1
    have h2 := ha x2 hx2
    have hy := between_of_mem_rowPoints h hls hxy
    exact ⟨by omega, by omega, hy⟩
  · exact (mem_rowPoints_of_extreme h hmn).1 fun x' hx' => (ha x' hx').1
  · exact (mem_rowPoints_of_extreme h hmx).2 fun x' hx' => (ha x' hx').2
  · apply exists_mem_rowPoints h
    rw [valueAt_of_mem h.increasing mem_cons_self]
    exact hne0
  · apply exists_mem_rowPoints h
    have hls' := valueAt_last_sub_one h.increasing h.changes hls
    rwa [h.final] at hls'

end Shape

end QtWebKit.Graphics
