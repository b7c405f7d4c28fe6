import QtWebKit.Lib.StepFunction
import QtWebKit.Graphics.Region
import Mathlib.Data.Finset.Sort

/-!
# Shapes as rows of segments

A shape is read as a step function of `y` whose values are lists of segment
boundaries, and each such list as a Boolean step function of `x`.
-/

namespace QtWebKit.Graphics

open StepFunction List

/-- A `y` coordinate with the segment boundaries from there on. -/
abbrev Row : Type := Int × List Int

/-- Boundaries that open and close segments in turn. -/
structure SegmentList (segments : List Int) : Prop where
  sorted : segments.Pairwise (· < ·)
  even : segments.length % 2 = 0

/-- Rows in which each one differs from the row above and the last one is empty. -/
structure CanonicalRows (rows : List Row) : Prop where
  increasing : Increasing rows
  changes : Changes [] rows
  final : finalValue [] rows = []
  segments : ∀ row ∈ rows, SegmentList row.2

variable (rows : List Row)

/-- The pixels of rows. -/
def rowPoints : Set (Int × Int) :=
  { p | toggled (valueAt [] rows p.2) p.1 = true }

theorem mem_rowPoints {rows x y} :
    (x, y) ∈ rowPoints rows ↔ toggled (valueAt [] rows y) x = true := Iff.rfl

theorem segmentList_nil : SegmentList [] := ⟨List.Pairwise.nil, rfl⟩

theorem segmentList_valueAt {d} {rows : List Row} (hd : SegmentList d)
    (h : ∀ row ∈ rows, SegmentList row.2) (y : Int) : SegmentList (valueAt d rows y) := by
  induction rows generalizing d with
  | nil => exact hd
  | cons row rest ih =>
    rw [forall_mem_cons] at h
    rw [valueAt_cons]
    split_ifs
    · exact hd
    · exact ih h.1 h.2

theorem CanonicalRows.segmentList_valueAt {rows} (h : CanonicalRows rows) (y : Int) :
    SegmentList (valueAt [] rows y) :=
  Graphics.segmentList_valueAt segmentList_nil h.segments y

/-- Rows with the same pixels are the same. -/
theorem CanonicalRows.eq_of_points {rows rows'} (h : CanonicalRows rows)
    (h' : CanonicalRows rows') (hp : rowPoints rows = rowPoints rows') : rows = rows' := by
  refine valueAt_injective h.increasing h'.increasing h.changes h'.changes fun y => ?_
  refine toggled_injective (h.segmentList_valueAt y).sorted (h'.segmentList_valueAt y).sorted
    fun x => ?_
  rw [Bool.eq_iff_iff, ← mem_rowPoints, ← mem_rowPoints, hp]

/-! ### The rows of a shape -/

namespace Shape

/-- The rows from a span iterator on. -/
def rowsAt (shape : Shape) : List Span → List Row
  | [] => []
  | span :: rest => (span.y, shape.segmentsAt (span :: rest)) :: rowsAt shape rest

/-- The spans that lay out rows, starting at a segment index. -/
def layoutSpans : Nat → List Row → List Span
  | _, [] => []
  | index, (y, segments) :: rest => ⟨y, index⟩ :: layoutSpans (index + segments.length) rest

/-- The shape that stores rows. -/
def ofRows : Shape := ⟨rows.flatMap Prod.snd, layoutSpans 0 rows⟩

theorem layoutSpans_append (idx : Nat) (rows rows' : List Row) :
    layoutSpans idx (rows ++ rows') =
      layoutSpans idx rows ++ layoutSpans (idx + (rows.flatMap Prod.snd).length) rows' := by
  induction rows generalizing idx with
  | nil => rfl
  | cons row rest ih =>
    simp [layoutSpans, ih, Nat.add_assoc]

/-- Rows are read back from the spans that lay them out. -/
theorem rowsAt_layoutSpans (pre : List Int) (rows : List Row) (spans : List Span)
    (hf : finalValue [] rows = []) :
    rowsAt ⟨pre ++ rows.flatMap Prod.snd, spans⟩ (layoutSpans pre.length rows) = rows := by
  induction rows generalizing pre with
  | nil => rfl
  | cons row rest ih =>
    obtain ⟨y, segs⟩ := row
    have hrs : finalValue [] rest = [] := by
      cases rest with
      | nil => rfl
      | cons row rest => exact hf
    have ht := ih (pre ++ segs) hrs
    rw [length_append, append_assoc] at ht
    simp only [layoutSpans, rowsAt, flatMap_cons, ht, cons.injEq, Prod.mk.injEq,
      true_and, and_true, segmentsAt]
    split_ifs with he
    · simp only [length_append] at he
      exact (eq_nil_of_length_eq_zero (by omega)).symm
    · cases rest with
      | nil => exact hf.symm
      | cons next rest =>
        simp only [layoutSpans, drop_left, Nat.add_sub_cancel_left, take_left]

theorem rowsAt_ofRows {rows : List Row} (h : finalValue [] rows = []) :
    (ofRows rows).rowsAt (ofRows rows).spans = rows :=
  rowsAt_layoutSpans [] rows _ h

theorem finalValue_concat (d : List Int) (rows : List Row) (row : Row) :
    finalValue d (rows ++ [row]) = row.2 := by
  induction rows generalizing d with
  | nil => rfl
  | cons row' rest ih => exact ih row'.2

/-! ### Appending spans -/

theorem isEmpty_ofRows : (ofRows rows).isEmpty = rows.isEmpty := by
  cases rows <;> rfl

theorem ofRows_concat (y : Int) (segs : List Int) :
    ofRows (rows ++ [(y, segs)]) =
      ⟨(ofRows rows).segments ++ segs,
        (ofRows rows).spans ++ [⟨y, (ofRows rows).segments.length⟩]⟩ := by
  simp [ofRows, flatMap_append, layoutSpans_append, layoutSpans]

theorem canCoalesce_ofRows (segs : List Int) :
    (ofRows rows).canCoalesce segs = (!rows.isEmpty && decide (segs = finalValue [] rows)) := by
  rcases eq_nil_or_concat rows with rfl | ⟨rest, row, rfl⟩
  · rfl
  · obtain ⟨y, last⟩ := row
    have hdr : ((ofRows rest).segments ++ last).drop (ofRows rest).segments.length = last :=
      drop_left
    rw [concat_eq_append, finalValue_concat, canCoalesce, ofRows_concat]
    simp only [getLast?_concat, hdr]
    by_cases h : last = segs
    · simp [h]
    · simp [h, Ne.symm h]

theorem appendSpanSegments_ofRows (y : Int) (segs : List Int) (h : rows = [] → segs ≠ []) :
    (ofRows rows).appendSpanSegments y segs =
      ofRows (rows ++ if segs = finalValue [] rows then [] else [(y, segs)]) := by
  rw [appendSpanSegments, canCoalesce_ofRows]
  by_cases hf : segs = finalValue [] rows
  · have hne : rows ≠ [] := by
      rintro rfl
      exact h rfl hf
    simp [← hf, hne]
  · simp [hf, ofRows_concat, appendSpan]

/-- The guarded append at the end of a step over the spans. -/
theorem append_ofRows (y : Int) (segs : List Int) :
    (if !segs.isEmpty || !(ofRows rows).isEmpty then (ofRows rows).appendSpanSegments y segs
      else ofRows rows) =
      ofRows (rows ++ if segs = finalValue [] rows then [] else [(y, segs)]) := by
  rw [isEmpty_ofRows]
  by_cases hr : rows = []
  · subst hr
    by_cases hs : segs = []
    · subst hs
      rfl
    · rw [if_pos (by simp [hs]), appendSpanSegments_ofRows [] y segs fun _ => hs]
  · rw [if_pos (by simp [hr]), appendSpanSegments_ofRows rows y segs (absurd · hr)]

theorem appendSpans_ofRows (shape : Shape) (spans : List Span) (rows : List Row)
    (h : Changes (finalValue [] rows) (shape.rowsAt spans)) :
    (ofRows rows).appendSpans shape spans = ofRows (rows ++ shape.rowsAt spans) := by
  induction spans generalizing rows with
  | nil => simp [appendSpans, rowsAt]
  | cons span rest ih =>
    rw [rowsAt] at h
    have hne : rows = [] → shape.segmentsAt (span :: rest) ≠ [] := by
      rintro rfl
      exact h.1
    rw [appendSpans, appendSpanSegments_ofRows rows _ _ hne, if_neg h.1, ih]
    · simp [rowsAt]
    · rw [finalValue_concat]
      exact h.2

theorem ofRect_eq (rect : IntRect) :
    ofRect rect = ofRows [(rect.y, [rect.x, rect.maxX]), (rect.maxY, [])] := by
  simp [ofRect, ofRows, empty, appendSpan, appendSegment, layoutSpans]

theorem canonicalRows_ofRect {rect : IntRect} (h : rect.isEmpty = false) :
    CanonicalRows [(rect.y, [rect.x, rect.maxX]), (rect.maxY, [])] := by
  simp only [IntRect.isEmpty, Bool.or_eq_false_iff, decide_eq_false_iff_not, not_le] at h
  have hx : rect.x < rect.maxX := by unfold IntRect.maxX; omega
  have hy : rect.y < rect.maxY := by unfold IntRect.maxY; omega
  refine ⟨?_, ?_, rfl, ?_⟩
  · simp [Increasing, hy]
  · simp [Changes]
  · simp only [forall_mem_cons, not_mem_nil, false_implies, implies_true, and_true]
    exact ⟨⟨by simp [hx], by simp⟩, segmentList_nil⟩

end Shape

end QtWebKit.Graphics
