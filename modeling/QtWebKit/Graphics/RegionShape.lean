import QtWebKit.Graphics.RegionRows
import Mathlib.Data.Finset.Order
import Mathlib.Tactic.IntervalCases

/-!
# The merge of two shapes

`mergeSegments` keeps the boundaries where the flag of the operation is entered
or left, so the result is the Boolean combination of the two lists of segments.
`mergeSpans` applies it at every `y` of either shape and drops the rows that
repeat the row above.
-/

namespace QtWebKit.Graphics.Shape

open StepFunction List

/-! ### Merging segments -/

/-- The flag of a point that lies inside of the first, of the second or of both lists. -/
def flagAt (flag : Nat) (first second : Bool) : Nat :=
  (flag ^^^ (if first then 1 else 0)) ^^^ (if second then 2 else 0)

theorem flagAt_false_false (flag : Nat) : flagAt flag false false = flag := by
  simp [flagAt]

theorem flagAt_not_left (flag : Nat) (first snd : Bool) :
    flagAt flag (!first) snd = flagAt (flag ^^^ 1) first snd := by
  cases first <;> simp [flagAt, Nat.xor_assoc]

theorem flagAt_not_right (flag : Nat) (first snd : Bool) :
    flagAt flag first (!snd) = flagAt (flag ^^^ 2) first snd := by
  cases first <;> cases snd <;> simp [flagAt, Nat.xor_assoc]

theorem xor_ne_self (flag : Nat) {bit} (hb : bit ≠ 0) : flag ^^^ bit ≠ flag := by
  intro h
  apply hb
  have hcn := congrArg (flag ^^^ ·) h
  simpa only [← Nat.xor_assoc, Nat.xor_self, Nat.zero_xor] using hcn

/-- The flag that remaining segments of even lists leave. -/
def openFlag (s1 s2 : List Int) : Nat := s1.length % 2 + 2 * (s2.length % 2)

theorem openFlag_cons_left (x : Int) (s1 s2 : List Int) :
    openFlag s1 s2 = openFlag (x :: s1) s2 ^^^ 1 := by
  simp only [openFlag, length_cons]
  rcases Nat.mod_two_eq_zero_or_one s1.length with h1 | h1 <;>
    rcases Nat.mod_two_eq_zero_or_one s2.length with h2 | h2 <;> simp [Nat.add_mod, h1, h2]

theorem openFlag_cons_right (x : Int) (s1 s2 : List Int) :
    openFlag s1 s2 = openFlag s1 (x :: s2) ^^^ 2 := by
  simp only [openFlag, length_cons]
  rcases Nat.mod_two_eq_zero_or_one s1.length with h1 | h1 <;>
    rcases Nat.mod_two_eq_zero_or_one s2.length with h2 | h2 <;> simp [Nat.add_mod, h1, h2]

/-- What an operation has to do with segments that are left when the other list
has ended. -/
structure Sound (operation : Operation) : Prop where
  remaining1 : ∀ flag, flag < 2 → (operation.shouldAddRemainingSegmentsFromSpan1 = true ↔
    (flag = operation.opCode ↔ ¬ flag ^^^ 1 = operation.opCode))
  remaining2 : ∀ flag, flag = 0 ∨ flag = 2 →
    (operation.shouldAddRemainingSegmentsFromSpan2 = true ↔
      (flag = operation.opCode ↔ ¬ flag ^^^ 2 = operation.opCode))

theorem sound_union : Sound unionOperation := by
  constructor
  · intro flag hfl
    interval_cases flag <;> decide
  · rintro flag (rfl | rfl) <;> decide

theorem sound_intersect : Sound intersectOperation := by
  constructor
  · intro flag hfl
    interval_cases flag <;> decide
  · rintro flag (rfl | rfl) <;> decide

theorem sound_subtract : Sound subtractOperation := by
  constructor
  · intro flag hfl
    interval_cases flag <;> decide
  · rintro flag (rfl | rfl) <;> decide

section

variable {op : Operation}

theorem mergeSegments_cons_cons (x1 x2 : Int) (rest1 rest2 : List Int) (flag : Nat) :
    mergeSegments op (x1 :: rest1) (x2 :: rest2) flag flag =
      if x1 < x2 then
        if flag ^^^ 1 = op.opCode ∨ flag = op.opCode then
          x1 :: mergeSegments op rest1 (x2 :: rest2) (flag ^^^ 1) (flag ^^^ 1)
        else mergeSegments op rest1 (x2 :: rest2) (flag ^^^ 1) (flag ^^^ 1)
      else if x2 < x1 then
        if flag ^^^ 2 = op.opCode ∨ flag = op.opCode then
          x2 :: mergeSegments op (x1 :: rest1) rest2 (flag ^^^ 2) (flag ^^^ 2)
        else mergeSegments op (x1 :: rest1) rest2 (flag ^^^ 2) (flag ^^^ 2)
      else
        if flag ^^^ 1 ^^^ 2 = op.opCode ∨ flag = op.opCode then
          x1 :: mergeSegments op rest1 rest2 (flag ^^^ 1 ^^^ 2) (flag ^^^ 1 ^^^ 2)
        else mergeSegments op rest1 rest2 (flag ^^^ 1 ^^^ 2) (flag ^^^ 1 ^^^ 2) := by
  rw [mergeSegments]
  rcases lt_trichotomy x1 x2 with hlt | heq | hgt
  · have h1 : x1 - x2 < 0 := by omega
    simp [h1, h1.le, not_le.mpr hlt, hlt]
  · subst heq
    simp
  · have h1 : 0 < x1 - x2 := by omega
    simp [not_le.mpr h1, hgt, hgt.le, hgt.not_gt, h1.not_gt]

theorem mergeSegments_nil_left (s2 : List Int) (flag oldFlag : Nat) :
    mergeSegments op [] s2 flag oldFlag =
      if op.shouldAddRemainingSegmentsFromSpan2 then s2 else [] := by
  rw [mergeSegments]
  · cases s2 <;> simp
  · simp

theorem mergeSegments_nil_right (s1 : List Int) (flag oldFlag : Nat) :
    mergeSegments op s1 [] flag oldFlag =
      if op.shouldAddRemainingSegmentsFromSpan1 then s1 else [] := by
  rw [mergeSegments]
  · cases s1 <;> simp
  · simp

/-- Induction along the merge. -/
theorem merge_induction {P : List Int → List Int → Prop} (left : ∀ s2, P [] s2)
    (right : ∀ s1, P s1 [])
    (lt : ∀ x1 x2 rest1 rest2, x1 < x2 → P rest1 (x2 :: rest2) → P (x1 :: rest1) (x2 :: rest2))
    (gt : ∀ x1 x2 rest1 rest2, x2 < x1 → P (x1 :: rest1) rest2 → P (x1 :: rest1) (x2 :: rest2))
    (eq : ∀ x rest1 rest2, P rest1 rest2 → P (x :: rest1) (x :: rest2)) (s1 s2 : List Int) :
    P s1 s2 := by
  have h := combine_induction (P := fun first snd => P (first.map Prod.fst) (snd.map Prod.fst))
    (fun snd => left _) (fun first => right _)
    (fun k k' u' v' rest rest' hlt ih => lt k k' _ _ hlt ih)
    (fun k k' u' v' rest rest' hgt ih => gt k k' _ _ hgt ih)
    (fun k u' v' rest rest' ih => eq k _ _ ih)
    (s1.map fun x => (x, ())) (s2.map fun x => (x, ()))
  simpa only [map_map, Function.comp_def, map_id'] using h

variable {s1 s2 : List Int}

theorem lt_of_mem_mergeSegments (flag : Nat) {p} (h1 : ∀ x ∈ s1, p < x)
    (h2 : ∀ x ∈ s2, p < x) : ∀ x ∈ mergeSegments op s1 s2 flag flag, p < x := by
  induction s1, s2 using merge_induction generalizing flag with
  | left s2 =>
    rw [mergeSegments_nil_left]
    split_ifs
    · exact h2
    · simp
  | right s1 =>
    rw [mergeSegments_nil_right]
    split_ifs
    · exact h1
    · simp
  | lt x1 x2 rest1 rest2 hlt ih =>
    rw [forall_mem_cons] at h1
    have hr := ih (flag ^^^ 1) h1.2 h2
    rw [mergeSegments_cons_cons, if_pos hlt]
    split_ifs
    · exact forall_mem_cons.mpr ⟨h1.1, hr⟩
    · exact hr
  | gt x1 x2 rest1 rest2 hgt ih =>
    rw [forall_mem_cons] at h2
    have hr := ih (flag ^^^ 2) h1 h2.2
    rw [mergeSegments_cons_cons, if_neg hgt.not_gt, if_pos hgt]
    split_ifs
    · exact forall_mem_cons.mpr ⟨h2.1, hr⟩
    · exact hr
  | eq x rest1 rest2 ih =>
    rw [forall_mem_cons] at h1 h2
    have hr := ih (flag ^^^ 1 ^^^ 2) h1.2 h2.2
    rw [mergeSegments_cons_cons, if_neg (lt_irrefl _), if_neg (lt_irrefl _)]
    split_ifs
    · exact forall_mem_cons.mpr ⟨h1.1, hr⟩
    · exact hr

theorem sorted_mergeSegments (flag : Nat) (h1 : s1.Pairwise (· < ·)) (h2 : s2.Pairwise (· < ·)) :
    (mergeSegments op s1 s2 flag flag).Pairwise (· < ·) := by
  induction s1, s2 using merge_induction generalizing flag with
  | left s2 =>
    rw [mergeSegments_nil_left]
    split_ifs
    · exact h2
    · exact List.Pairwise.nil
  | right s1 =>
    rw [mergeSegments_nil_right]
    split_ifs
    · exact h1
    · exact List.Pairwise.nil
  | lt x1 x2 rest1 rest2 hlt ih =>
    rw [pairwise_cons] at h1
    have hr := ih (flag ^^^ 1) h1.2 h2
    rw [pairwise_cons] at h2
    rw [mergeSegments_cons_cons, if_pos hlt]
    split_ifs
    · refine pairwise_cons.mpr ⟨lt_of_mem_mergeSegments _ h1.1 ?_, hr⟩
      exact forall_mem_cons.mpr ⟨hlt, fun x hx => hlt.trans (h2.1 x hx)⟩
    · exact hr
  | gt x1 x2 rest1 rest2 hgt ih =>
    rw [pairwise_cons] at h2
    have hr := ih (flag ^^^ 2) h1 h2.2
    rw [pairwise_cons] at h1
    rw [mergeSegments_cons_cons, if_neg hgt.not_gt, if_pos hgt]
    split_ifs
    · refine pairwise_cons.mpr ⟨lt_of_mem_mergeSegments _ ?_ h2.1, hr⟩
      exact forall_mem_cons.mpr ⟨hgt, fun x hx => hgt.trans (h1.1 x hx)⟩
    · exact hr
  | eq x rest1 rest2 ih =>
    rw [pairwise_cons] at h1 h2
    have hr := ih (flag ^^^ 1 ^^^ 2) h1.2 h2.2
    rw [mergeSegments_cons_cons, if_neg (lt_irrefl _), if_neg (lt_irrefl _)]
    split_ifs
    · exact pairwise_cons.mpr ⟨lt_of_mem_mergeSegments _ h1.1 h2.1, hr⟩
    · exact hr

/-- One step of the merge: a boundary is kept when the operation's flag is entered
or left there. -/
theorem toggled_step {flag flag'} (hne : flag' ≠ flag) {x p} (hp : x ≤ p) {merged : List Int} {he}
    (hm : toggled merged p = (decide (flag' = op.opCode) ^^ he)) :
    toggled (if flag' = op.opCode ∨ flag = op.opCode then x :: merged else merged) p =
      (decide (flag = op.opCode) ^^ he) := by
  by_cases hfl : flag = op.opCode
  · have hfl' : ¬ flag' = op.opCode := fun h => hne (h.trans hfl.symm)
    simp [toggled_cons, hp, hm, hfl, hfl']
  · by_cases hfl' : flag' = op.opCode
    · simp [toggled_cons, hp, hm, hfl, hfl']
    · simp [hm, hfl, hfl']

theorem lt_of_sorted {p x} {rest : List Int} (hx : p < x)
    (h : (x :: rest).Pairwise (· < ·)) : ∀ x' ∈ x :: rest, p < x' := by
  rw [pairwise_cons] at h
  exact forall_mem_cons.mpr ⟨hx, fun x' hx' => hx.trans (h.1 x' hx')⟩

theorem toggled_mergeSegments_of_lt (flag : Nat) {p} (h1 : ∀ x ∈ s1, p < x) (h2 : ∀ x ∈ s2, p < x) :
    toggled (mergeSegments op s1 s2 flag flag) p =
      (decide (flag = op.opCode) ^^
        decide (flagAt flag (toggled s1 p) (toggled s2 p) = op.opCode)) := by
  rw [toggled_eq_false_of_lt h1, toggled_eq_false_of_lt h2, flagAt_false_false, Bool.xor_self]
  exact toggled_eq_false_of_lt (lt_of_mem_mergeSegments flag h1 h2)

/-- The rest of one row is kept if the operation's flag is entered or left in it. -/
theorem toggled_remaining {s} {p : Int} {flag flag' : Nat} {add : Bool}
    (hrm : add = true ↔ (flag = op.opCode ↔ ¬ flag' = op.opCode)) :
    toggled (if add then s else []) p = (decide (flag = op.opCode) ^^
      decide ((if toggled s p then flag' else flag) = op.opCode)) := by
  cases hin : toggled s p with
  | false => simp [hin, apply_ite (toggled · p)]
  | true => by_cases h : flag = op.opCode <;> by_cases h' : flag' = op.opCode <;> simp_all

/-- A point is in the merged segments when the flag there is on the other side of
the operation than the flag at the start. -/
theorem toggled_mergeSegments (hsn : Sound op) (flag : Nat)
    (hfl : flag = openFlag s1 s2) (h1 : s1.Pairwise (· < ·)) (h2 : s2.Pairwise (· < ·)) (p : Int) :
    toggled (mergeSegments op s1 s2 flag flag) p =
      (decide (flag = op.opCode) ^^
        decide (flagAt flag (toggled s1 p) (toggled s2 p) = op.opCode)) := by
  induction s1, s2 using merge_induction generalizing flag with
  | left s2 =>
    have hcs : flag = 0 ∨ flag = 2 := by
      simp only [openFlag, length_nil] at hfl
      omega
    rw [mergeSegments_nil_left, toggled_remaining (hsn.remaining2 flag hcs), toggled_nil]
    cases toggled s2 p <;> simp [flagAt]
  | right s1 =>
    have hcs : flag < 2 := by
      simp only [openFlag, length_nil] at hfl
      omega
    rw [mergeSegments_nil_right, toggled_remaining (hsn.remaining1 flag hcs), toggled_nil]
    cases toggled s1 p <;> simp [flagAt]
  | lt x1 x2 rest1 rest2 hlt ih =>
    by_cases hp : x1 ≤ p
    · rw [pairwise_cons] at h1
      have ho : flag ^^^ 1 = openFlag rest1 (x2 :: rest2) := by
        rw [hfl, ← openFlag_cons_left]
      have hin : toggled (x1 :: rest1) p = !toggled rest1 p := by
        simp [toggled_cons, hp]
      rw [mergeSegments_cons_cons, if_pos hlt, hin, flagAt_not_left]
      exact toggled_step (xor_ne_self flag one_ne_zero) hp (ih (flag ^^^ 1) ho h1.2 h2)
    · have hx := not_le.mp hp
      exact toggled_mergeSegments_of_lt flag (lt_of_sorted hx h1) (lt_of_sorted (hx.trans hlt) h2)
  | gt x1 x2 rest1 rest2 hgt ih =>
    by_cases hp : x2 ≤ p
    · rw [pairwise_cons] at h2
      have ho : flag ^^^ 2 = openFlag (x1 :: rest1) rest2 := by
        rw [hfl, ← openFlag_cons_right]
      have hin : toggled (x2 :: rest2) p = !toggled rest2 p := by
        simp [toggled_cons, hp]
      rw [mergeSegments_cons_cons, if_neg hgt.not_gt, if_pos hgt, hin, flagAt_not_right]
      exact toggled_step (xor_ne_self flag two_ne_zero) hp (ih (flag ^^^ 2) ho h1 h2.2)
    · have hx := not_le.mp hp
      exact toggled_mergeSegments_of_lt flag (lt_of_sorted (hx.trans hgt) h1) (lt_of_sorted hx h2)
  | eq x rest1 rest2 ih =>
    by_cases hp : x ≤ p
    · rw [pairwise_cons] at h1 h2
      have ho : flag ^^^ 1 ^^^ 2 = openFlag rest1 rest2 := by
        rw [hfl, ← openFlag_cons_left, ← openFlag_cons_right]
      have hin1 : toggled (x :: rest1) p = !toggled rest1 p := by
        simp [toggled_cons, hp]
      have hin2 : toggled (x :: rest2) p = !toggled rest2 p := by
        simp [toggled_cons, hp]
      have hne : flag ^^^ 1 ^^^ 2 ≠ flag := by
        rw [Nat.xor_assoc]
        exact xor_ne_self flag (by decide)
      rw [mergeSegments_cons_cons, if_neg (lt_irrefl _), if_neg (lt_irrefl _), hin1, hin2,
        flagAt_not_left, flagAt_not_right]
      exact toggled_step hne hp (ih _ ho h1.2 h2.2)
    · have hx := not_le.mp hp
      exact toggled_mergeSegments_of_lt flag (lt_of_sorted hx h1) (lt_of_sorted hx h2)

theorem segmentList_mergeSegments (hsn : Sound op) (h1 : SegmentList s1) (h2 : SegmentList s2) :
    SegmentList (mergeSegments op s1 s2 0 0) := by
  refine ⟨sorted_mergeSegments 0 h1.sorted h2.sorted, ?_⟩
  obtain ⟨p, hp⟩ := (s1 ++ s2 ++ mergeSegments op s1 s2 0 0).toFinset.exists_le
  simp only [mem_toFinset, mem_append] at hp
  have ho : 0 = openFlag s1 s2 := by
    rw [openFlag, h1.even, h2.even]
  have hin := toggled_mergeSegments hsn 0 ho h1.sorted h2.sorted p
  rw [toggled_eq_of_le fun x hx => hp x (.inr hx), toggled_eq_of_le fun x hx =>
    hp x (.inl (.inl hx)),
    toggled_eq_of_le fun x hx => hp x (.inl (.inr hx)), h1.even, h2.even] at hin
  simpa [flagAt_false_false] using hin

end

/-! ### Merging spans -/

/-- The segments of one row of the result. -/
def mergeRow (operation : Operation) (s1 s2 : List Int) : List Int :=
  mergeSegments operation s1 s2 0 0

/-- The remaining spans are added exactly when the remaining segments are. -/
structure Uniform (operation : Operation) : Prop extends Sound operation where
  spans1 : operation.shouldAddRemainingSpansFromShape1 =
    operation.shouldAddRemainingSegmentsFromSpan1
  spans2 : operation.shouldAddRemainingSpansFromShape2 =
    operation.shouldAddRemainingSegmentsFromSpan2

theorem uniform_union : Uniform unionOperation := ⟨sound_union, rfl, rfl⟩

theorem uniform_intersect : Uniform intersectOperation := ⟨sound_intersect, rfl, rfl⟩

theorem uniform_subtract : Uniform subtractOperation := ⟨sound_subtract, rfl, rfl⟩

theorem coalesce_cons_eq_append (d : List Int) (y : Int) (segments : List Int) (rest : List Row) :
    coalesce d ((y, segments) :: rest) =
      (if segments = d then [] else [(y, segments)]) ++ coalesce segments rest := by
  rw [coalesce_cons]
  split_ifs with h
  · rw [h]; rfl
  · rfl

theorem finalValue_append_if (rows : List Row) (y : Int) (segments : List Int) :
    finalValue [] (rows ++ if segments = finalValue [] rows then [] else [(y, segments)]) =
      segments := by
  split_ifs with h
  · rw [append_nil, h]
  · rw [finalValue_concat]

/-- Rows that stay when the other shape has ended. -/
theorem coalesce_map_of_eq {f : List Int → List Int} (hf : ∀ segments, f segments = segments)
    {d} {rows : List Row} (h : Changes d rows) :
    coalesce (f d) (rows.map fun e => (e.1, f e.2)) = rows := by
  simp only [hf, Prod.mk.eta, map_id']
  exact coalesce_eq_self h

/-- Rows that vanish when the other shape has ended. -/
theorem coalesce_map_of_nil {f : List Int → List Int} (hf : ∀ segments, f segments = [])
    (d : List Int) (rows : List Row) : coalesce (f d) (rows.map fun e => (e.1, f e.2)) = [] := by
  simp only [hf]
  induction rows with
  | nil => rfl
  | cons row rest ih => rwa [map_cons, coalesce_cons, if_pos rfl]

/-- One step of the walk. -/
theorem mergeSpans_cons_cons (op : Operation) (shape1 shape2 : Shape) (span1 span2 : Span)
    (rest1 rest2 : List Span) (segments1 segments2 : List Int) (rows : List Row) :
    let append (y : Int) (segments : List Int) : Shape :=
      ofRows (rows ++ if segments = finalValue [] rows then [] else [(y, segments)])
    let segments1' := shape1.segmentsAt (span1 :: rest1)
    let segments2' := shape2.segmentsAt (span2 :: rest2)
    mergeSpans op shape1 shape2 (span1 :: rest1) (span2 :: rest2) segments1 segments2
      (ofRows rows) =
      if span1.y < span2.y then
        mergeSpans op shape1 shape2 rest1 (span2 :: rest2) segments1' segments2
          (append span1.y (mergeRow op segments1' segments2))
      else if span2.y < span1.y then
        mergeSpans op shape1 shape2 (span1 :: rest1) rest2 segments1 segments2'
          (append span2.y (mergeRow op segments1 segments2'))
      else
        mergeSpans op shape1 shape2 rest1 rest2 segments1' segments2'
          (append span1.y (mergeRow op segments1' segments2')) := by
  intro append segments1' segments2'
  rw [mergeSpans]
  rw [append_ofRows]
  rcases lt_trichotomy span1.y span2.y with hlt | heq | hgt
  · have h1 : span1.y - span2.y < 0 := by omega
    simp only [if_pos h1, if_pos h1.le, if_neg (not_le.mpr h1), ge_iff_le, if_pos hlt]
    rfl
  · have h1 : span1.y - span2.y = 0 := by omega
    simp only [h1, ge_iff_le, gt_iff_lt, le_refl, lt_self_iff_false, if_true, if_false,
      if_neg heq.not_lt, if_neg heq.not_gt]
    rw [← heq]
    rfl
  · have h1 : 0 < span1.y - span2.y := by omega
    simp only [if_neg h1.not_gt, if_neg (not_le.mpr h1), ge_iff_le, gt_iff_lt, if_pos h1.le,
      if_pos h1, if_neg hgt.not_gt, if_pos hgt]
    rfl

/-- The walk over both shapes appends the coalesced combination of their rows. -/
theorem mergeSpans_eq {op : Operation} (hop : Uniform op) (shape1 shape2 : Shape)
    (spans1 spans2 : List Span) (segments1 segments2 : List Int) (rows : List Row)
    (hfinal1 : finalValue segments1 (shape1.rowsAt spans1) = [])
    (hfinal2 : finalValue segments2 (shape2.rowsAt spans2) = [])
    (hchanges1 : Changes segments1 (shape1.rowsAt spans1))
    (hchanges2 : Changes segments2 (shape2.rowsAt spans2))
    (hrs : finalValue [] rows = mergeRow op segments1 segments2) :
    mergeSpans op shape1 shape2 spans1 spans2 segments1 segments2 (ofRows rows) =
      ofRows (rows ++ coalesce (mergeRow op segments1 segments2)
        (combine (mergeRow op) segments1 segments2 (shape1.rowsAt spans1)
          (shape2.rowsAt spans2))) := by
  induction hn : spans1.length + spans2.length using Nat.strong_induction_on
    generalizing spans1 spans2 segments1 segments2 rows with
  | _ n ih =>
    match spans1, spans2 with
    | [], spans2 =>
      have hsg := hfinal1
      subst hsg
      rw [rowsAt, combine_nil_left]
      rw [mergeSpans]
      · cases ha : op.shouldAddRemainingSegmentsFromSpan2 with
        | true =>
          have hrw (segments) : mergeRow op [] segments = segments := by
            rw [mergeRow, mergeSegments_nil_left, if_pos ha]
          rw [coalesce_map_of_eq hrw hchanges2]
          rw [hrw] at hrs
          cases spans2 with
          | nil => simp [rowsAt]
          | cons span2 rest2 =>
            simp only [isEmpty_nil, Bool.not_true, Bool.and_false, Bool.false_eq_true,
              if_false, hop.spans2, ha, isEmpty_cons, Bool.not_false, Bool.and_true, if_true]
            exact appendSpans_ofRows shape2 _ rows (hrs ▸ hchanges2)
        | false =>
          have hrw (segments) : mergeRow op [] segments = [] := by
            rw [mergeRow, mergeSegments_nil_left, ha]
            rfl
          rw [coalesce_map_of_nil hrw, hop.spans2, ha]
          simp
      · simp
    | span1 :: rest1, [] =>
      have hsg := hfinal2
      subst hsg
      rw [show shape2.rowsAt [] = [] from rfl, combine_nil_right]
      rw [mergeSpans]
      · cases ha : op.shouldAddRemainingSegmentsFromSpan1 with
        | true =>
          have hrw (segments) : mergeRow op segments [] = segments := by
            rw [mergeRow, mergeSegments_nil_right, if_pos ha]
          rw [coalesce_map_of_eq hrw hchanges1]
          rw [hrw] at hrs
          simp only [hop.spans1, ha, isEmpty_cons, Bool.not_false, Bool.and_true, if_true]
          exact appendSpans_ofRows shape1 _ rows (hrs ▸ hchanges1)
        | false =>
          have hrw (segments) : mergeRow op segments [] = [] := by
            rw [mergeRow, mergeSegments_nil_right, ha]
            rfl
          rw [coalesce_map_of_nil hrw, hop.spans1, ha]
          simp
      · simp
    | span1 :: rest1, span2 :: rest2 =>
      simp only [length_cons] at hn
      rw [mergeSpans_cons_cons]
      rw [rowsAt] at hfinal1 hchanges1
      rw [rowsAt] at hfinal2 hchanges2
      rcases lt_trichotomy span1.y span2.y with hlt | heq | hgt
      · rw [if_pos hlt, ih (rest1.length + (span2 :: rest2).length)
          (by simp only [length_cons]; omega) rest1 (span2 :: rest2) _ segments2 _ hfinal1
          hfinal2 hchanges1.2 hchanges2 (finalValue_append_if _ _ _) rfl]
        simp [rowsAt, combine_cons_cons, if_pos hlt, coalesce_cons_eq_append, hrs]
      · rw [if_neg heq.not_lt, if_neg heq.not_gt, ih (rest1.length + rest2.length) (by omega) rest1
          rest2 _ _ _ hfinal1 hfinal2 hchanges1.2 hchanges2.2 (finalValue_append_if _ _ _) rfl]
        simp only [rowsAt, combine_cons_cons, if_neg heq.not_lt, if_neg heq.not_gt,
          coalesce_cons_eq_append, hrs, append_assoc]
      · rw [if_neg hgt.not_gt, if_pos hgt, ih ((span1 :: rest1).length + rest2.length)
          (by simp only [length_cons]; omega) (span1 :: rest1) rest2 segments1 _ _ hfinal1
          hfinal2 hchanges1 hchanges2.2 (finalValue_append_if _ _ _) rfl]
        simp only [rowsAt, combine_cons_cons, if_neg hgt.not_gt, if_pos hgt,
          coalesce_cons_eq_append, hrs, append_assoc]

/-! ### The operations -/

/-- The rows of the result of an operation. -/
def combineRows (operation : Operation) (rows1 rows2 : List Row) : List Row :=
  coalesce [] (combine (mergeRow operation) [] [] rows1 rows2)

theorem mergeRow_nil_nil (op : Operation) : mergeRow op [] [] = [] := by
  rw [mergeRow, mergeSegments_nil_left]
  split_ifs <;> rfl

theorem mergeSpans_ofRows {op} (hop : Uniform op) {rows1 rows2}
    (h1 : CanonicalRows rows1) (h2 : CanonicalRows rows2) :
    mergeSpans op (ofRows rows1) (ofRows rows2) (ofRows rows1).spans (ofRows rows2).spans
      [] [] empty = ofRows (combineRows op rows1 rows2) := by
  have hrows1 := rowsAt_ofRows h1.final
  have hrows2 := rowsAt_ofRows h2.final
  have hmr := mergeSpans_eq hop (ofRows rows1) (ofRows rows2) (ofRows rows1).spans
    (ofRows rows2).spans [] [] []
  rw [hrows1, hrows2, mergeRow_nil_nil] at hmr
  exact hmr h1.final h2.final h1.changes h2.changes rfl

section

variable {op : Operation} {rows1 rows2 : List Row}

theorem valueAt_combineRows (h1 : CanonicalRows rows1) (h2 : CanonicalRows rows2) (y : Int) :
    valueAt [] (combineRows op rows1 rows2) y =
      mergeRow op (valueAt [] rows1 y) (valueAt [] rows2 y) := by
  have hcm := valueAt_combine (mergeRow op) rows1 rows2 [] [] y
  rw [mergeRow_nil_nil] at hcm
  rw [combineRows, valueAt_coalesce (increasing_combine _ h1.increasing h2.increasing), hcm]

theorem canonicalRows_combineRows (hop : Uniform op) (h1 : CanonicalRows rows1)
    (h2 : CanonicalRows rows2) : CanonicalRows (combineRows op rows1 rows2) := by
  have hi : Increasing (combineRows op rows1 rows2) :=
    increasing_coalesce (increasing_combine _ h1.increasing h2.increasing)
  refine ⟨hi, changes_coalesce _ _, ?_, ?_⟩
  · have hfn := finalValue_combine (mergeRow op) rows1 rows2 [] []
    rw [mergeRow_nil_nil, h1.final, h2.final, mergeRow_nil_nil] at hfn
    rw [combineRows, finalValue_coalesce, hfn]
  · intro row hrw
    have hv := valueAt_of_mem (d := ([] : List Int)) hi hrw
    rw [valueAt_combineRows h1 h2] at hv
    rw [← hv]
    exact segmentList_mergeSegments hop.toSound (h1.segmentList_valueAt _)
      (h2.segmentList_valueAt _)

/-- The pixels of the result by the flag of the operation. -/
theorem mem_rowPoints_combineRows (hop : Uniform op) (h1 : CanonicalRows rows1)
    (h2 : CanonicalRows rows2) (x y : Int) :
    (x, y) ∈ rowPoints (combineRows op rows1 rows2) ↔
      (decide (0 = op.opCode) ^^
        decide (flagAt 0 (toggled (valueAt [] rows1 y) x) (toggled (valueAt [] rows2 y) x) =
          op.opCode)) = true := by
  have hs1 := h1.segmentList_valueAt y
  have hs2 := h2.segmentList_valueAt y
  have ho : 0 = openFlag (valueAt [] rows1 y) (valueAt [] rows2 y) := by
    rw [openFlag, hs1.even, hs2.even]
  rw [mem_rowPoints, valueAt_combineRows h1 h2, mergeRow,
    toggled_mergeSegments hop.toSound 0 ho hs1.sorted hs2.sorted]

end

variable {rows1 rows2 : List Row} (h1 : CanonicalRows rows1) (h2 : CanonicalRows rows2)
include h1 h2

theorem rowPoints_union :
    rowPoints (combineRows unionOperation rows1 rows2) = rowPoints rows1 ∪ rowPoints rows2 := by
  ext ⟨x, y⟩
  rw [mem_rowPoints_combineRows uniform_union h1 h2, Set.mem_union, mem_rowPoints, mem_rowPoints]
  cases toggled (valueAt [] rows1 y) x <;> cases toggled (valueAt [] rows2 y) x <;> decide

theorem rowPoints_intersect :
    rowPoints (combineRows intersectOperation rows1 rows2) = rowPoints rows1 ∩ rowPoints rows2 := by
  ext ⟨x, y⟩
  rw [mem_rowPoints_combineRows uniform_intersect h1 h2, Set.mem_inter_iff, mem_rowPoints,
    mem_rowPoints]
  cases toggled (valueAt [] rows1 y) x <;> cases toggled (valueAt [] rows2 y) x <;> decide

theorem rowPoints_subtract :
    rowPoints (combineRows subtractOperation rows1 rows2) = rowPoints rows1 \ rowPoints rows2 := by
  ext ⟨x, y⟩
  rw [mem_rowPoints_combineRows uniform_subtract h1 h2, Set.mem_sdiff, mem_rowPoints, mem_rowPoints]
  cases toggled (valueAt [] rows1 y) x <;> cases toggled (valueAt [] rows2 y) x <;> decide

theorem unionShapes_ofRows :
    unionShapes (ofRows rows1) (ofRows rows2) =
      ofRows (combineRows unionOperation rows1 rows2) := by
  cases rows1 with
  | nil =>
    have hrw (segments) : mergeRow unionOperation [] segments = segments := by
      rw [mergeRow, mergeSegments_nil_left]
      rfl
    have hc := coalesce_map_of_eq hrw h2.changes
    rw [mergeRow_nil_nil] at hc
    rw [combineRows, combine_nil_left, hc]
    rfl
  | cons row rest => exact mergeSpans_ofRows uniform_union h1 h2

theorem intersectShapes_ofRows :
    intersectShapes (ofRows rows1) (ofRows rows2) =
      ofRows (combineRows intersectOperation rows1 rows2) :=
  mergeSpans_ofRows uniform_intersect h1 h2

theorem subtractShapes_ofRows :
    subtractShapes (ofRows rows1) (ofRows rows2) =
      ofRows (combineRows subtractOperation rows1 rows2) :=
  mergeSpans_ofRows uniform_subtract h1 h2

end QtWebKit.Graphics.Shape
