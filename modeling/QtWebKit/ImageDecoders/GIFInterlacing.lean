import Mathlib

/-!
# Interlaced rows of a GIF frame

`outputRow` reports the row just decoded and moves on to the next row of the interlacing. In
progressive display a row of the first three passes is replicated over rows decoded later.

## Implementation notes

The loop that looks for the next row takes fuel; four turns are enough.
-/

namespace QtWebKit.ImageDecoders

open List

/-- What `outputRow` reads of a frame. The header gives the height in 16 bits and is refused if it
is zero. -/
structure GIFFrameContext where
  height : Nat
  interlaced : Bool
  progressiveDisplay : Bool
  height_pos : 0 < height
  height_lt : height < 2 ^ 16

/-- The position of the decoder in the output. -/
structure GIFLZWContext where
  ipass : Nat
  irow : Nat

/-- The arguments of `haveDecodedRow`. -/
structure DecodedRow where
  rowNumber : Int
  repeatCount : Int
  writeTransparentPixels : Bool

/-- The span of a report has the row. -/
def DecodedRow.covers (report : DecodedRow) (row : Nat) : Bool :=
  report.rowNumber ≤ row ∧ row < report.rowNumber + report.repeatCount

/-- The span lies inside the image and has the row. -/
def DecodedRow.Shows (report : DecodedRow) (height row : Nat) : Prop :=
  0 ≤ report.rowNumber ∧ report.rowNumber + report.repeatCount ≤ height ∧ report.covers row

/-- The row used by the most recent call whose report covers `row`. -/
def lastCovering (calls : List (Nat × Option DecodedRow)) (row : Nat) : Option Nat :=
  (calls.reverse.find? fun call => call.2.any (·.covers row)).map Prod.fst

namespace GIFLZWContext

variable (frame : GIFFrameContext)

/-- The position before the first row. -/
def prepareToDecode : GIFLZWContext := ⟨if frame.interlaced then 1 else 0, 0⟩

/-- `rowDup` and `rowShift` of a pass. -/
def replication : Nat → Int × Int
  | 1 => (7, 3)
  | 2 => (3, 1)
  | 3 => (1, 0)
  | _ => (0, 0)

/-- `drowStart` and `drowEnd`. The comparisons with the height are unsigned. -/
def displayedRows (s : GIFLZWContext) : Int × Int :=
  if frame.progressiveDisplay ∧ frame.interlaced ∧ s.ipass < 4 then
    let (rowDup, rowShift) := replication s.ipass
    let drowStart := s.irow - rowShift
    let drowEnd := drowStart + rowDup
    let drowEnd : Int :=
      if (frame.height - 1 - drowEnd) % 2 ^ 32 ≤ rowShift then frame.height - 1 else drowEnd
    let drowStart := if drowStart < 0 then 0 else drowStart
    (drowStart, if drowEnd % 2 ^ 32 ≥ frame.height then frame.height - 1 else drowEnd)
  else (s.irow, s.irow)

/-- One case of the loop: the next row of the pass or the first row of the next pass. -/
def stride (s : GIFLZWContext) (step first : Nat) : GIFLZWContext :=
  if s.irow + step ≥ frame.height then ⟨s.ipass + 1, first⟩ else ⟨s.ipass, s.irow + step⟩

/-- One turn of the loop that looks for the next row. -/
def advance (s : GIFLZWContext) : GIFLZWContext :=
  match s.ipass with
  | 1 => s.stride frame 8 4
  | 2 => s.stride frame 8 2
  | 3 => s.stride frame 4 1
  | 4 => s.stride frame 2 0
  | _ => s

/-- The loop, run until the row is inside the image. -/
def nextRow : Nat → GIFLZWContext → Option GIFLZWContext
  | 0, _ => none
  | fuel + 1, s =>
    let next := s.advance frame
    if next.irow > frame.height - 1 then nextRow fuel next else some next

/-- One call, with what the client is told. The client accepts every row. -/
def outputRow (fuel : Nat) (s : GIFLZWContext) : Option (GIFLZWContext × Option DecodedRow) :=
  let (drowStart, drowEnd) := s.displayedRows frame
  if drowStart % 2 ^ 32 ≥ frame.height then some (s, none)
  else
    let report := ⟨drowStart, drowEnd - drowStart + 1,
      frame.progressiveDisplay && frame.interlaced && s.ipass > 1⟩
    if frame.interlaced then (s.nextRow frame fuel).map (·, some report)
    else some (⟨s.ipass, s.irow + 1⟩, some report)

/-- A number of calls: the row each one uses and its report. -/
def outputRows (fuel : Nat) : Nat → GIFLZWContext → Option (List (Nat × Option DecodedRow))
  | 0, _ => some []
  | count + 1, s => do
    let (next, report) ← s.outputRow frame fuel
    let calls ← outputRows fuel count next
    some ((s.irow, report) :: calls)

/-! ### The rows still to come -/

/-- The pass that decodes a row. -/
def passOf (row : Nat) : Nat :=
  if row % 8 = 0 then 1 else if row % 8 = 4 then 2 else if row % 4 = 2 then 3 else 4

/-- The rows from the position on are `due`. After the last row the position is past all passes. -/
structure Ahead (s : GIFLZWContext) (due : Finset Nat) : Prop where
  pass : s.ipass = passOf s.irow ∨ s.ipass = 5 ∧ s.irow = 0
  mem_iff : ∀ row, row ∈ due ↔
    row < frame.height ∧ (s.ipass < passOf row ∨ s.ipass = passOf row ∧ s.irow ≤ row)

theorem passOf_cases (row : Nat) : passOf row = 1 ∧ row % 8 = 0 ∨ passOf row = 2 ∧ row % 8 = 4 ∨
    passOf row = 3 ∧ row % 4 = 2 ∨ passOf row = 4 ∧ row % 2 = 1 := by
  unfold passOf
  split_ifs <;> omega

variable {frame} {s : GIFLZWContext} {due : Finset Nat} (h : Ahead frame s due)
  (hps : s.ipass = passOf s.irow)
include h hps

theorem Ahead.stride {step first} (hst : s.ipass = 1 ∧ step = 8 ∧ first = 4 ∨ s.ipass = 2 ∧
    step = 8 ∧ first = 2 ∨ s.ipass = 3 ∧ step = 4 ∧ first = 1 ∨ s.ipass = 4 ∧ step = 2 ∧
      first = 0) :
    Ahead frame (s.stride frame step first) (due.erase s.irow) ∧
      ((s.stride frame step first).irow < frame.height ∨
        s.ipass < (s.stride frame step first).ipass) := by
  have hcs := passOf_cases s.irow
  have hfirst := passOf_cases first
  have hmoved := passOf_cases (s.irow + step)
  rw [GIFLZWContext.stride]
  split_ifs with hen <;> refine ⟨⟨?_, fun row => ?_⟩, ?_⟩ <;> dsimp only <;> try omega
  all_goals
    have hro := passOf_cases row
    rw [Finset.mem_erase, h.mem_iff]
    rcases hst with ⟨_, rfl, rfl⟩ | ⟨_, rfl, rfl⟩ | ⟨_, rfl, rfl⟩ | ⟨_, rfl, rfl⟩ <;> omega

/-- A turn passes over no row of the image. -/
theorem Ahead.advance : Ahead frame (s.advance frame) (due.erase s.irow) ∧
    ((s.advance frame).irow < frame.height ∨ s.ipass < (s.advance frame).ipass) := by
  have hcs := passOf_cases s.irow
  rw [← hps] at hcs
  rw [GIFLZWContext.advance]
  split
  case h_5 h1 h2 h3 h4 =>
    obtain ⟨hp, -⟩ | ⟨hp, -⟩ | ⟨hp, -⟩ | ⟨hp, -⟩ := hcs
    exacts [(h1 hp).elim, (h2 hp).elim, (h3 hp).elim, (h4 hp).elim]
  all_goals exact h.stride hps (by omega)

/-- The loop stops at the next row that is due. -/
theorem Ahead.nextRow {fuel} (hf : 5 ≤ fuel + s.ipass) : ∃ next, s.nextRow frame fuel = some next ∧
    next.irow < frame.height ∧ Ahead frame next (due.erase s.irow) := by
  have hpos := frame.height_pos
  induction fuel generalizing s due with
  | zero =>
    have hcs := passOf_cases s.irow
    omega
  | succ fuel ih =>
    obtain ⟨hn, hlater⟩ := h.advance hps
    rw [GIFLZWContext.nextRow]
    split_ifs with hout
    · have hon := hn.pass.resolve_right fun hen => by omega
      obtain ⟨next, hrn, hin, ha⟩ := ih hn hon (by omega)
      rw [Finset.erase_eq_of_notMem fun hm => by have := (hn.mem_iff _).mp hm; omega] at ha
      exact ⟨next, hrn, hin, ha⟩
    · exact ⟨_, rfl, by omega, hn⟩

variable (hin : s.irow < frame.height)
include hin

/-- The displayed rows are rows of the image, the decoded one among them, and all still due. -/
theorem Ahead.displayedRows {drowStart drowEnd : Int}
    (hrs : s.displayedRows frame = (drowStart, drowEnd)) :
    0 ≤ drowStart ∧ drowStart ≤ s.irow ∧ s.irow ≤ drowEnd ∧ drowEnd < frame.height ∧
      ∀ row : Nat, drowStart ≤ row → row ≤ drowEnd → row ∈ due := by
  have hlt := frame.height_lt
  have hcs := passOf_cases s.irow
  rw [← hps] at hcs
  suffices hsp : 0 ≤ drowStart ∧ drowStart ≤ s.irow ∧ s.irow ≤ drowEnd ∧ drowEnd < frame.height ∧
      (drowStart = s.irow ∧ drowEnd = s.irow ∨ s.ipass = 1 ∧ s.irow - 3 ≤ drowStart ∧ drowEnd ≤
        s.irow + 7 ∨ s.ipass = 2 ∧ s.irow - 1 ≤ drowStart ∧ drowEnd ≤ s.irow + 3 ∨ s.ipass = 3 ∧
        s.irow ≤ drowStart ∧ drowEnd ≤ s.irow + 1) by
    refine ⟨hsp.1, hsp.2.1, hsp.2.2.1, hsp.2.2.2.1, fun row hle hge => ?_⟩
    have hro := passOf_cases row
    rw [h.mem_iff]
    rcases hcs with ⟨hp, _⟩ | ⟨hp, _⟩ | ⟨hp, _⟩ | ⟨hp, _⟩ <;> omega
  rw [GIFLZWContext.displayedRows] at hrs
  by_cases hs : frame.progressiveDisplay ∧ frame.interlaced ∧ s.ipass < 4
  · rw [if_pos hs] at hrs
    rcases hcs with ⟨hp, -⟩ | ⟨hp, -⟩ | ⟨hp, -⟩ | ⟨hp, -⟩ <;>
      simp only [hp, replication, Prod.mk.injEq] at hrs <;> omega
  · rw [if_neg hs, Prod.mk.injEq] at hrs
    omega

/-- One call reports a span that has the decoded row and no row decoded before. -/
theorem Ahead.outputRow (hi : frame.interlaced = true) {fuel} (hf : 4 ≤ fuel) :
    ∃ next report, s.outputRow frame fuel = some (next, some report) ∧ next.irow < frame.height ∧
      Ahead frame next (due.erase s.irow) ∧ report.Shows frame.height s.irow ∧
      ∀ row, report.covers row → row ∈ due := by
  have hcs := passOf_cases s.irow
  have hlt := frame.height_lt
  obtain ⟨next, hn, hin', ha⟩ := h.nextRow hps (by omega : 5 ≤ fuel + s.ipass)
  rcases hrs : s.displayedRows frame with ⟨drowStart, drowEnd⟩
  obtain ⟨h0, hstart, hen, hmax, hs⟩ := h.displayedRows hps hin hrs
  refine ⟨next, ⟨drowStart, drowEnd - drowStart + 1,
    frame.progressiveDisplay && frame.interlaced && s.ipass > 1⟩, ?_, hin', ha, ?_⟩
  · rw [GIFLZWContext.outputRow, hrs]
    simp only [hi, hn]
    rw [if_neg (by omega), if_pos trivial]
    rfl
  · simp only [DecodedRow.Shows, DecodedRow.covers, decide_eq_true_eq]
    exact ⟨⟨h0, by omega, by omega⟩, fun row hrw => hs row hrw.1 (by omega)⟩

omit h hps hin

/-! ### The calls for a frame -/

/-- The calls for the rows that are `due`: each row is left with the report of its own call. -/
structure Delivers (frame : GIFFrameContext) (due : Finset Nat)
    (calls : List (Nat × Option DecodedRow)) : Prop where
  nodup : (calls.map Prod.fst).Nodup
  rows : ∀ row, row ∈ calls.map Prod.fst ↔ row ∈ due
  inside : ∀ call ∈ calls, ∃ report, call.2 = some report ∧ report.Shows frame.height call.1
  covered : ∀ call ∈ calls, ∀ row, call.2.any (·.covers row) → row ∈ due
  last : ∀ row ∈ due, lastCovering calls row = some row

theorem lastCovering_cons (call calls row) : lastCovering (call :: calls) row =
    (lastCovering calls row).or (if call.2.any (·.covers row) then some call.1 else none) := by
  rw [lastCovering, reverse_cons, find?_append, Option.map_or, lastCovering,
    find?_singleton, apply_ite (Option.map Prod.fst)]
  rfl

/-- A call before calls whose spans do not cover its row. -/
theorem Delivers.cons {row calls} {report : DecodedRow} (h : Delivers frame (due.erase row) calls)
    (hrw : row ∈ due) (hsh : report.Shows frame.height row)
    (hcv : ∀ r, report.covers r → r ∈ due) :
    Delivers frame due ((row, some report) :: calls) where
  nodup := by
    rw [map_cons, nodup_cons, h.rows]
    exact ⟨Finset.notMem_erase row due, h.nodup⟩
  rows r := by
    rw [map_cons, mem_cons, h.rows, Finset.mem_erase]
    by_cases heq : r = row <;> simp [heq, hrw]
  inside := forall_mem_cons.mpr ⟨⟨report, rfl, hsh⟩, h.inside⟩
  covered := forall_mem_cons.mpr
    ⟨hcv, fun call hm r hr => Finset.mem_of_mem_erase (h.covered call hm r hr)⟩
  last r hr := by
    rw [lastCovering_cons]
    by_cases heq : r = row
    · have hnn : lastCovering calls row = none := by
        rw [lastCovering, Option.map_eq_none_iff, find?_eq_none]
        intro call hm hc
        exact Finset.notMem_erase row due (h.covered call (mem_reverse.mp hm) row hc)
      rw [heq, hnn, Option.none_or]
      exact if_pos hsh.2.2
    · rw [h.last r (Finset.mem_erase.mpr ⟨heq, hr⟩), Option.some_or]

theorem Ahead.outputRows (hi : frame.interlaced = true) {fuel} (hf : 4 ≤ fuel) {count}
    (h : Ahead frame s due) (hin : s.irow < frame.height) (hcn : due.card = count) :
    ∃ calls, s.outputRows frame fuel count = some calls ∧ Delivers frame due calls := by
  induction count generalizing s due with
  | zero =>
    obtain rfl := Finset.card_eq_zero.mp hcn
    exact ⟨[], rfl, by simp, by simp, by simp, by simp, by simp⟩
  | succ count ih =>
    have hps := h.pass.resolve_right fun hen => by
      obtain ⟨row, hrw⟩ : due.Nonempty := Finset.card_pos.mp (by omega)
      have hcs := passOf_cases row
      have := (h.mem_iff row).mp hrw
      omega
    have hrw := (h.mem_iff _).mpr ⟨hin, .inr ⟨hps, le_rfl⟩⟩
    obtain ⟨next, report, hca, hin', ha, hsh, hcv⟩ := h.outputRow hps hin hi hf
    obtain ⟨calls, hcl, hd⟩ := ih ha hin' (by
      rw [Finset.card_erase_of_mem hrw, hcn, Nat.add_sub_cancel])
    refine ⟨_, ?_, hd.cons hrw hsh hcv⟩
    simp [GIFLZWContext.outputRows, hca, hcl]

/-- The calls for an interlaced frame use every row once, report spans of the image that have the
row just decoded, and leave every row with the report of its own call. -/
theorem outputRows_interlaced (hi : frame.interlaced = true) {fuel} (hf : 4 ≤ fuel) :
    ∃ calls, (prepareToDecode frame).outputRows frame fuel frame.height = some calls ∧
      (calls.map Prod.fst).Perm (range frame.height) ∧
      (∀ call ∈ calls, ∃ report, call.2 = some report ∧ report.Shows frame.height call.1) ∧
      ∀ row < frame.height, lastCovering calls row = some row := by
  have ha : Ahead frame (prepareToDecode frame) (Finset.range frame.height) := by
    rw [prepareToDecode, hi]
    refine ⟨.inl rfl, fun row => ?_⟩
    have hcs := passOf_cases row
    rw [Finset.mem_range, if_pos rfl]
    dsimp only
    omega
  obtain ⟨calls, hcl, h⟩ :=
    ha.outputRows hi hf frame.height_pos (Finset.card_range frame.height)
  refine ⟨calls, hcl, ?_, h.inside, fun row hrw => h.last row (Finset.mem_range.mpr hrw)⟩
  refine (perm_ext_iff_of_nodup h.nodup nodup_range).mpr fun row => ?_
  rw [h.rows, Finset.mem_range, mem_range]

/-- A progressive frame of three rows. -/
theorem outputRows_interlaced_three : ∃ frame : GIFFrameContext, frame.height = 3 ∧
    frame.progressiveDisplay = true ∧ ∃ calls,
      (prepareToDecode frame).outputRows frame 4 3 = some calls ∧
      lastCovering calls 1 = some 1 := by
  obtain ⟨calls, hcl, -, -, hlast⟩ :=
    @outputRows_interlaced ⟨3, true, true, by decide, by decide⟩ rfl 4 le_rfl
  exact ⟨_, rfl, rfl, calls, hcl, hlast 1 (by decide)⟩

end GIFLZWContext

end QtWebKit.ImageDecoders
