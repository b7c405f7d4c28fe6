import QtWebKit.ContentExtensions.DFABytecodeCompiler
import Mathlib.Data.List.GetD

/-!
# The transitions that the compiler emits

The jump tables and ranges of a node lead from a character to exactly the
target of the node, except where the target is left to the fallback transition.
-/

namespace QtWebKit.ContentExtensions

open List Nat

/-- The character that a check compares. -/
def foldCase (caseSensitive : Bool) (c : Nat) : Nat := if caseSensitive then c else toASCIILower c

namespace Range

/-- The check of this range succeeds on a character and leads to a node. -/
def Leads (range : Range) (c d : Nat) : Prop :=
  range.min ≤ foldCase range.caseSensitive c ∧ foldCase range.caseSensitive c ≤ range.max ∧
    range.destination = d

/-- What the instructions rely on. -/
structure Proper (range : Range) : Prop where
  le : range.min ≤ range.max
  ascii : range.max < 128
  destination : range.destination ≠ noDestination
  folded : range.caseSensitive = false → 97 ≤ range.min

theorem Proper.leads {range : Range} (h : range.Proper) :
    range.Leads range.min range.destination := by
  have hfd : foldCase range.caseSensitive range.min = range.min := by
    cases hcs : range.caseSensitive with
    | true => rfl
    | false =>
      have := h.folded hcs
      rw [foldCase, if_neg Bool.false_ne_true, toASCIILower, if_neg (by omega)]
  rw [Leads, hfd]
  exact ⟨le_refl _, h.le, rfl⟩

end Range

/-! ### The loop over the characters -/

section

variable {dests : Nat → Nat} {rmin i : Nat}

theorem isCaseInsensitive_iff (h : rmin < i) :
    isCaseInsensitive dests rmin (i - 1) = true ↔
      65 ≤ rmin ∧ i ≤ 91 ∧
        ∀ c, rmin ≤ c → c < i → dests rmin = dests (toASCIILower c) := by
  rw [isCaseInsensitive, Bool.and_eq_true, Bool.and_eq_true, decide_eq_true_iff, decide_eq_true_iff,
    all_eq_true, and_assoc]
  refine and_congr_right fun _ => and_congr (by omega) ⟨fun ha c hmn hlt => ?_, fun ha c hc => ?_⟩
  · exact of_decide_eq_true (ha c (mem_range'_1.mpr ⟨hmn, by omega⟩))
  · rw [mem_range'_1] at hc
    exact decide_eq_true (ha c hc.1 (by omega))

theorem toASCIILower_of_upper {c} (hlw : 65 ≤ c) (hh : c ≤ 90) : toASCIILower c = c + 32 :=
  if_pos ⟨hlw, hh⟩

/-- A letter is in a range of lower-case letters exactly if it is in that range or
in the corresponding range of upper-case letters. -/
theorem toASCIILower_mem_range {low high} (hlw : 65 ≤ low) (hh : high ≤ 90) (c : Nat) :
    (low + 32 ≤ toASCIILower c ∧ toASCIILower c ≤ high + 32) ↔
      (low ≤ c ∧ c ≤ high) ∨ (low + 32 ≤ c ∧ c ≤ high + 32) := by
  rw [toASCIILower]
  split_ifs <;> omega

/-- What the loop has established in front of character `i`. -/
structure RangeInvariant (destinations₀ : Nat → Nat) (i : Nat) (state : RangeState) : Prop where
  pending : ∀ rangeMin, state.rangeMin = some rangeMin →
    rangeMin < i ∧ state.destinations rangeMin ≠ noDestination ∧
      ∀ c, rangeMin ≤ c → c < i → state.destinations c = state.destinations rangeMin
  leads : ∀ c d, d ≠ noDestination →
    (destinations₀ c = d ↔ (∃ range ∈ state.ranges, range.Leads c d) ∨
      (state.rangeMin.getD i ≤ c ∧ state.destinations c = d))
  proper : ∀ range ∈ state.ranges, range.Proper

section

variable {st : RangeState} (hmn : rmin < i)
  (hcn : ∀ c, rmin ≤ c → c < i → st.destinations c = st.destinations rmin)

include hmn hcn

/-- A case-insensitive range takes over the lower-case letters as well. -/
theorem leads_endRange_of_caseInsensitive (hlw : 65 ≤ rmin) (hh : i ≤ 91)
    (hsm : ∀ c, rmin ≤ c → c < i → st.destinations rmin = st.destinations (toASCIILower c))
    {c d} (hd : d ≠ noDestination) :
    (rmin ≤ c ∧ st.destinations c = d) ↔
      (⟨rmin + 32, i - 1 + 32, st.destinations rmin, false⟩ : Range).Leads c d ∨
        (i ≤ c ∧ (if rmin + 32 ≤ c ∧ c ≤ i - 1 + 32 then noDestination
          else st.destinations c) = d) := by
  have hld : (⟨rmin + 32, i - 1 + 32, st.destinations rmin, false⟩ : Range).Leads c d ↔
      ((rmin ≤ c ∧ c ≤ i - 1) ∨ (rmin + 32 ≤ c ∧ c ≤ i - 1 + 32)) ∧
        st.destinations rmin = d := by
    rw [← toASCIILower_mem_range hlw (by omega), and_assoc]
    rfl
  rw [hld]
  by_cases hlr : rmin + 32 ≤ c ∧ c ≤ i - 1 + 32
  · have heq : st.destinations c = st.destinations rmin := by
      have := hsm (c - 32) (by omega) (by omega)
      rw [toASCIILower_of_upper (by omega) (by omega), Nat.sub_add_cancel (by omega)] at this
      exact this.symm
    rw [if_pos hlr, heq]
    exact ⟨fun h => .inl ⟨.inr hlr, h.2⟩,
      fun h => h.elim (fun h => ⟨by omega, h.2⟩) fun h => absurd h.2.symm hd⟩
  · rw [if_neg hlr]
    constructor
    · rintro ⟨hle, heq⟩
      by_cases hlt : c < i
      · exact .inl ⟨.inl ⟨hle, by omega⟩, (hcn c hle hlt).symm.trans heq⟩
      · exact .inr ⟨by omega, heq⟩
    · rintro (⟨hle | hle, heq⟩ | ⟨hle, heq⟩)
      · exact ⟨hle.1, (hcn c hle.1 (by omega)).trans heq⟩
      · exact absurd hle hlr
      · exact ⟨by omega, heq⟩

theorem leads_endRange_of_caseSensitive {c d} :
    (rmin ≤ c ∧ st.destinations c = d) ↔
      (⟨rmin, i - 1, st.destinations rmin, true⟩ : Range).Leads c d ∨
        (i ≤ c ∧ st.destinations c = d) := by
  constructor
  · rintro ⟨hle, heq⟩
    by_cases hlt : c < i
    · exact .inl ⟨hle, Nat.le_sub_one_of_lt hlt, (hcn c hle hlt).symm.trans heq⟩
    · exact .inr ⟨Nat.le_of_not_lt hlt, heq⟩
  · rintro (⟨hle, hlt, heq⟩ | ⟨hle, heq⟩)
    · exact ⟨hle, (hcn c hle (Nat.lt_of_le_pred (Nat.zero_lt_of_lt hmn) hlt)).trans heq⟩
    · exact ⟨hmn.le.trans hle, heq⟩

/-- The range that ends in front of `i` takes over what was pending. -/
theorem leads_endRange (hso : st.destinations rmin ≠ noDestination) (hi : i < 128) :
    ∃ range : Range, (st.endRange rmin i).ranges = st.ranges ++ [range] ∧ range.Proper ∧
      ∀ c d, d ≠ noDestination →
        ((rmin ≤ c ∧ st.destinations c = d) ↔
          range.Leads c d ∨ (i ≤ c ∧ (st.endRange rmin i).destinations c = d)) := by
  by_cases hcs : isCaseInsensitive st.destinations rmin (i - 1) = true
  · obtain ⟨hlw, hh, hsm⟩ := (isCaseInsensitive_iff hmn).mp hcs
    have hlo := toASCIILower_of_upper hlw (by omega : rmin ≤ 90)
    have hlo' := toASCIILower_of_upper (by omega : 65 ≤ i - 1) (by omega)
    refine ⟨⟨rmin + 32, i - 1 + 32, st.destinations rmin, false⟩, ?_,
      ⟨by simp only; omega, by simp only; omega, hso, fun _ => by simp only; omega⟩,
      fun c d hd => ?_⟩
    · simp only [RangeState.endRange, if_pos hcs, hlo, hlo']
    · simp only [RangeState.endRange, if_pos hcs, hlo, hlo']
      exact leads_endRange_of_caseInsensitive hmn hcn hlw hh hsm hd
  · refine ⟨⟨rmin, i - 1, st.destinations rmin, true⟩, ?_,
      ⟨by simp only; omega, by simp only; omega, hso, fun h => by cases h⟩, fun c d _ => ?_⟩
    · simp only [RangeState.endRange, if_neg hcs]
    · simp only [RangeState.endRange, if_neg hcs]
      exact leads_endRange_of_caseSensitive hmn hcn

end

theorem RangeInvariant.step {dests₀} {st : RangeState}
    (h : RangeInvariant dests₀ i st) (hi : i < 128) :
    RangeInvariant dests₀ (i + 1) (st.step i) := by
  cases hmn : st.rangeMin with
  | some rmin =>
    obtain ⟨hlt, hso, hcn⟩ := h.pending rmin hmn
    by_cases hsm : st.destinations i = st.destinations rmin
    · have hs : st.step i = st := by
        simp [RangeState.step, hmn, hsm]
      rw [hs]
      refine ⟨fun start hst => ?_, fun c d hd => ?_, h.proper⟩
      · rw [hmn, Option.some.injEq] at hst
        subst hst
        refine ⟨by omega, hso, fun c hle hc => ?_⟩
        rcases Nat.lt_succ_iff_lt_or_eq.mp hc with hc | rfl
        · exact hcn c hle hc
        · exact hsm
      · have hld := h.leads c d hd
        rw [hmn, Option.getD_some] at hld ⊢
        exact hld
    · have hs : st.step i = st.endRange rmin i := by
        simp [RangeState.step, hmn, hsm]
      obtain ⟨range, hrg, hpr, hld⟩ := leads_endRange hlt hcn hso hi
      have hrn : (st.endRange rmin i).rangeMin =
          if (st.endRange rmin i).destinations i = noDestination then none else some i := rfl
      rw [hs]
      refine ⟨fun start hst => ?_, fun c d hd => ?_, fun r hr => ?_⟩
      · rw [hrn] at hst
        split_ifs at hst with hno
        obtain rfl := Option.some.inj hst
        exact ⟨by omega, hno, fun c hle hc => by rw [Nat.le_antisymm (Nat.le_of_lt_succ hc) hle]⟩
      · have ho := h.leads c d hd
        rw [hmn, Option.getD_some, hld c d hd, ← or_assoc] at ho
        rw [ho, hrg, hrn]
        refine or_congr (by simp [or_and_right, exists_or]) (and_congr_left fun heq => ?_)
        split_ifs with hno
        · rw [Option.getD_none]
          have : c ≠ i := fun hc => hd (by rw [← heq, hc, hno])
          omega
        · rw [Option.getD_some]
      · rw [hrg, mem_append, mem_singleton] at hr
        rcases hr with hr | rfl
        · exact h.proper r hr
        · exact hpr
  | none =>
    have ho := h.leads
    simp only [hmn, Option.getD_none] at ho
    by_cases hno : st.destinations i = noDestination
    · have hs : st.step i = st := by
        simp [RangeState.step, hmn, hno]
      rw [hs]
      refine ⟨fun start hst => ?_, fun c d hd => ?_, h.proper⟩
      · rw [hmn] at hst
        cases hst
      rw [ho c d hd, hmn, Option.getD_none]
      refine or_congr_right (and_congr_left fun heq => ?_)
      have : c ≠ i := fun hc => hd (by rw [← heq, hc, hno])
      omega
    · have hs : st.step i = { st with rangeMin := some i } := by
        simp [RangeState.step, hmn, hno]
      rw [hs]
      refine ⟨fun start hst => ?_, fun c d hd => ?_, h.proper⟩
      · obtain rfl := Option.some.inj hst
        exact ⟨by omega, hno, fun c hle hc => by rw [Nat.le_antisymm (Nat.le_of_lt_succ hc) hle]⟩
      · rw [Option.getD_some]
        exact ho c d hd

theorem RangeInvariant.run (dests₀ : Nat → Nat) {n} (hn : n ≤ 128) :
    RangeInvariant dests₀ n
      ((range n).foldl RangeState.step ⟨dests₀, none, []⟩) := by
  induction n with
  | zero => exact ⟨by simp, by simp, by simp⟩
  | succ n ih =>
    rw [range_succ, foldl_append]
    exact (ih (by omega)).step (by omega)

theorem RangeInvariant.finish {dests₀} {st : RangeState} (h : RangeInvariant dests₀ 128 st) :
    (∀ range ∈ st.finish, range.Proper) ∧
      ∀ c d, c < 128 → d ≠ noDestination →
        ((∃ range ∈ st.finish, range.Leads c d) ↔ dests₀ c = d) := by
  rw [RangeState.finish]
  cases hmn : st.rangeMin with
  | none =>
    refine ⟨h.proper, fun c d hc hd => ?_⟩
    have hld := h.leads c d hd
    rw [hmn, Option.getD_none] at hld
    rw [hld]
    exact ⟨.inl, fun h => h.elim id fun h => absurd h.1 (not_le.mpr hc)⟩
  | some rmin =>
    obtain ⟨hlt, hso, hcn⟩ := h.pending rmin hmn
    refine ⟨fun range hg => ?_, fun c d hc hd => ?_⟩
    · rcases mem_append.mp hg with hg | hg
      · exact h.proper range hg
      · obtain rfl := mem_singleton.mp hg
        exact ⟨le_of_lt_succ hlt, lt_succ_self 127, hso, fun h => by cases h⟩
    · have hld := h.leads c d hd
      rw [hmn, Option.getD_some] at hld
      rw [hld]
      simp only [mem_append, mem_singleton, or_and_right, exists_or, exists_eq_left]
      refine or_congr_right ⟨fun hl => ?_, fun hpn => ?_⟩
      · exact ⟨hl.1, (hcn c hl.1 hc).trans hl.2.2⟩
      · exact ⟨hpn.1, le_of_lt_succ hc, (hcn c hpn.1 hc).symm.trans hpn.2⟩

/-- Every character ends at most one range. -/
theorem length_rangesOf_le (dests : Nat → Nat) : (rangesOf dests).length ≤ 128 := by
  have hst (st : RangeState) (i : Nat) : (st.step i).ranges.length +
      (st.step i).rangeMin.toList.length ≤ st.ranges.length + st.rangeMin.toList.length + 1 := by
    rw [RangeState.step]
    split
    · split_ifs
      · simp only [RangeState.endRange, length_append, length_singleton]
        split_ifs <;> simp_all
      · exact Nat.le_succ _
    · split_ifs <;> simp_all
  have hrn (n : Nat) : ((range n).foldl RangeState.step ⟨dests, none, []⟩).ranges.length +
      ((range n).foldl RangeState.step ⟨dests, none, []⟩).rangeMin.toList.length ≤ n := by
    induction n with
    | zero => exact le_refl 0
    | succ n ih =>
      rw [range_succ, foldl_append]
      exact (hst _ n).trans (Nat.succ_le_succ ih)
  have h := hrn 128
  rw [rangesOf, RangeState.finish]
  split <;> simp_all

/-- The ranges lead from a character to its destination and nowhere else. -/
theorem rangesOf_spec (dests : Nat → Nat) :
    (∀ range ∈ rangesOf dests, range.Proper) ∧
      ∀ c d, c < 128 → d ≠ noDestination →
        ((∃ range ∈ rangesOf dests, range.Leads c d) ↔ dests c = d) :=
  (RangeInvariant.run dests (le_refl 128)).finish

end

/-! ### The extraction of jump tables -/

/-- Ranges of one character each, from a character on. -/
def singles (caseSensitive : Bool) : Nat → List Nat → List Range
  | _, [] => []
  | c, destination :: rest =>
    ⟨c, c, destination, caseSensitive⟩ :: singles caseSensitive (c + 1) rest

section

variable (caseSensitive : Bool)

@[simp] theorem length_singles (c : Nat) (dests : List Nat) :
    (singles caseSensitive c dests).length = dests.length := by
  induction dests generalizing c with
  | nil => rfl
  | cons d rest ih => rw [singles, length_cons, ih, length_cons]

theorem singles_append (c : Nat) (dests rest : List Nat) :
    singles caseSensitive c (dests ++ rest) =
      singles caseSensitive c dests ++
        singles caseSensitive (c + dests.length) rest := by
  induction dests generalizing c with
  | nil => rfl
  | cons d dests ih =>
    rw [cons_append, singles, ih, singles, cons_append, length_cons]
    congr 3
    omega

theorem map_destination_singles (c : Nat) (dests : List Nat) :
    (singles caseSensitive c dests).map Range.destination = dests := by
  induction dests generalizing c with
  | nil => rfl
  | cons d rest ih => rw [singles, map_cons, ih]

theorem getElem?_singles (c k : Nat) (dests : List Nat) :
    (singles caseSensitive c dests)[k]? =
      dests[k]?.map fun d => ⟨c + k, c + k, d, caseSensitive⟩ := by
  induction dests generalizing c k with
  | nil => rfl
  | cons d rest ih =>
    cases k with
    | zero => rfl
    | succ k =>
      rw [singles, getElem?_cons_succ, ih, getElem?_cons_succ]
      congr 2
      funext d
      rw [add_right_comm, add_assoc]

end

namespace JumpTable

/-- The ranges that a table stands for. -/
def ranges (jumpTable : JumpTable) : List Range :=
  singles jumpTable.caseSensitive jumpTable.min jumpTable.destinations

/-- A table has one destination for each character between its bounds. -/
structure Proper (jumpTable : JumpTable) : Prop where
  le : jumpTable.min ≤ jumpTable.max
  size : jumpTable.max + 1 = jumpTable.min + jumpTable.destinations.length

theorem leads_iff (tbl : JumpTable) (c d : Nat) :
    (∃ range ∈ tbl.ranges, range.Leads c d) ↔
      tbl.min ≤ foldCase tbl.caseSensitive c ∧
        tbl.destinations[foldCase tbl.caseSensitive c - tbl.min]? = some d := by
  constructor
  · rintro ⟨range, hg, hld⟩
    obtain ⟨k, hk⟩ := mem_iff_getElem?.mp hg
    rw [ranges, getElem?_singles] at hk
    obtain ⟨d', hd', rfl⟩ := Option.map_eq_some_iff.mp hk
    obtain ⟨hmn, hmx, rfl⟩ := hld
    simp only at hmn hmx
    have hfd := le_antisymm hmx hmn
    rw [hfd, Nat.add_sub_cancel_left]
    exact ⟨Nat.le_add_right _ _, hd'⟩
  · rintro ⟨hmn, hd⟩
    obtain ⟨k, hk⟩ := Nat.exists_eq_add_of_le hmn
    rw [hk, Nat.add_sub_cancel_left] at hd
    refine ⟨⟨tbl.min + k, tbl.min + k, d, tbl.caseSensitive⟩, ?_, hk.ge, hk.le, rfl⟩
    refine mem_iff_getElem?.mpr ⟨k, ?_⟩
    rw [ranges, getElem?_singles, hd, Option.map_some]

end JumpTable

namespace TableState

/-- All ranges, those in tables included. -/
def allRanges (state : TableState) : List Range :=
  state.jumpTables.flatMap JumpTable.ranges ++ state.ranges

/-- The vector of ranges around the position: the loop has no base range, or a
chain of single characters from the base range on. -/
inductive Shape (state : TableState) (back : List Range) : Prop
  | idle (front : List Range) (ranges : state.ranges = front ++ back)
      (position : state.rangePosition = front.length) (base : state.baseRangePosition = none)
  | chain (front : List Range) (caseSensitive : Bool) (c d : Nat) (destinations : List Nat)
      (ranges : state.ranges = front ++ (singles caseSensitive c (d :: destinations) ++ back))
      (position : state.rangePosition = front.length + (destinations.length + 1))
      (base : state.baseRangePosition = some front.length)

structure Invariant (ranges : List Range) (state : TableState) (back : List Range) : Prop where
  shape : state.Shape back
  perm : state.allRanges.Perm ranges
  proper : ∀ jumpTable ∈ state.jumpTables, jumpTable.Proper

variable {front back : List Range} {caseSensitive : Bool} {c d : Nat} {dests : List Nat}

theorem getD_base (r : Range) :
    (front ++ (singles caseSensitive c (d :: dests) ++ back)).getD front.length r =
      ⟨c, c, d, caseSensitive⟩ := by
  rw [getD_append_right _ _ _ _ (le_refl _), Nat.sub_self, singles, cons_append, getD_cons_zero]

theorem getD_last (r : Range) :
    ((front ++ (singles caseSensitive c (d :: dests) ++ back)).getD
        (front.length + dests.length) r).max = c + dests.length ∧
      ((front ++ (singles caseSensitive c (d :: dests) ++ back)).getD
        (front.length + dests.length) r).caseSensitive = caseSensitive := by
  have hlt : dests.length < (d :: dests).length := Nat.lt_succ_self _
  rw [getD_append_right _ _ _ _ (Nat.le_add_right _ _), Nat.add_sub_cancel_left,
    getD_append _ _ _ _ (by rw [length_singles]; exact hlt), getD_eq_getElem?_getD,
    getElem?_singles, getElem?_eq_getElem hlt]
  exact ⟨rfl, rfl⟩

theorem getD_next (r r' : Range) :
    (front ++ (singles caseSensitive c (d :: dests) ++ r :: back)).getD
      (front.length + (dests.length + 1)) r' = r := by
  rw [getD_append_right _ _ _ _ (Nat.le_add_right _ _), Nat.add_sub_cancel_left,
    getD_append_right _ _ _ _ (by rw [length_singles, length_cons]), length_singles,
    length_cons, Nat.sub_self, getD_cons_zero]

section

variable {st : TableState}
  (h : st.ranges = front ++ (singles caseSensitive c (d :: dests) ++ back))
include h

/-- Extracting a chain moves it into a table. -/
theorem extractJumpTable_chain :
    extractJumpTable st front.length (front.length + dests.length) =
      { st with
        jumpTables := st.jumpTables ++ [⟨c, c + dests.length, caseSensitive, d :: dests⟩]
        ranges := front ++ back } := by
  have hsz : front.length + dests.length - front.length + 1 =
      (singles caseSensitive c (d :: dests)).length := by
    rw [length_singles, length_cons, Nat.add_sub_cancel_left]
  rw [extractJumpTable, h, hsz, getD_base, (getD_last _).1, (getD_last _).2, take_left, drop_left,
    take_left, map_destination_singles, ← length_append, ← append_assoc, drop_left]

theorem allRanges_extractJumpTable :
    (extractJumpTable st front.length (front.length + dests.length)).allRanges.Perm
      st.allRanges := by
  rw [extractJumpTable_chain h]
  simp only [allRanges, h, flatMap_append, flatMap_singleton, JumpTable.ranges, append_assoc]
  refine List.Perm.append_left _ ?_
  rw [← append_assoc, ← append_assoc front]
  exact perm_append_comm.append_right _

theorem proper_extractJumpTable (hpr : ∀ tbl ∈ st.jumpTables, tbl.Proper) :
    ∀ tbl ∈
      (extractJumpTable st front.length (front.length + dests.length)).jumpTables,
      tbl.Proper := by
  rw [extractJumpTable_chain h]
  intro tbl hm
  rcases mem_append.mp hm with hm | hm
  · exact hpr tbl hm
  · obtain rfl := mem_singleton.mp hm
    exact ⟨le_add_right _ _, add_assoc _ _ _⟩

end

section

variable {ranges : List Range} {st : TableState} {range : Range}
  (h : st.Invariant ranges (range :: back))
include h

/-- A round without a base range. -/
theorem Invariant.step_idle (hrg : st.ranges = front ++ range :: back)
    (hps : st.rangePosition = front.length) (hb : st.baseRangePosition = none) :
    st.step.Invariant ranges back := by
  have hgt : st.ranges.getD st.rangePosition dummyRange = range := by
    rw [hrg, hps, getD_append_right _ _ _ _ (le_refl _), Nat.sub_self, getD_cons_zero]
  by_cases hsn : range.min = range.max
  · have hs : st.step = { st with
        rangePosition := st.rangePosition + 1
        baseRangePosition := some st.rangePosition } := by
      simp only [TableState.step, hgt, hb, hsn, if_true]
    rw [hs]
    refine ⟨.chain front range.caseSensitive range.min range.destination [] ?_ ?_ ?_,
      h.perm, h.proper⟩
    · rw [hrg]
      cases range
      simp only at hsn
      subst hsn
      rfl
    · simp [hps]
    · simp only [hps]
  · have hs : st.step = { st with rangePosition := st.rangePosition + 1 } := by
      simp only [TableState.step, hgt, hb, hsn, if_false]
    rw [hs]
    refine ⟨.idle (front ++ [range]) ?_ ?_ hb, h.perm, h.proper⟩
    · simp [hrg]
    · simp only [hps, length_append, length_singleton]

/-- One round: the position moves one step towards the end of the vector. -/
theorem Invariant.step : st.step.Invariant ranges back := by
  cases h.shape with
  | idle front hrg hps hb => exact h.step_idle hrg hps hb
  | chain front caseSensitive c d dests hrg hps hb =>
    have hgt : st.ranges.getD st.rangePosition dummyRange = range := by
      rw [hrg, hps, getD_next]
    have hcs : (st.ranges.getD front.length dummyRange).caseSensitive = caseSensitive := by
      rw [hrg, getD_base]
    have hl : (st.ranges.getD (st.rangePosition - 1) dummyRange).max = c + dests.length := by
      rw [hrg, hps, ← Nat.add_assoc, Nat.add_sub_cancel, (getD_last _).1]
    by_cases he : range.min ≠ range.max ∨ caseSensitive ≠ range.caseSensitive ∨
        c + dests.length + 1 ≠ range.min
    · by_cases hln : st.rangePosition - front.length > 1
      · have hex := extractJumpTable_chain hrg
        have hps' : st.rangePosition - 1 = front.length + dests.length := by
          omega
        have hs : st.step = { extractJumpTable st front.length (st.rangePosition - 1) with
            rangePosition := front.length + 1
            baseRangePosition := none } := by
          simp only [TableState.step, hgt, hb, hcs, hl, if_pos he, if_pos hln]
        rw [hs, hps', hex]
        refine ⟨.idle (front ++ [range]) ?_ ?_ rfl, ?_, ?_⟩
        · simp
        · simp only [length_append, length_singleton]
        · have hpm := (allRanges_extractJumpTable hrg).trans h.perm
          rw [hex] at hpm
          exact hpm
        · have hpr := proper_extractJumpTable hrg h.proper
          rw [hex] at hpr
          exact hpr
      · have hs : st.step = { st with
            rangePosition := st.rangePosition + 1
            baseRangePosition := none } := by
          simp only [TableState.step, hgt, hb, hcs, hl, if_pos he, if_neg hln]
        rw [hs]
        refine ⟨.idle (front ++ (singles caseSensitive c (d :: dests) ++ [range])) ?_ ?_ rfl,
          h.perm, h.proper⟩
        · simp [hrg]
        · simp only [hps, length_append, length_singles, length_cons,
            length_nil, Nat.add_assoc]
    · have hs : st.step = { st with rangePosition := st.rangePosition + 1 } := by
        simp only [TableState.step, hgt, hb, hcs, hl, if_neg he]
      simp only [not_or, ne_eq, not_not] at he
      obtain ⟨hsn, rfl, hnx⟩ := he
      rw [hs]
      refine ⟨.chain front range.caseSensitive c d (dests ++ [range.destination]) ?_ ?_ hb,
        h.perm, h.proper⟩
      · have hg : singles range.caseSensitive (c + (d :: dests).length)
            [range.destination] = [range] := by
          cases range
          simp only [singles, length_cons, ← Nat.add_assoc] at hsn hnx ⊢
          rw [hnx, ← hsn]
        rw [hrg, ← cons_append, singles_append, hg, append_assoc, singleton_append]
      · simp [hps, Nat.add_assoc]

end

theorem Invariant.lt_length {ranges} {st : TableState} (h : st.Invariant ranges back) :
    st.rangePosition + back.length = st.ranges.length := by
  cases h.shape with
  | idle front hrg hps _ => rw [hrg, hps, length_append]
  | chain front caseSensitive c d dests hrg hps _ =>
    rw [hrg, hps, length_append, length_append, length_singles, length_cons, add_assoc]

theorem Invariant.run {ranges} {st : TableState} {n}
    (h : st.Invariant ranges back) (hn : back.length ≤ n) :
    (TableState.run n st).Invariant ranges [] := by
  induction back generalizing n st with
  | nil =>
    have hlen := h.lt_length
    cases n with
    | zero => exact h
    | succ n =>
      rw [TableState.run, if_neg (by rw [← hlen]; exact lt_irrefl _)]
      exact h
  | cons range back ih =>
    have hlen := h.lt_length
    obtain ⟨n, rfl⟩ := Nat.exists_eq_succ_of_ne_zero (Nat.ne_zero_of_lt hn)
    rw [TableState.run, if_pos (by rw [← hlen]; exact Nat.lt_add_of_pos_right (Nat.succ_pos _))]
    exact ih h.step (Nat.le_of_succ_le_succ hn)

end TableState

/-- Extraction permutes the ranges, and every table is complete. -/
theorem extractJumpTables_spec (ranges : List Range) :
    ((extractJumpTables ranges).1.flatMap JumpTable.ranges ++ (extractJumpTables ranges).2).Perm
        ranges ∧
      ∀ tbl ∈ (extractJumpTables ranges).1, tbl.Proper := by
  have h : (TableState.run ranges.length ⟨ranges, 0, none, []⟩).Invariant ranges [] :=
    TableState.Invariant.run ⟨.idle [] rfl rfl rfl, List.Perm.refl _, by simp⟩ (le_refl _)
  rw [extractJumpTables]
  generalize TableState.run ranges.length ⟨ranges, 0, none, []⟩ = st at h
  cases h.shape with
  | idle front _ _ hb =>
    simp only [hb]
    exact ⟨h.perm, h.proper⟩
  | chain front caseSensitive c d dests hrg _ hb =>
    simp only [hb]
    split_ifs with hln
    · have hl : st.ranges.length - 1 = front.length + dests.length := by
        simp only [hrg, length_append, length_singles, length_cons, length_nil]
        omega
      rw [hl]
      exact ⟨(TableState.allRanges_extractJumpTable hrg).trans h.perm,
        TableState.proper_extractJumpTable hrg h.proper⟩
    · exact ⟨h.perm, h.proper⟩

/-! ### Targets -/

section

variable {ts : List Transition}

theorem Transition.contains_iff {t : Transition} {c} :
    t.contains c = true ↔ t.first ≤ c ∧ c ≤ t.last := by
  rw [contains, Bool.and_eq_true, decide_eq_true_iff, decide_eq_true_iff]

/-- Disjoint ranges: a character is in at most one of them. -/
theorem eq_of_contains (hsr : ts.Pairwise fun t t' => t.last < t'.first) {t t' : Transition} {c}
    (ht : t ∈ ts) (ht' : t' ∈ ts) (hc : t.contains c = true) (hc' : t'.contains c = true) :
    t = t' := by
  induction ts with
  | nil => cases ht
  | cons first rest ih =>
    obtain ⟨hf, hrs⟩ := pairwise_cons.mp hsr
    rw [Transition.contains_iff] at hc hc'
    rcases mem_cons.mp ht with heq | hm <;> rcases mem_cons.mp ht' with heq' | hm'
    · exact heq.trans heq'.symm
    · exact absurd (hc.2.trans_lt (heq ▸ hf t' hm')) (not_lt.mpr hc'.1)
    · exact absurd (hc'.2.trans_lt (heq' ▸ hf t hm)) (not_lt.mpr hc.1)
    · exact ih hrs hm hm'

theorem DFANode.target_eq_some {node : DFANode}
    (hsr : node.transitions.Pairwise fun t t' => t.last < t'.first) {c d} :
    node.target c = some d ↔ ∃ t ∈ node.transitions, t.contains c = true ∧ t.target = d := by
  rw [DFANode.target, Option.map_eq_some_iff]
  constructor
  · rintro ⟨t, hfn, htg⟩
    have hct := find?_some hfn
    exact ⟨t, mem_of_find?_eq_some hfn, hct, htg⟩
  · rintro ⟨t, hm, hct, htg⟩
    have hso : (node.transitions.find? fun t => t.contains c).isSome = true :=
      find?_isSome.mpr ⟨t, hm, hct⟩
    obtain ⟨t', hfn⟩ := Option.isSome_iff_exists.mp hso
    have hct' := find?_some hfn
    have heq := eq_of_contains hsr hm (mem_of_find?_eq_some hfn) hct hct'
    exact ⟨t', hfn, heq ▸ htg⟩

theorem destinationsOf_append (fallbackTarget : Option Nat) (t : Transition) (c : Nat) :
    destinationsOf fallbackTarget (ts ++ [t]) c =
      if fallbackTarget ≠ some t.target ∧ t.contains c = true then t.target
      else destinationsOf fallbackTarget ts c := by
  rw [destinationsOf, foldl_append, ← destinationsOf, foldl_cons, foldl_nil]
  by_cases hfl : fallbackTarget = some t.target
  · rw [if_pos hfl, if_neg fun h => h.1 hfl]
  · rw [if_neg hfl]
    simp [hfl]

/-- The vector of destinations holds the targets that are not the fallback target. -/
theorem destinationsOf_eq (fallbackTarget : Option Nat)
    (hsr : ts.Pairwise fun t t' => t.last < t'.first) {c d} (hd : d ≠ noDestination) :
    destinationsOf fallbackTarget ts c = d ↔
      ∃ t ∈ ts, t.contains c = true ∧ t.target = d ∧ fallbackTarget ≠ some d := by
  induction ts using reverseRecOn with
  | nil => simp [destinationsOf, Ne.symm hd]
  | append_singleton ts t ih =>
    have hrs := ih (pairwise_append.mp hsr).1
    rw [destinationsOf_append]
    split_ifs with hl
    · constructor
      · rintro rfl
        exact ⟨t, mem_concat_self, hl.2, rfl, hl.1⟩
      · rintro ⟨t', hm, hct, htg, -⟩
        rw [eq_of_contains hsr mem_concat_self hm hl.2 hct, htg]
    · rw [hrs]
      constructor
      · rintro ⟨t', hm, h⟩
        exact ⟨t', mem_append_left _ hm, h⟩
      · rintro ⟨t', hm, hct, htg, hne⟩
        rcases mem_append.mp hm with hm | hm
        · exact ⟨t', hm, hct, htg, hne⟩
        · obtain rfl := mem_singleton.mp hm
          exact absurd ⟨htg ▸ hne, hct⟩ hl

/-! ### The fallback transition -/

theorem DFANode.exists_of_coversFrom {last} (h : DFANode.coversFrom last ts = true) {c}
    (hlt : last < c) (hc : c < 128) : ∃ t ∈ ts, t.contains c = true := by
  induction ts generalizing last with
  | nil => cases h
  | cons t rest ih =>
    rw [coversFrom] at h
    split_ifs at h with hf hl
    · exact ⟨t, mem_cons_self, Transition.contains_iff.mpr (by omega)⟩
    · by_cases hle : c ≤ t.last
      · exact ⟨t, mem_cons_self, Transition.contains_iff.mpr (by omega)⟩
      · obtain ⟨t', hm, hct⟩ := ih h (Nat.lt_of_not_le hle)
        exact ⟨t', mem_cons_of_mem _ hm, hct⟩

/-- Every character but the end of the url has a transition. -/
theorem DFANode.exists_of_canUseFallbackTransition {node : DFANode}
    (h : node.canUseFallbackTransition = true) {c} (hp : c ≠ 0) (hc : c < 128) :
    ∃ t ∈ node.transitions, t.contains c = true := by
  rw [canUseFallbackTransition] at h
  cases hts : node.transitions with
  | nil => rw [hts] at h; cases h
  | cons t rest =>
    rw [hts] at h
    simp only at h
    split_ifs at h with hf hl
    · exact ⟨t, mem_cons_self, Transition.contains_iff.mpr (by omega)⟩
    · by_cases hle : c ≤ t.last
      · exact ⟨t, mem_cons_self, Transition.contains_iff.mpr (by omega)⟩
      · obtain ⟨t', hm, hct⟩ := exists_of_coversFrom h (Nat.lt_of_not_le hle) hc
        exact ⟨t', mem_cons_of_mem _ hm, hct⟩
    · exact exists_of_coversFrom h (Nat.pos_of_ne_zero hp) hc

theorem DFANode.bestTargetFrom_mem (histogram : List (Nat × Nat)) (bestTarget score : Nat) :
    bestTargetFrom histogram bestTarget score ts = bestTarget ∨
      ∃ t ∈ ts, t.target = bestTargetFrom histogram bestTarget score ts := by
  induction ts generalizing histogram bestTarget score with
  | nil => exact .inl rfl
  | cons t rest ih =>
    rw [bestTargetFrom]
    simp only
    split_ifs with hbetter
    · rcases ih _ t.target _ with heq | ⟨t', hm, heq⟩
      · exact .inr ⟨t, mem_cons_self, heq.symm⟩
      · exact .inr ⟨t', mem_cons_of_mem _ hm, heq⟩
    · rcases ih _ bestTarget _ with heq | ⟨t', hm, heq⟩
      · exact .inl heq
      · exact .inr ⟨t', mem_cons_of_mem _ hm, heq⟩

/-- The fallback target is the target of some transition. -/
theorem DFANode.exists_bestFallbackTarget {node : DFANode}
    (h : node.canUseFallbackTransition = true) :
    ∃ t ∈ node.transitions, t.target = node.bestFallbackTarget := by
  have hco (t : Transition) (rest) (score) :
      ∃ t' ∈ t :: rest, t'.target = bestTargetFrom [(t.target, score)] t.target score rest := by
    rcases bestTargetFrom_mem [(t.target, score)] t.target score with heq | ⟨t', hm, heq⟩
    · exact ⟨t, mem_cons_self, heq.symm⟩
    · exact ⟨t', mem_cons_of_mem _ hm, heq⟩
  rw [canUseFallbackTransition] at h
  rw [bestFallbackTarget]
  cases hts : node.transitions with
  | nil => rw [hts] at h; cases h
  | cons t rest =>
    rw [hts] at h
    by_cases hz : t.first = 0 ∧ t.last = 0
    · simp only [hz, if_true, if_false, and_self, OfNat.zero_ne_ofNat] at h ⊢
      cases rest with
      | nil => cases h
      | cons t' rest =>
        obtain ⟨t'', hm, heq⟩ := hco t' rest
          (if t'.first = 0 then rangeSize t' - 1 else rangeSize t')
        exact ⟨t'', mem_cons_of_mem _ hm, heq⟩
    · simp only [hz, if_false]
      exact hco t rest _

end

/-! ### The transitions of a node -/

/-- All checks of a node, those in jump tables included. -/
def Transitions.checks (transitions : Transitions) : List Range :=
  transitions.jumpTables.flatMap JumpTable.ranges ++ transitions.ranges

theorem fallbackTransitionTarget_eq {node : DFANode} (h : node.canUseFallbackTransition = true) :
    (transitions node).fallbackTransitionTarget = node.bestFallbackTarget := by
  simp only [transitions, if_pos h]

theorem proper_jumpTables (node : DFANode) : ∀ tbl ∈ (transitions node).jumpTables, tbl.Proper := by
  simp only [transitions]
  exact (extractJumpTables_spec (rangesOf (checkedDestinations node))).2

theorem length_checks_le (node : DFANode) : (transitions node).checks.length ≤ 128 := by
  simp only [transitions, Transitions.checks]
  rw [(extractJumpTables_spec (rangesOf (checkedDestinations node))).1.length_eq]
  exact length_rangesOf_le _

theorem mem_checks (node : DFANode) (range : Range) :
    range ∈ (transitions node).checks ↔ range ∈ rangesOf (checkedDestinations node) := by
  simp only [transitions, Transitions.checks]
  exact (extractJumpTables_spec (rangesOf (checkedDestinations node))).1.mem_iff

theorem proper_checks (node : DFANode) : ∀ range ∈ (transitions node).checks, range.Proper := by
  intro range hg
  exact (rangesOf_spec (checkedDestinations node)).1 range ((mem_checks node range).mp hg)

variable {dfa : DFA} (hdf : dfa.WellFormed) (idx : Nat)

include hdf

theorem DFA.WellFormed.target_ne {t : Transition} (ht : t ∈ (dfa.node idx).transitions) :
    t.target ≠ noDestination := by
  have := lt_of_not_isKilled (hdf.targets idx t ht)
  have := hdf.length
  rw [noDestination]
  omega

/-- The checks lead to the target of the node, unless it is the fallback target. -/
theorem leads_checks {c d} (hc : c < 128) :
    (∃ range ∈ (transitions (dfa.node idx)).checks, range.Leads c d) ↔
      (dfa.node idx).target c = some d ∧
        ¬((dfa.node idx).canUseFallbackTransition = true ∧
          (dfa.node idx).bestFallbackTarget = d) := by
  have hsr := hdf.sorted idx
  by_cases hd : d = noDestination
  · subst hd
    constructor
    · rintro ⟨range, hg, hld⟩
      exact absurd hld.2.2 (proper_checks _ range hg).destination
    · rintro ⟨htg, -⟩
      obtain ⟨t, hm, -, heq⟩ := (DFANode.target_eq_some hsr).mp htg
      exact absurd heq (hdf.target_ne idx hm)
  · simp only [mem_checks]
    rw [(rangesOf_spec (checkedDestinations (dfa.node idx))).2 c d hc hd, checkedDestinations,
      destinationsOf_eq _ hsr hd, DFANode.target_eq_some hsr]
    simp only [← and_assoc, exists_and_right]
    refine and_congr_right fun _ => ?_
    by_cases hfl : (dfa.node idx).canUseFallbackTransition = true
    · simp [hfl]
    · simp only [hfl, if_false, false_and, ne_eq, reduceCtorEq, Bool.false_eq_true]

/-- The checks lead to live nodes. -/
theorem not_isKilled_of_mem_checks {range : Range}
    (h : range ∈ (transitions (dfa.node idx)).checks) :
    (dfa.node range.destination).isKilled = false := by
  have hpr := proper_checks _ range h
  have hld := (leads_checks hdf idx (hpr.le.trans_lt hpr.ascii)).mp ⟨range, h, hpr.leads⟩
  obtain ⟨t, hm, -, htg⟩ := (DFANode.target_eq_some (hdf.sorted idx)).mp hld.1
  exact htg ▸ hdf.targets idx t hm

/-- The fallback transition leads to a live node. -/
theorem not_isKilled_bestFallbackTarget (h : (dfa.node idx).canUseFallbackTransition = true) :
    (dfa.node (dfa.node idx).bestFallbackTarget).isKilled = false := by
  obtain ⟨t, hm, htg⟩ := DFANode.exists_bestFallbackTarget h
  exact htg ▸ hdf.targets idx t hm

end QtWebKit.ContentExtensions
