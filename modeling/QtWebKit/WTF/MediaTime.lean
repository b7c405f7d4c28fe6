import Mathlib

/-!
# Media times

A time is a 64-bit value over a 32-bit scale, with flags for the times that are not finite.
`compare` orders the times without a product of 96 bits: it compares truncated quotients and
then the remainders over each other's scales.

## Implementation notes

`ComparisonFlags` are `Ordering`. Times that carry a double are not modelled.
-/

namespace QtWebKit.WTF

/-- `numeric_limits::min` of the signed integers of `w` bits. -/
def numericMin (w : Nat) : Int := -2 ^ (w - 1)

/-- `numeric_limits::max` of the signed integers of `w` bits. -/
def numericMax (w : Nat) : Int := 2 ^ (w - 1) - 1

/-- A value that a signed integer of `w` bits can have. -/
def inBounds (w : Nat) (value : Int) : Bool := numericMin w ≤ value && value ≤ numericMax w

theorem inBounds_iff {w val} : inBounds w val ↔ numericMin w ≤ val ∧ val ≤ numericMax w := by
  simp [inBounds]

/-- The wrap of `int64_t`. -/
def int64 (value : Int) : Int := value.bmod (2 ^ 64)

theorem int64_of_inBounds {val} (h : inBounds 64 val) : int64 val = val := by
  obtain ⟨hm, hmx⟩ := inBounds_iff.mp h
  simp only [numericMin, numericMax] at hm hmx
  apply Int.bmod_eq_of_le
  · omega
  · omega

/-- A value over a scale, with flags. -/
structure MediaTime where
  timeValue : Int
  timeScale : Int
  timeFlags : BitVec 32
  deriving DecidableEq

namespace MediaTime

variable (t : MediaTime)

def isValid : Bool := t.timeFlags.getLsbD 0

def isInvalid : Bool := !t.isValid

def isPositiveInfinite : Bool := t.timeFlags.getLsbD 2

def isNegativeInfinite : Bool := t.timeFlags.getLsbD 3

def isIndefinite : Bool := t.timeFlags.getLsbD 4

def hasDoubleValue : Bool := t.timeFlags.getLsbD 5

/-- `MaximumTimeScale`, the greatest 32-bit integer. -/
def maximumTimeScale : Int := 0x7fffffff

/-- The comparison of two times that are finite. -/
def compareFinite (a b : MediaTime) : Ordering :=
  let rhsWhole := b.timeValue.tdiv b.timeScale
  let lhsWhole := a.timeValue.tdiv a.timeScale
  if lhsWhole > rhsWhole then .gt
  else if lhsWhole < rhsWhole then .lt
  else
    let lhsFactor := int64 (a.timeValue.tmod a.timeScale * b.timeScale)
    let rhsFactor := int64 (b.timeValue.tmod b.timeScale * a.timeScale)
    if lhsFactor = rhsFactor then .eq
    else if lhsFactor > rhsFactor then .gt else .lt

/-- The special times are tested one after another. -/
def compare (a b : MediaTime) : Ordering :=
  if (a.isPositiveInfinite && b.isPositiveInfinite) ||
    (a.isNegativeInfinite && b.isNegativeInfinite)
      || (a.isInvalid && b.isInvalid) || (a.isIndefinite && b.isIndefinite) then .eq
  else if a.isInvalid then .gt
  else if b.isInvalid then .lt
  else if b.isNegativeInfinite || a.isPositiveInfinite then .gt
  else if b.isPositiveInfinite || a.isNegativeInfinite then .lt
  else if a.isIndefinite then .gt
  else if b.isIndefinite then .lt
  else compareFinite a b

/-- The kinds of times, from the least to the greatest. -/
inductive Kind
  | negativeInfinite
  | finite
  | indefinite
  | positiveInfinite
  | invalid
  deriving DecidableEq

/-- The place of a kind in the order of the times. -/
def Kind.rank : Kind → Nat
  | .negativeInfinite => 0
  | .finite => 1
  | .indefinite => 2
  | .positiveInfinite => 3
  | .invalid => 4

/-- A time without a double whose flags are those of one kind. -/
structure IsKind (t : MediaTime) (kind : Kind) : Prop where
  isValid : t.isValid = (kind != .invalid)
  isPositiveInfinite : t.isPositiveInfinite = (kind == .positiveInfinite)
  isNegativeInfinite : t.isNegativeInfinite = (kind == .negativeInfinite)
  isIndefinite : t.isIndefinite = (kind == .indefinite)
  hasDoubleValue : t.hasDoubleValue = false
  timeValue : inBounds 64 t.timeValue
  timeScale_pos : 0 < t.timeScale
  timeScale_le : t.timeScale ≤ maximumTimeScale

/-- The exact number of seconds of a finite time. -/
def seconds : ℚ := t.timeValue / t.timeScale

/-- Truncation keeps the order of fractions. -/
theorem tdiv_le_tdiv_of_mul_le {v w s t : Int} (hs : 0 < s) (ht : 0 < t) (h : v * t ≤ w * s) :
    v.tdiv s ≤ w.tdiv t := by
  rw [← Int.mul_tdiv_mul_of_pos_left v s ht, ← Int.mul_tdiv_mul_of_pos_left w t hs,
    Int.mul_comm t s]
  exact Int.tdiv_le_tdiv (Int.mul_pos hs ht) h

/-- A remainder times a scale is a product of two 32-bit integers. -/
theorem inBounds_tmod_mul {v s c : Int} (hs : 0 < s) (hsmax : s ≤ maximumTimeScale) (hc : 0 ≤ c)
    (hcmax : c ≤ maximumTimeScale) : inBounds 64 (v.tmod s * c) := by
  have hlt : v.tmod s < s := Int.tmod_lt_of_pos v hs
  have hgt := Int.tmod_lt_of_pos (-v) hs
  rw [Int.neg_tmod] at hgt
  have hle : |v.tmod s * c| ≤ maximumTimeScale * maximumTimeScale := by
    calc |v.tmod s * c| = |v.tmod s| * |c| := abs_mul _ _
      _ ≤ maximumTimeScale * maximumTimeScale :=
          mul_le_mul (abs_le.mpr (by omega)) (abs_le.mpr (by omega)) (abs_nonneg c) (by decide)
  simp only [inBounds_iff, numericMin, numericMax]
  simp only [maximumTimeScale, abs_le] at hle
  omega

variable {a b : MediaTime}

theorem compareFinite_eq (ha : a.IsKind .finite) (hb : b.IsKind .finite) :
    compareFinite a b = cmp (a.timeValue * b.timeScale) (b.timeValue * a.timeScale) := by
  have hl := int64_of_inBounds
      (inBounds_tmod_mul (v := a.timeValue) ha.timeScale_pos ha.timeScale_le
    hb.timeScale_pos.le hb.timeScale_le)
  have hr := int64_of_inBounds
      (inBounds_tmod_mul (v := b.timeValue) hb.timeScale_pos hb.timeScale_le
    ha.timeScale_pos.le ha.timeScale_le)
  unfold compareFinite
  simp only [hl, hr]
  split_ifs with hgt hlt heq hfactor
  · apply Eq.symm
    rw [cmp_eq_gt_iff]
    by_contra hle
    exact absurd (tdiv_le_tdiv_of_mul_le ha.timeScale_pos hb.timeScale_pos (not_lt.mp hle))
      (not_le.mpr hgt)
  · apply Eq.symm
    rw [cmp_eq_lt_iff]
    by_contra hle
    exact absurd (tdiv_le_tdiv_of_mul_le hb.timeScale_pos ha.timeScale_pos (not_lt.mp hle))
      (not_le.mpr hlt)
  all_goals
    -- The quotients agree, so the fractions differ as their remainders do.
    have hw : a.timeValue.tdiv a.timeScale = b.timeValue.tdiv b.timeScale := by omega
    have hva := Int.mul_tdiv_add_tmod a.timeValue a.timeScale
    have hvb := Int.mul_tdiv_add_tmod b.timeValue b.timeScale
    have hdiff : a.timeValue * b.timeScale - b.timeValue * a.timeScale =
        a.timeValue.tmod a.timeScale * b.timeScale - b.timeValue.tmod
          b.timeScale * a.timeScale := by
      rw [hw] at hva
      linear_combination b.timeScale * (-hva) + a.timeScale * hvb
    apply Eq.symm
  · rw [cmp_eq_eq_iff]
    omega
  · rw [cmp_eq_gt_iff]
    omega
  · rw [cmp_eq_lt_iff]
    omega

/-- On finite times `compare` is the order of the seconds. -/
theorem compareFinite_eq_cmp_seconds (ha : a.IsKind .finite) (hb : b.IsKind .finite) :
    compareFinite a b = cmp a.seconds b.seconds := by
  have hsa : (0 : ℚ) < a.timeScale := Int.cast_pos.mpr ha.timeScale_pos
  have hsb : (0 : ℚ) < b.timeScale := Int.cast_pos.mpr hb.timeScale_pos
  have hab : a.seconds < b.seconds ↔ a.timeValue * b.timeScale < b.timeValue * a.timeScale := by
    rw [seconds, seconds, div_lt_div_iff₀ hsa hsb]
    exact_mod_cast Iff.rfl
  have hba : b.seconds < a.seconds ↔ b.timeValue * a.timeScale < a.timeValue * b.timeScale := by
    rw [seconds, seconds, div_lt_div_iff₀ hsb hsa]
    exact_mod_cast Iff.rfl
  rw [compareFinite_eq ha hb]
  simp only [cmp, cmpUsing, hab, hba]

end MediaTime

/-- A time without a double, of one of the kinds. -/
structure PlainTime where
  time : MediaTime
  kind : MediaTime.Kind
  isKind : time.IsKind kind

namespace PlainTime

open MediaTime

/-- The place of a time in the order: the kinds in turn, the finite times by their seconds. -/
def position (t : PlainTime) : ℕ ×ₗ ℚ :=
  toLex (t.kind.rank, if t.kind = .finite then t.time.seconds else 0)

variable (a b c : PlainTime)

theorem position_lt_iff : a.position < b.position ↔ a.kind.rank < b.kind.rank ∨
    (a.kind = .finite ∧ b.kind = .finite ∧ a.time.seconds < b.time.seconds) := by
  rw [position, position, Prod.Lex.toLex_lt_toLex]
  cases a.kind <;> cases b.kind <;> simp [Kind.rank]

variable {a b} in
theorem compare_of_finite (h : a.kind = .finite ∧ b.kind = .finite) :
    a.time.compare b.time = cmp a.time.seconds b.time.seconds := by
  have ha := h.1 ▸ a.isKind
  have hb := h.2 ▸ b.isKind
  rw [← compareFinite_eq_cmp_seconds ha hb]
  simp [MediaTime.compare, isInvalid, ha.isValid, hb.isValid, ha.isPositiveInfinite,
    hb.isPositiveInfinite,
    ha.isNegativeInfinite, hb.isNegativeInfinite, ha.isIndefinite, hb.isIndefinite]

variable {a b} in
theorem compare_of_not_finite (h : ¬ (a.kind = .finite ∧ b.kind = .finite)) :
    a.time.compare b.time = cmp a.kind.rank b.kind.rank := by
  have ha := a.isKind
  have hb := b.isKind
  simp only [MediaTime.compare, isInvalid, ha.isValid, hb.isValid, ha.isPositiveInfinite,
    hb.isPositiveInfinite,
    ha.isNegativeInfinite, hb.isNegativeInfinite, ha.isIndefinite, hb.isIndefinite]
  cases hka : a.kind <;> cases hkb : b.kind <;> simp_all <;> rfl

theorem compare_eq_cmp_position : a.time.compare b.time = cmp a.position b.position := by
  by_cases hf : a.kind = .finite ∧ b.kind = .finite
  · rw [compare_of_finite hf]
    simp [cmp, cmpUsing, position_lt_iff, hf]
  · rw [compare_of_not_finite hf]
    have hba : ¬ (b.kind = .finite ∧ a.kind = .finite) := fun h => hf h.symm
    simp [cmp, cmpUsing, position_lt_iff, ← and_assoc, hf, hba]

/-- `operator<=` is the order of the positions. -/
theorem compare_isLE_iff : (a.time.compare b.time).isLE ↔ a.position ≤ b.position := by
  rw [compare_eq_cmp_position]
  cases h : cmp a.position b.position with
  | lt => simpa using ((cmp_eq_lt_iff _ _).mp h).le
  | eq => simpa using ((cmp_eq_eq_iff _ _).mp h).le
  | gt => simpa using (cmp_eq_gt_iff _ _).mp h

/-- `compare` is the order of the seconds on the finite times and that of the kinds elsewhere, so it
is a total preorder. -/
theorem compare_total_preorder :
    (a.kind = .finite ∧ b.kind = .finite →
      a.time.compare b.time = cmp a.time.seconds b.time.seconds) ∧
    (¬ (a.kind = .finite ∧ b.kind = .finite) →
      a.time.compare b.time = cmp a.kind.rank b.kind.rank) ∧
    b.time.compare a.time = (a.time.compare b.time).swap ∧
    ((a.time.compare b.time).isLE ∨ (b.time.compare a.time).isLE) ∧
    ((a.time.compare b.time).isLE → (b.time.compare a.time).isLE → a.time.compare b.time = .eq) ∧
    ((a.time.compare b.time).isLE → (b.time.compare c.time).isLE →
      (a.time.compare c.time).isLE) := by
  refine ⟨compare_of_finite, compare_of_not_finite, ?_, ?_, ?_, ?_⟩
  · rw [compare_eq_cmp_position, compare_eq_cmp_position, cmp_swap]
  · rw [compare_isLE_iff, compare_isLE_iff]
    exact le_total _ _
  · rw [compare_isLE_iff, compare_isLE_iff, compare_eq_cmp_position, cmp_eq_eq_iff]
    exact le_antisymm
  · simp only [compare_isLE_iff]
    exact le_trans

/-- Half a second, at a scale of 600. -/
def half : PlainTime := ⟨⟨300, 600, 1⟩, .finite, by constructor <;> decide⟩

/-- The indefinite time of the source. -/
def indefiniteTime : PlainTime := ⟨⟨0, 1, 17⟩, .indefinite, by constructor <;> decide⟩

/-- The greatest time that is valid. -/
def positiveInfiniteTime : PlainTime := ⟨⟨0, 1, 5⟩, .positiveInfinite, by constructor <;> decide⟩

/-- Times of three kinds. -/
theorem compare_total_preorder_half :
    half.time.compare indefiniteTime.time = .lt ∧
      indefiniteTime.time.compare positiveInfiniteTime.time = .lt ∧
        (half.time.compare positiveInfiniteTime.time).isLE := by
  obtain ⟨-, -, -, -, -, htrans⟩ := compare_total_preorder half indefiniteTime positiveInfiniteTime
  exact ⟨by decide, by decide, htrans (by decide) (by decide)⟩

end PlainTime

end QtWebKit.WTF
