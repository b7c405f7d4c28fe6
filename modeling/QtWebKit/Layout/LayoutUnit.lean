import Mathlib.Data.BitVec
import Mathlib.Data.Rat.Floor

/-!
# Layout units

A layout unit is a number of 64ths in an `int`. Integers enter by one constructor for each type;
products, quotients and the values near the bounds of `int` saturate.

## Implementation notes

`clampTo` takes a `double`. Only integers from `2 ^ 53` on are rounded by the conversion, and they
stay above every bound.
-/

namespace QtWebKit.Layout

def intMax : Int := 2147483647

def intMin : Int := -2147483648

def kFixedPointDenominator : Int := 64

def intMaxForLayoutUnit : Int := intMax.tdiv kFixedPointDenominator

def intMinForLayoutUnit : Int := intMin.tdiv kFixedPointDenominator

/-- `clampTo<int>`. -/
def clampTo (value : Int) : Int :=
  if intMax ≤ value then intMax else if value ≤ intMin then intMin else value

def saturatedAddition (a b : Int) : Int :=
  if intMin ≤ a + b ∧ a + b ≤ intMax then a + b else if a < 0 then intMin else intMax

def saturatedSubtraction (a b : Int) : Int := saturatedAddition a (-b)

/-- The integers a unit is made of, by the type of the constructor's argument. The long ones have
32 or 64 bits. -/
inductive Integer where
  | int (value : BitVec 32)
  | unsigned (value : BitVec 32)
  | unsignedLong (width : Nat) (value : BitVec width)

def Integer.value : Integer → Int
  | int v => v.toInt
  | unsigned v => v.toNat
  | unsignedLong _ v => v.toNat

structure LayoutUnit where
  value : BitVec 32
  deriving DecidableEq, Repr

namespace LayoutUnit

def rawValue (unit : LayoutUnit) : Int := unit.value.toInt

def setRawValue (value : Int) : LayoutUnit := ⟨BitVec.ofInt 32 value⟩

/-- The constructors. The product with an `unsigned long` wraps around. -/
def ofInteger : Integer → LayoutUnit
  | .int v =>
    if intMaxForLayoutUnit < v.toInt then setRawValue intMax
    else if v.toInt < intMinForLayoutUnit then setRawValue intMin
    else setRawValue (v.toInt * kFixedPointDenominator)
  | .unsigned v =>
    if intMaxForLayoutUnit ≤ v.toNat then setRawValue intMax
    else setRawValue (v.toNat * kFixedPointDenominator)
  | .unsignedLong w v => setRawValue (clampTo (v.toNat * kFixedPointDenominator % 2 ^ w))

def toInt (unit : LayoutUnit) : Int := unit.rawValue.tdiv kFixedPointDenominator

def ceil (unit : LayoutUnit) : Int :=
  if intMax - kFixedPointDenominator + 1 ≤ unit.rawValue then intMaxForLayoutUnit
  else if 0 ≤ unit.rawValue then
    (unit.rawValue + kFixedPointDenominator - 1).tdiv kFixedPointDenominator
  else unit.toInt

def round (unit : LayoutUnit) : Int :=
  if 0 < unit.rawValue then
    (saturatedAddition unit.rawValue (kFixedPointDenominator.tdiv 2)).tdiv kFixedPointDenominator
  else
    (saturatedSubtraction unit.rawValue (kFixedPointDenominator.tdiv 2 - 1)).tdiv
      kFixedPointDenominator

def floor (unit : LayoutUnit) : Int :=
  if unit.rawValue ≤ intMin + kFixedPointDenominator - 1 then intMinForLayoutUnit
  else if 0 ≤ unit.rawValue then unit.toInt
  else (unit.rawValue - kFixedPointDenominator + 1).tdiv kFixedPointDenominator

/-- The product of two `int`s fits in 64 bits. Its high word tells whether it overflows. -/
def boundedMultiply (a b : LayoutUnit) : LayoutUnit :=
  let result := (a.rawValue * b.rawValue).tdiv kFixedPointDenominator
  let high := BitVec.ofInt 32 (result / 2 ^ 32)
  let low := BitVec.ofInt 32 result
  let saturated := (a.value ^^^ b.value) >>> 31 + BitVec.ofInt 32 intMax
  if high ≠ low.sshiftRight 31 then ⟨saturated⟩ else ⟨low⟩

def divide (a b : LayoutUnit) : LayoutUnit :=
  setRawValue (clampTo ((kFixedPointDenominator * a.rawValue).tdiv b.rawValue))

/-! ### Exact arithmetic -/

/-- The number a unit stands for. -/
def toRat (unit : LayoutUnit) : ℚ := unit.rawValue / 64

/-- A number of 64ths, saturated. -/
def saturate (raw : Int) : Int := max intMin (min raw intMax)

/-- The operations are exact up to saturation on two integers and two units. -/
structure Exact (x y : Integer) (a b : LayoutUnit) : Prop where
  left : (ofInteger x).rawValue = saturate (64 * x.value)
  right : (ofInteger y).rawValue = saturate (64 * y.value)
  agree : x.value = y.value → ofInteger x = ofInteger y
  multiply : (boundedMultiply a b).rawValue = saturate ((a.rawValue * b.rawValue).tdiv 64)
  divide : b.rawValue ≠ 0 →
    (a.divide b).rawValue = saturate ((64 * a.rawValue).tdiv b.rawValue)
  floor : a.floor = ⌊a.toRat⌋
  ceil : a.rawValue + 63 ≤ intMax → a.ceil = ⌈a.toRat⌉
  round : intMin ≤ a.rawValue - 31 → a.rawValue + 32 ≤ intMax → a.round = ⌊a.toRat + 1 / 2⌋

theorem saturatedAddition_eq {a b : Int} (h : intMin ≤ a + b) (h' : a + b ≤ intMax) :
    saturatedAddition a b = a + b :=
  if_pos ⟨h, h'⟩

theorem rawValue_setRawValue {n : Int} (h : intMin ≤ n) (h' : n ≤ intMax) :
    (setRawValue n).rawValue = n := by
  rw [rawValue, setRawValue, BitVec.toInt_ofInt]
  simp only [intMin, intMax] at h h'
  exact Int.bmod_eq_of_le (by omega) (by omega)

theorem rawValue_clampTo (n : Int) : (setRawValue (clampTo n)).rawValue = saturate n := by
  rw [rawValue_setRawValue] <;> simp only [saturate, clampTo, intMin, intMax] <;>
    split_ifs <;> omega

theorem rawValue_bounds (a : LayoutUnit) : intMin ≤ a.rawValue ∧ a.rawValue ≤ intMax := by
  have hl := a.value.le_toInt
  have hu := a.value.toInt_lt
  simp only [intMin, intMax, rawValue]
  omega

end LayoutUnit

/-- The integers whose unit is exact. -/
def Integer.Fits : Integer → Prop
  | int _ => True
  | unsigned v => v.toNat ≠ intMaxForLayoutUnit
  | unsignedLong w v => v.toNat * 64 < 2 ^ w ∨ intMax ≤ v.toNat * 64 % 2 ^ w

namespace LayoutUnit

theorem rawValue_ofInteger_iff (x : Integer) :
    (ofInteger x).rawValue = saturate (64 * x.value) ↔ x.Fits := by
  cases x with
  | int v =>
    have hb := rawValue_bounds ⟨v⟩
    simp only [rawValue, intMin, intMax] at hb
    refine iff_of_true ?_ trivial
    rw [ofInteger, show intMaxForLayoutUnit = 33554431 from rfl,
      show intMinForLayoutUnit = -33554432 from rfl]
    split_ifs <;> rw [rawValue_setRawValue] <;>
      simp only [Integer.value, saturate, kFixedPointDenominator, intMin, intMax] <;> omega
  | unsigned v =>
    rw [ofInteger, Integer.Fits, show intMaxForLayoutUnit = 33554431 from rfl]
    split_ifs <;> rw [rawValue_setRawValue] <;>
      simp only [Integer.value, saturate, kFixedPointDenominator, intMin, intMax] <;> omega
  | unsignedLong w v =>
    rw [ofInteger, rawValue_clampTo, Integer.Fits, Integer.value, kFixedPointDenominator]
    have hlt : (v.toNat * 64 : Int) % 2 ^ w < 2 ^ w := Int.emod_lt_of_pos _ (by positivity)
    have hmod : (v.toNat * 64 : Int) < 2 ^ w → (v.toNat * 64 : Int) % 2 ^ w = v.toNat * 64 :=
      Int.emod_eq_of_lt (by omega)
    have hnn : 0 ≤ (v.toNat * 64 : Int) % 2 ^ w := Int.emod_nonneg _ (by positivity)
    zify
    simp only [saturate, intMin, intMax]
    omega

theorem tdiv_denominator (n : Int) : n.tdiv 64 = if 0 ≤ n then n / 64 else -(-n / 64) := by
  split_ifs with h
  · exact Int.tdiv_eq_ediv_of_nonneg h
  · rw [← Int.tdiv_eq_ediv_of_nonneg (by omega), Int.neg_tdiv, neg_neg]

theorem floor_eq (a : LayoutUnit) : a.floor = ⌊a.toRat⌋ := by
  have hf := Rat.floor_intCast_div_natCast a.rawValue 64
  have hb := a.rawValue_bounds
  rw [floor, toRat, toInt, show intMinForLayoutUnit = -33554432 from rfl]
  push_cast at hf
  rw [hf]
  simp only [intMin, intMax, kFixedPointDenominator, tdiv_denominator] at *
  split_ifs <;> omega

theorem ceil_eq (a : LayoutUnit) (h : a.rawValue + 63 ≤ intMax) : a.ceil = ⌈a.toRat⌉ := by
  have hc := Rat.ceil_intCast_div_natCast a.rawValue 64
  rw [ceil, toRat, toInt, show intMaxForLayoutUnit = 33554431 from rfl]
  push_cast at hc
  rw [hc]
  simp only [intMax, kFixedPointDenominator, tdiv_denominator] at *
  split_ifs <;> omega

theorem round_eq (a : LayoutUnit) (h : intMin ≤ a.rawValue - 31) (h' : a.rawValue + 32 ≤ intMax) :
    a.round = ⌊a.toRat + 1 / 2⌋ := by
  have hf := Rat.floor_intCast_div_natCast (a.rawValue + 32) 64
  have hhalf : a.toRat + 1 / 2 = ((a.rawValue + 32 : Int) : ℚ) / (64 : Nat) := by
    rw [toRat]
    push_cast
    ring
  rw [hhalf, hf, round, show kFixedPointDenominator.tdiv 2 = 32 from rfl, saturatedSubtraction]
  simp only [intMin, intMax, kFixedPointDenominator] at *
  split_ifs
  all_goals
    rw [saturatedAddition_eq (by simp only [intMin]; omega) (by simp only [intMax]; omega),
      tdiv_denominator]
    split_ifs <;> omega

theorem rawValue_divide (a b : LayoutUnit) :
    (a.divide b).rawValue = saturate ((64 * a.rawValue).tdiv b.rawValue) := by
  rw [divide, rawValue_clampTo]
  rfl

theorem abs_mul_le (a b : LayoutUnit) : |a.rawValue * b.rawValue| ≤ 2 ^ 62 := by
  have ha := a.rawValue_bounds
  have hb := b.rawValue_bounds
  simp only [intMin, intMax] at ha hb
  have h : |a.rawValue| ≤ 2 ^ 31 := abs_le.mpr (by omega)
  have h' : |b.rawValue| ≤ 2 ^ 31 := abs_le.mpr (by omega)
  calc |a.rawValue * b.rawValue| = |a.rawValue| * |b.rawValue| := abs_mul _ _
    _ ≤ 2 ^ 31 * 2 ^ 31 := by gcongr
    _ = 2 ^ 62 := by norm_num

/-- The high word is the sign of the low word just for the values of an `int`. -/
theorem high_eq_iff {r : Int} (hr : |r| ≤ 2 ^ 62) :
    BitVec.ofInt 32 (r / 2 ^ 32) = (BitVec.ofInt 32 r).sshiftRight 31 ↔
      intMin ≤ r ∧ r ≤ intMax := by
  rw [abs_le] at hr
  rw [← BitVec.toInt_inj, BitVec.toInt_sshiftRight, BitVec.toInt_ofInt, BitVec.toInt_ofInt,
    Int.shiftRight_eq_div_pow, Int.bmod_eq_of_le (by omega) (by omega), Int.bmod_def]
  simp only [intMin, intMax]
  split_ifs <;> omega

theorem ushiftRight_eq_msb (x : BitVec 32) : x >>> 31 = if x.msb then 1 else 0 := by
  rw [← BitVec.toNat_inj, BitVec.toNat_ushiftRight, Nat.shiftRight_eq_div_pow,
    BitVec.msb_eq_decide]
  have hlt := x.isLt
  split_ifs with h <;> simp only [decide_eq_true_eq] at h <;> simp <;> omega

theorem toInt_saturated (x y : BitVec 32) :
    ((x ^^^ y) >>> 31 + BitVec.ofInt 32 intMax).toInt =
      if (x.toInt < 0) = (y.toInt < 0) then intMax else intMin := by
  rw [ushiftRight_eq_msb, BitVec.msb_xor, BitVec.msb_eq_toInt, BitVec.msb_eq_toInt]
  by_cases hx : x.toInt < 0 <;> by_cases hy : y.toInt < 0 <;> simp [hx, hy] <;> decide

theorem rawValue_boundedMultiply (a b : LayoutUnit) :
    (boundedMultiply a b).rawValue = saturate ((a.rawValue * b.rawValue).tdiv 64) := by
  have hp := abs_le.mp (abs_mul_le a b)
  have hd := tdiv_denominator (a.rawValue * b.rawValue)
  have hr : |(a.rawValue * b.rawValue).tdiv 64| ≤ 2 ^ 62 := by
    rw [hd, abs_le]
    split_ifs <;> omega
  rw [boundedMultiply, kFixedPointDenominator]
  simp only [ne_eq, high_eq_iff hr]
  by_cases hin : intMin ≤ (a.rawValue * b.rawValue).tdiv 64 ∧
      (a.rawValue * b.rawValue).tdiv 64 ≤ intMax
  · rw [if_neg (not_not.mpr hin)]
    refine (rawValue_setRawValue hin.1 hin.2).trans ?_
    rw [saturate]
    omega
  · rw [if_pos hin]
    refine (toInt_saturated _ _).trans ?_
    change (if (a.rawValue < 0) = (b.rawValue < 0) then intMax else intMin) = _
    simp only [saturate, hd, intMin, intMax, eq_iff_iff] at hin ⊢
    -- the signs of the factors give the sign of the product
    by_cases hs : a.rawValue < 0 ↔ b.rawValue < 0
    · have hpos : 0 ≤ a.rawValue * b.rawValue := mul_nonneg_iff.mpr (by omega)
      rw [if_pos hpos] at hin ⊢
      rw [if_pos hs]
      omega
    · have hneg : a.rawValue * b.rawValue ≤ 0 := mul_nonpos_iff.mpr (by omega)
      rw [if_neg hs]
      split_ifs at hin ⊢ <;> omega

/-- An unsigned constructor is not exact at the largest whole unit, nor are the long ones when
the product wraps around below `INT_MAX`; everything else is exact up to saturation. -/
theorem exact_iff (x y : Integer) (a b : LayoutUnit) : Exact x y a b ↔ x.Fits ∧ y.Fits := by
  constructor
  · intro h
    exact ⟨(rawValue_ofInteger_iff x).mp h.left, (rawValue_ofInteger_iff y).mp h.right⟩
  · rintro ⟨hx, hy⟩
    have hl := (rawValue_ofInteger_iff x).mpr hx
    have hr := (rawValue_ofInteger_iff y).mpr hy
    refine ⟨hl, hr, fun h => ?_, rawValue_boundedMultiply a b, fun _ => rawValue_divide a b,
      floor_eq a, ceil_eq a, round_eq a⟩
    rw [h, ← hr] at hl
    exact congrArg mk (BitVec.toInt_inj.mp hl)

theorem not_exact_unsigned : ¬ Exact (.unsigned 33554431) (.int 33554431) ⟨0⟩ ⟨64⟩ :=
  fun h => absurd h.left (by decide)

end LayoutUnit

end QtWebKit.Layout
