import Mathlib.Algebra.Order.Ring.Abs
import QtWebKit.B3.Value
import QtWebKit.Lib.MagicDivision

/-!
# Division by a constant

A division of 32-bit integers by a constant becomes a multiplication by a magic number, of
which the high word is shifted. The magic number is the least good approximation of the
reciprocal of the divisor.

## Implementation notes

The code counts on negation of the least integer to give the least integer.
-/

namespace QtWebKit.B3

open MagicDivision BitVec Nat

structure DivisionMagic (w : Nat) where
  magicMultiplier : BitVec w
  shift : Nat
  deriving DecidableEq, Repr

variable {w : Nat}

/-- The quotient and remainder of the next power of two. -/
def nextPower (divisor q r : BitVec w) : BitVec w × BitVec w :=
  let q := q <<< 1
  let r := r <<< 1
  if divisor ≤ r then (q + 1, r - divisor) else (q, r)

/-- The loop of `computeDivisionMagic`, which gives the power and its quotient. -/
def magicLoop (ad anc : BitVec w) : Nat → Nat → BitVec w × BitVec w → BitVec w × BitVec w →
    Option (Nat × BitVec w)
  | 0, _, _, _ => none
  | fuel + 1, p, qr1, qr2 =>
    let p := p + 1
    let qr1 := nextPower anc qr1.1 qr1.2
    let qr2 := nextPower ad qr2.1 qr2.2
    let delta := ad - qr2.2
    if qr1.1 < delta ∨ (qr1.1 = delta ∧ qr1.2 = 0) then magicLoop ad anc fuel p qr1 qr2
    else some (p, qr2.1)

def computeDivisionMagic (fuel : Nat) (divisor : BitVec w) : Option (DivisionMagic w) :=
  let signedMin := BitVec.intMin w
  let ad := if divisor.slt 0 then -divisor else divisor
  let t := signedMin + (divisor >>> (w - 1))
  let anc := t - 1 - t % ad
  let q1 := signedMin / anc
  let r1 := signedMin - q1 * anc
  let q2 := signedMin / ad
  let r2 := signedMin - q2 * ad
  (magicLoop ad anc fuel (w - 1) (q1, r1) (q2, r2)).map fun result =>
    let magicMultiplier := result.2 + 1
    ⟨if divisor.slt 0 then -magicMultiplier else magicMultiplier, result.1 - w⟩

/-- The high word of a product, computed with a multiplication of 64 bits. -/
def multiplyHigh (value : Value .int32) (magicMultiplier : BitVec 32) : Value .int32 :=
  .trunc (.shift .zShr
    (.binary .mul (.sExt32 value) (.const (t := .int64) (magicMultiplier.signExtend 64)))
    (.const (t := .int32) 32))

/-- The high word, corrected where the multiplier does not fit 32 bits. -/
def correctHigh (value : Value .int32) (divisor magicMultiplier : BitVec 32) : Value .int32 :=
  let magicQuotient := multiplyHigh value magicMultiplier
  let magicQuotient :=
    if (0#32).slt divisor ∧ magicMultiplier.slt 0 then .binary .add magicQuotient value
      else magicQuotient
  if divisor.slt 0 ∧ (0#32).slt magicMultiplier then .binary .sub magicQuotient value
    else magicQuotient

/-- The values that replace a division by a constant. -/
def divideByMagic (value : Value .int32) (divisor : BitVec 32) (magic : DivisionMagic 32) :
    Value .int32 :=
  let magicQuotient := correctHigh value divisor magic.magicMultiplier
  let magicQuotient :=
    if 0 < magic.shift then .shift .sShr magicQuotient
      (.const (t := .int32) (BitVec.ofNat 32 magic.shift))
    else magicQuotient
  .binary .add magicQuotient (.shift .zShr magicQuotient (.const (t := .int32) 31))

/-! ### The loop -/

/-- Quotient and remainder of a power of two. -/
def Quotient (divisor : Nat) (p : Nat) (qr : BitVec w × BitVec w) : Prop :=
  qr.1.toNat = 2 ^ p / divisor ∧ qr.2.toNat = 2 ^ p % divisor

theorem double_div_mod {n x} (hn : 0 < n) :
    2 * x / n = (if n ≤ 2 * (x % n) then 2 * (x / n) + 1 else 2 * (x / n)) ∧
      2 * x % n = (if n ≤ 2 * (x % n) then 2 * (x % n) - n else 2 * (x % n)) := by
  have hmd := Nat.mod_lt x hn
  have hdm := Nat.div_add_mod x n
  split_ifs with hle
  · apply (Nat.div_mod_unique hn).mpr
    refine ⟨?_, by omega⟩
    rw [Nat.mul_add, Nat.mul_one, Nat.mul_left_comm]
    omega
  · apply (Nat.div_mod_unique hn).mpr
    refine ⟨?_, by omega⟩
    rw [Nat.mul_left_comm]
    omega

/-- The next power, as long as its quotient has 32 bits. -/
theorem quotient_nextPower {den : BitVec 32} {p} {qr : BitVec 32 × BitVec 32}
    (hps : 0 < den.toNat) (hle : den.toNat ≤ 2 ^ 31) (hlt : 2 ^ p < 2 ^ 31 * den.toNat)
    (h : Quotient den.toNat p qr) : Quotient den.toNat (p + 1) (nextPower den qr.1 qr.2) := by
  obtain ⟨hq, hr⟩ := h
  have hqlt := hq ▸ Nat.div_lt_of_lt_mul (Nat.mul_comm _ _ ▸ hlt)
  have hrlt := hr ▸ Nat.mod_lt _ hps
  have hq2 : (qr.1 <<< 1).toNat = 2 * qr.1.toNat := by
    rw [toNat_shiftLeft, Nat.shiftLeft_eq]
    omega
  have hr2 : (qr.2 <<< 1).toNat = 2 * qr.2.toNat := by
    rw [toNat_shiftLeft, Nat.shiftLeft_eq]
    omega
  have hcy : den ≤ qr.2 <<< 1 ↔ den.toNat ≤ 2 * qr.2.toNat := by rw [le_def, hr2]
  obtain ⟨hdv, hmd⟩ := double_div_mod (x := 2 ^ p) hps
  rw [Quotient, Nat.pow_succ', hdv, hmd, nextPower, ← hq, ← hr]
  by_cases hle2 : den.toNat ≤ 2 * qr.2.toNat
  · simp only [if_pos hle2, if_pos (hcy.mpr hle2)]
    constructor
    · rw [toNat_add, hq2]
      simp
      omega
    · rw [toNat_sub_of_le (hcy.mpr hle2), hr2]
  · simp only [if_neg hle2, if_neg (mt hcy.mp hle2)]
    exact ⟨hq2, hr2⟩

/-- What is known of the divisor and the critical number. -/
structure Parameters (A N : Nat) : Prop where
  divisor_ge : 2 ≤ A
  divisor_le : A ≤ 2 ^ 31
  critical_ge : 2 ^ 30 ≤ N
  critical_le : N ≤ 2 ^ 31
  excess_lt : ∀ p, 2 * (N * (A - 2 ^ p % A)) < (2 ^ 32 - 1) * A
  critical_gt : A = 2 ^ 31 → 2 ^ 30 < N

/-- The power is so small that the next quotients have 32 bits. -/
structure Small (A N p : Nat) : Prop where
  divisor_lt : 2 ^ (p + 1) < (2 ^ 32 - 1) * A
  critical_lt : 2 ^ p < 2 ^ 31 * N

/-- Comparing quotients compares powers. -/
theorem quotient_le_iff {n x d} (hn : 0 < n) : x / n < d ∨ (x / n = d ∧ x % n = 0) ↔ x ≤ n * d := by
  have hmd := Nat.mod_lt x hn
  have hdm := Nat.div_add_mod x n
  constructor
  · rintro (hlt | ⟨rfl, hz⟩)
    · have hml : n * (x / n + 1) ≤ n * d := Nat.mul_le_mul_left n hlt
      rw [Nat.mul_add, Nat.mul_one] at hml
      omega
    · omega
  · intro hle
    rcases Nat.lt_or_ge (x / n) d with hlt | hge
    · exact .inl hlt
    · have hml := Nat.mul_le_mul_left n hge
      have heq : n * d = n * (x / n) := by omega
      exact .inr ⟨(Nat.eq_of_mul_eq_mul_left hn heq).symm, by omega⟩

/-- The condition of the loop. -/
theorem continues_iff {ad anc : BitVec 32} {p} {qr1 qr2 : BitVec 32 × BitVec 32}
    (ha : 0 < anc.toNat) (had : 0 < ad.toNat) (h1 : Quotient anc.toNat p qr1)
    (h2 : Quotient ad.toNat p qr2) :
    (qr1.1 < ad - qr2.2 ∨ (qr1.1 = ad - qr2.2 ∧ qr1.2 = 0)) ↔
      2 ^ p ≤ anc.toNat * (ad.toNat - 2 ^ p % ad.toNat) := by
  have hmd := mod_lt (2 ^ p) had
  have hdl : (ad - qr2.2).toNat = ad.toNat - 2 ^ p % ad.toNat := by
    rw [toNat_sub_of_le (by rw [le_def, h2.2]; omega), h2.2]
  rw [← quotient_le_iff ha, ← h1.1, ← h1.2, ← hdl, lt_def, ← toNat_inj, ← toNat_inj]
  rfl

/-- A power that does not end the loop is small. -/
theorem Parameters.small {A N p} (h : Parameters A N) (hle : 2 ^ p ≤ N * (A - 2 ^ p % A)) :
    Small A N p ∧ p ≤ 61 := by
  have hex := h.excess_lt p
  have hd := h.divisor_le
  have hp : p < 62 := by
    have hpw : 2 ^ p < 2 ^ 62 := by omega
    exact (Nat.pow_lt_pow_iff_right (by omega)).mp hpw
  refine ⟨⟨?_, ?_⟩, Nat.le_of_lt_succ hp⟩
  · rw [Nat.pow_succ']
    omega
  · rcases Nat.lt_or_eq_of_le h.divisor_le with hlt | heq
    · have hc := h.critical_ge
      calc
        2 ^ p ≤ N * (A - 2 ^ p % A) := hle
        _ ≤ N * A := Nat.mul_le_mul_left N (Nat.sub_le _ _)
        _ < N * 2 ^ 31 := Nat.mul_lt_mul_of_pos_left hlt (by omega)
        _ = 2 ^ 31 * N := Nat.mul_comm _ _
    · have hc := h.critical_gt heq
      have hpw : 2 ^ p ≤ 2 ^ 61 := Nat.pow_le_pow_right (Nat.zero_lt_succ 1) (Nat.le_of_lt_succ hp)
      omega

/-- The loop stops at a power that is good for the divisor. -/
theorem magicLoop_spec {ad anc : BitVec 32} (hpr : Parameters ad.toNat anc.toNat) {fuel p}
    {qr1 qr2} (h1 : Quotient anc.toNat p qr1) (h2 : Quotient ad.toNat p qr2)
    (hs : Small ad.toNat anc.toNat p) (hp : p ≤ 61) (hf : 62 ≤ fuel + p) :
    ∃ p' q2, magicLoop ad anc fuel p qr1 qr2 = some (p', q2) ∧ p < p' ∧ p' ≤ 62 ∧
      q2.toNat = 2 ^ p' / ad.toNat ∧ 2 ^ p' < (2 ^ 32 - 1) * ad.toNat ∧
      anc.toNat * (ad.toNat - 2 ^ p' % ad.toNat) < 2 ^ p' := by
  induction fuel generalizing p qr1 qr2 with
  | zero => omega
  | succ fuel ih =>
    have had : 0 < ad.toNat := Nat.lt_of_lt_of_le (Nat.zero_lt_succ 1) hpr.divisor_ge
    have ha : 0 < anc.toNat := Nat.lt_of_lt_of_le (Nat.two_pow_pos 30) hpr.critical_ge
    have hlt : 2 ^ p < 2 ^ 31 * ad.toNat := by
      have hd := hs.divisor_lt
      rw [Nat.pow_succ'] at hd
      omega
    have h1' := quotient_nextPower ha hpr.critical_le hs.critical_lt h1
    have h2' := quotient_nextPower had hpr.divisor_le hlt h2
    have hcn := continues_iff ha had h1' h2'
    rw [magicLoop]
    split_ifs with hcd
    · obtain ⟨hs', hp'⟩ := hpr.small (hcn.mp hcd)
      obtain ⟨p', q2, hl, hlt, hrs⟩ := ih h1' h2' hs' hp' (by omega)
      exact ⟨p', q2, hl, by omega, hrs⟩
    · refine ⟨p + 1, _, rfl, Nat.lt_succ_self p, by omega, h2'.1, hs.divisor_lt, ?_⟩
      exact Nat.lt_of_not_le (mt hcn.mpr hcd)

/-! ### The magic number -/

theorem slt_zero_iff {den : BitVec 32} : den.slt 0 ↔ den.toInt < 0 := slt_iff_toInt_lt

theorem zero_slt_iff {den : BitVec 32} : (0#32).slt den ↔ 0 < den.toInt := slt_iff_toInt_lt

theorem toNat_ad (den : BitVec 32) :
    (if den.slt 0 then -den else den).toNat = den.toInt.natAbs := by
  have hlt := den.isLt
  have htn := toInt_eq_toNat_cond den
  split_ifs with hng
  · rw [slt_zero_iff] at hng
    rw [toNat_neg]
    omega
  · rw [slt_zero_iff] at hng
    omega

theorem toNat_t (den : BitVec 32) :
    (intMin 32 + (den >>> (32 - 1))).toNat = if den.toInt < 0 then 2 ^ 31 + 1 else 2 ^ 31 := by
  have hlt := den.isLt
  have htn := toInt_eq_toNat_cond den
  rw [toNat_add, toNat_intMin, toNat_ushiftRight, shiftRight_eq_div_pow]
  split_ifs <;> omega

/-- The bounds hold for the divisors that are not a unit. -/
theorem parameters {t A} (ht : t = 2 ^ 31 ∨ t = 2 ^ 31 + 1) (hge : 2 ≤ A) (hle : A ≤ 2 ^ 31) :
    Parameters A (critical t A) := by
  have hmd := Nat.mod_lt t (Nat.lt_of_lt_of_le (Nat.zero_lt_succ 1) hge)
  have hlr : 2 ^ 30 < A → t % A = t - A := fun hA => by
    rw [Nat.mod_eq_sub_mod (by omega), Nat.mod_eq_of_lt (by omega)]
  refine ⟨hge, hle, ?_, ?_, ?_, ?_⟩
  · rw [critical]
    rcases Nat.lt_or_ge (2 ^ 30) A with hA | hA
    · rw [hlr hA]
      omega
    · omega
  · rw [critical]
    omega
  · intro p
    have hex : A - 2 ^ p % A ≤ A := Nat.sub_le _ _
    rcases Nat.lt_or_ge (critical t A) (2 ^ 31) with hlt | hc
    · have hml := Nat.mul_le_mul (Nat.le_sub_one_of_lt hlt) hex
      omega
    · -- the divisor divides an odd number, so it divides no power of two
      rw [critical] at hc
      have hdd : A ∣ 2 ^ 31 + 1 := by
        apply Nat.dvd_of_mod_eq_zero
        have ht : t = 2 ^ 31 + 1 := by omega
        subst ht
        omega
      have hpower : 2 ^ p % A ≠ 0 := by
        intro hz
        have hcp : Nat.Coprime (2 ^ 31 + 1) (2 ^ p) := Nat.Coprime.pow_right p (by decide)
        have ho : A ∣ 1 := hcp ▸ Nat.dvd_gcd hdd (Nat.dvd_of_mod_eq_zero hz)
        have := Nat.le_of_dvd Nat.one_pos ho
        omega
      have hml : critical t A * (A - 2 ^ p % A) ≤ 2 ^ 31 * (A - 1) := by
        apply Nat.mul_le_mul
        · rw [critical]
          omega
        · omega
      omega
  · intro hA
    rw [critical, hlr (by omega)]
    omega

/-- A dividend of the limit's magnitude is divided well. -/
theorem limit_mul_excess_le {A p} (hps : 0 < A) (hp : 31 ≤ p) (hmd : 2 ^ 31 % A = A - 1) :
    2 ^ 31 * (A - 2 ^ p % A) ≤ 2 ^ p := by
  obtain ⟨k, rfl⟩ := Nat.exists_eq_add_of_le hp
  rw [Nat.pow_add]
  apply Nat.mul_le_mul_left
  apply Nat.le_of_not_lt
  intro hlt
  -- the divisor divides the sum of the power and `2 ^ k`
  have hdd : A ∣ 2 ^ 31 * 2 ^ k + 2 ^ k := by
    have hsc : A ∣ 2 ^ 31 + 1 := by
      apply Nat.dvd_of_mod_eq_zero
      rw [Nat.add_mod, hmd, Nat.add_mod_mod, Nat.sub_add_cancel hps, Nat.mod_self]
    have := Nat.dvd_mul_right_of_dvd hsc (2 ^ k)
    rwa [Nat.add_mul, Nat.one_mul] at this
  have hpw := Nat.two_pow_pos k
  have hz := Nat.mod_eq_zero_of_dvd hdd
  rw [← Nat.mod_add_mod, Nat.mod_eq_of_lt (by omega)] at hz
  omega

/-! ### The bits of the quotient -/

/-- The high word of a product of 32-bit integers. -/
def highWord (value multiplier : BitVec 32) : BitVec 32 :=
  ((value.signExtend 64 * multiplier.signExtend 64) >>> 32).setWidth 32

theorem abs_mul_le {x y a b : Int} (hx : |x| ≤ a) (hy : |y| ≤ b) : |x * y| ≤ a * b := by
  rw [abs_mul]
  exact mul_le_mul hx hy (abs_nonneg y) ((abs_nonneg x).trans hx)

theorem abs_toInt_le (x : BitVec 32) : |x.toInt| ≤ 2 ^ 31 :=
  abs_le.mpr ⟨x.le_toInt, (toInt_lt (x := x)).le⟩

theorem toInt_highWord (val mult : BitVec 32) :
    (highWord val mult).toInt = val.toInt * mult.toInt / 2 ^ 32 := by
  obtain ⟨hge, hle⟩ := abs_le.mp (abs_mul_le (abs_toInt_le val) (abs_toInt_le mult))
  have hpd : (val.signExtend 64 * mult.signExtend 64).toInt = val.toInt * mult.toInt := by
    rw [toInt_mul, toInt_signExtend_of_le (by omega), toInt_signExtend_of_le (by omega)]
    apply Int.bmod_eq_of_le <;> omega
  have hh : (highWord val mult).toNat =
      (val.signExtend 64 * mult.signExtend 64).toNat / 2 ^ 32 := by
    rw [highWord, toNat_setWidth, toNat_ushiftRight, shiftRight_eq_div_pow]
    omega
  have htn := toInt_eq_toNat_cond (val.signExtend 64 * mult.signExtend 64)
  have htoIntHigh := toInt_eq_toNat_cond (highWord val mult)
  rw [hpd] at htn
  omega

/-- The high word of the product with a multiplier of 33 bits. -/
def correctedQuotient (value divisor multiplier : BitVec 32) : BitVec 32 :=
  let high := highWord value multiplier
  let high := if (0#32).slt divisor ∧ multiplier.slt 0 then high + value else high
  if divisor.slt 0 ∧ (0#32).slt multiplier then high - value else high

theorem toInt_correctedQuotient (val : BitVec 32) {den mult : BitVec 32} {signed : Int}
    (hnonzero : den.toInt ≠ 0) (hsg : |signed| ≤ 2 ^ 32 - 1)
    (hps : 0 < den.toInt → 0 < signed) (hng : den.toInt < 0 → signed < 0)
    (hmt : mult.toInt = signed.bmod (2 ^ 32)) :
    (correctedQuotient val den mult).toInt = val.toInt * signed / 2 ^ 32 := by
  obtain ⟨hge, hle⟩ := abs_le.mp (abs_mul_le (abs_toInt_le val) hsg)
  obtain ⟨hsignedGe, hsignedLe⟩ := abs_le.mp hsg
  have hh := toInt_highWord val mult
  rw [Int.bmod_def] at hmt
  rw [correctedQuotient]
  simp only [slt_zero_iff, zero_slt_iff]
  split_ifs with h1 h2 h2
  · omega
  · rw [toInt_sub, hh, show mult.toInt = signed + 2 ^ 32 by omega, Int.mul_add,
      Int.add_mul_ediv_right _ _ (by decide), Int.add_sub_cancel]
    apply Int.bmod_eq_of_le <;> omega
  · rw [toInt_add, hh, show mult.toInt = signed - 2 ^ 32 by omega, Int.mul_sub,
      Int.sub_mul_ediv_right _ _ (by decide), Int.sub_add_cancel]
    apply Int.bmod_eq_of_le <;> omega
  · rw [hh, show mult.toInt = signed by omega]

/-- The quotient is rounded down, then negative quotients are increased. -/
theorem toInt_add_signBit (quotient : BitVec 32) :
    (quotient + (quotient >>> 31)).toInt = if quotient.toInt < 0 then quotient.toInt + 1
      else quotient.toInt := by
  have hlt := quotient.isLt
  have htn := toInt_eq_toNat_cond quotient
  have hsm := toInt_eq_toNat_cond (quotient + (quotient >>> 31))
  rw [toNat_add, toNat_ushiftRight, shiftRight_eq_div_pow] at hsm
  rw [hsm]
  split_ifs <;> omega

theorem eval_correctHigh (valuation : Valuation) (val : Value .int32)
    (den magicMultiplier : BitVec 32) :
    (correctHigh val den magicMultiplier).eval valuation =
      correctedQuotient (val.eval valuation) den magicMultiplier := by
  unfold correctHigh correctedQuotient
  split_ifs <;> rfl

/-- The value of the replacement of a division. -/
theorem eval_divideByMagic (valuation : Valuation) (val : Value .int32) (den : BitVec 32)
    {magic : DivisionMagic 32} {quotient} (hsh : magic.shift < 32)
    (hqt : (correctedQuotient (val.eval valuation) den magic.magicMultiplier).sshiftRight
      magic.shift =
      quotient) : (divideByMagic val den magic).eval valuation = quotient + (quotient >>> 31) := by
  have hsf : (BitVec.ofNat 32 magic.shift).toNat % 32 = magic.shift := by
    rw [BitVec.toNat_ofNat]
    omega
  unfold divideByMagic
  split_ifs with hps
  · rw [← hqt, ← eval_correctHigh]
    exact congrArg (fun n => BitVec.sshiftRight _ n + (BitVec.sshiftRight _ n >>> 31)) hsf
  · rw [Nat.eq_zero_of_not_pos hps, BitVec.sshiftRight_zero] at hqt
    rw [← hqt, ← eval_correctHigh]
    rfl

theorem magicLoop_mono {ad anc fuel more p} {qr1 qr2 : BitVec w × BitVec w}
    {res : Nat × BitVec w} (hle : fuel ≤ more) (h : magicLoop ad anc fuel p qr1 qr2 = some res) :
    magicLoop ad anc more p qr1 qr2 = some res := by
  induction fuel generalizing more p qr1 qr2 with
  | zero => cases h
  | succ fuel ih =>
    obtain ⟨more, rfl⟩ : ∃ n, more = n + 1 := ⟨more - 1, by omega⟩
    rw [magicLoop] at h ⊢
    split_ifs at h ⊢ with hcd
    · exact ih (by omega) h
    · exact h

/-- The quotients before the loop. -/
theorem quotient_signedMin (den : BitVec 32) :
    Quotient den.toNat 31
      (intMin 32 / den, intMin 32 - intMin 32 / den * den) := by
  have hmn : (intMin 32).toNat = 2 ^ 31 := by rw [toNat_intMin]; rfl
  have hdv : (intMin 32 / den).toNat = 2 ^ 31 / den.toNat := by
    rw [toNat_udiv, hmn]
  have hle : 2 ^ 31 / den.toNat * den.toNat ≤ 2 ^ 31 := div_mul_le_self _ _
  have hml : (intMin 32 / den * den).toNat = 2 ^ 31 / den.toNat * den.toNat := by
    rw [toNat_mul, hdv]
    exact mod_eq_of_lt (by omega)
  refine ⟨hdv, ?_⟩
  dsimp only
  rw [toNat_sub_of_le (by rw [le_def, hml, hmn]; exact hle), hml, hmn, mod_eq_sub_div_mul]

/-- The critical number has 32 bits. -/
theorem toNat_anc {t ad : BitVec 32} (hps : 0 < ad.toNat) (hle : ad.toNat ≤ t.toNat) :
    (t - 1 - t % ad).toNat = critical t.toNat ad.toNat := by
  have hmd := mod_lt t.toNat hps
  have ho : (t - 1).toNat = t.toNat - 1 := toNat_sub_of_le (by rw [le_def]; exact hps.trans_le hle)
  rw [toNat_sub_of_le, ho, toNat_umod]
  · rfl
  · rw [le_def, ho, toNat_umod]
    omega

theorem toInt_signed (den mult : BitVec 32) (hd : den.toInt ≠ 0) :
    (if den.slt 0 then -mult else mult).toInt =
      (den.toInt.sign * mult.toNat).bmod (2 ^ 32) := by
  have htn := toInt_eq_toNat_bmod mult
  split_ifs with hng
  · rw [Int.sign_eq_neg_one_of_neg (slt_zero_iff.mp hng), toInt_neg, htn, Int.neg_one_mul]
    exact Int.bmod_neg_bmod
  · have hps : 0 < den.toInt := by
      rw [slt_zero_iff] at hng
      omega
    rw [Int.sign_eq_one_of_pos hps, Int.one_mul, htn]

/-- What is known of the magic number of a divisor, with the sign of the multiplier. -/
structure Good (divisor : Int) (magic : DivisionMagic 32) (M : Nat) : Prop where
  lt : M < 2 ^ 32
  toInt_eq : magic.magicMultiplier.toInt = (divisor.sign * M).bmod (2 ^ 32)
  shift_lt : magic.shift < 32
  product : ∃ excess,
    Magic (if divisor < 0 then 2 ^ 31 + 1 else 2 ^ 31) divisor.natAbs (2 ^ (magic.shift + 32)) M
    excess
  limit : 2 ^ 31 * M ≤ (2 ^ 31 / divisor.natAbs + 1) * 2 ^ (magic.shift + 32)

theorem computeDivisionMagic_good (den : BitVec 32) (hd : 2 ≤ den.toInt.natAbs) :
    ∃ magic M, (∀ fuel, 31 ≤ fuel → computeDivisionMagic fuel den = some magic) ∧
      Good den.toInt magic M := by
  obtain ⟨ad, haf⟩ : ∃ ad, ad = if den.slt 0 then -den else den := ⟨_, rfl⟩
  obtain ⟨t, htd⟩ : ∃ t, t = intMin 32 + (den >>> (32 - 1)) := ⟨_, rfl⟩
  obtain ⟨anc, han⟩ : ∃ anc, anc = t - 1 - t % ad := ⟨_, rfl⟩
  have had := haf ▸ toNat_ad den
  have ht := htd ▸ toNat_t den
  have hle : den.toInt.natAbs ≤ 2 ^ 31 := by
    have := abs_le.mp (abs_toInt_le den)
    omega
  have hcs : t.toNat = 2 ^ 31 ∨ t.toNat = 2 ^ 31 + 1 := by
    rw [ht]
    split_ifs <;> simp
  have ha := han ▸ toNat_anc (by omega) (by omega)
  have hpr := ha ▸ parameters hcs (had ▸ hd) (had ▸ hle)
  have hs : Small ad.toNat anc.toNat 31 := by
    have hc := hpr.critical_ge
    constructor <;> omega
  obtain ⟨p, q2, hl, hlt, hp, hq2, hds, hcr⟩ :=
    magicLoop_spec hpr (quotient_signedMin anc) (quotient_signedMin ad) hs (by omega)
      (show 62 ≤ 31 + 31 by omega)
  have hM : (q2 + 1).toNat = 2 ^ p / ad.toNat + 1 := by
    have hqt := Nat.div_lt_of_lt_mul (Nat.mul_comm _ _ ▸ hds)
    rw [toNat_add, hq2]
    exact Nat.mod_eq_of_lt (by simp; omega)
  have hmg : Magic t.toNat ad.toNat (2 ^ p) (q2 + 1).toNat (ad.toNat - 2 ^ p % ad.toNat) := by
    have hmd := Nat.mod_lt (2 ^ p) (Nat.lt_of_lt_of_le (Nat.zero_lt_succ 1) hpr.divisor_ge)
    have hdm := Nat.div_add_mod (2 ^ p) ad.toNat
    refine ⟨by omega, by omega, by omega, Nat.sub_le _ _, ?_, ha ▸ hcr⟩
    rw [hM, Nat.add_mul, Nat.one_mul, Nat.mul_comm]
    omega
  have hsh : p - 32 + 32 = p := Nat.sub_add_cancel (by omega)
  refine ⟨⟨if den.slt 0 then -(q2 + 1) else q2 + 1, p - 32⟩, (q2 + 1).toNat, ?_, (q2 + 1).isLt, ?_,
    ?_, ⟨ad.toNat - 2 ^ p % ad.toNat, ?_⟩, ?_⟩
  · intro fuel hf
    have hmr := magicLoop_mono hf hl
    subst han htd haf
    exact congrArg (Option.map _) hmr
  · exact toInt_signed den (q2 + 1) (by omega)
  · dsimp only
    omega
  · dsimp only
    rw [hsh, ← had, ← ht]
    exact hmg
  · dsimp only
    rw [hsh, ← had]
    by_cases hng : den.toInt < 0
    · rw [if_pos hng] at ht
      exact (hmg.mul_lt (by omega)).le
    · rw [if_neg hng] at ht
      rw [ht] at hmg
      exact hmg.mul_limit_le (limit_mul_excess_le hmg.divisor_pos (by omega))

namespace Good

variable {den : Int} {magic : DivisionMagic 32} {M : Nat} (h : Good den magic M)

include h

theorem pos : 0 < M := by
  obtain ⟨excess, hmg⟩ := h.product
  have hpd := hmg.product_eq ▸ Nat.add_pos_right _ hmg.excess_pos
  exact Nat.pos_of_mul_pos_right hpd

theorem mul_le {m} (hm : m ≤ 2 ^ 31) : m * M ≤ (m / den.natAbs + 1) * 2 ^ (magic.shift + 32) := by
  obtain ⟨excess, hmg⟩ := h.product
  rcases lt_or_eq_of_le hm with hlt | rfl
  · apply (hmg.mul_lt _).le
    split_ifs <;> omega
  · exact h.limit

/-- A product that is not negative is rounded down. -/
theorem quotient_pos {m : Nat} (hm : m < if den < 0 then 2 ^ 31 + 1 else 2 ^ 31) {quotient}
    (hqt : quotient = (m : Int) * M / 2 ^ (magic.shift + 32)) :
    (if quotient < 0 then quotient + 1 else quotient) = (m : Int).tdiv den.natAbs := by
  obtain ⟨excess, hmg⟩ := h.product
  have he := hmg.mul_ediv_eq hm
  rw [Nat.cast_pow, Nat.cast_ofNat] at he
  have hnn : 0 ≤ (m : Int) / den.natAbs := Int.ediv_nonneg (by omega) (by omega)
  rw [hqt, he, Int.tdiv_eq_ediv_of_nonneg (by omega), if_neg (by omega)]

/-- A negated product is rounded down, and then increased. -/
theorem quotient_neg {m : Nat} (hm : m ≤ 2 ^ 31) {quotient}
    (hqt : quotient = -((m : Int) * M) / 2 ^ (magic.shift + 32)) :
    (if quotient < 0 then quotient + 1 else quotient) = -(m : Int).tdiv den.natAbs := by
  obtain ⟨excess, hmg⟩ := h.product
  rcases Nat.eq_zero_or_pos m with rfl | hps
  · simp [hqt]
  · have he := hmg.neg_mul_ediv_eq hps (h.mul_le hm)
    rw [Nat.cast_pow, Nat.cast_ofNat] at he
    have hnn : 0 ≤ (m : Int) / den.natAbs := Int.ediv_nonneg (by omega) (by omega)
    rw [hqt, he, Int.tdiv_eq_ediv_of_nonneg (by omega), if_pos (by omega), Int.sub_add_cancel]

/-- The product, rounded down and increased when negative, is the truncated quotient. -/
theorem tdiv_eq (hd : den ≠ 0) {n quotient : Int} (hge : -2 ^ 31 ≤ n) (hlt : n < 2 ^ 31)
    (hqt : quotient = n * (den.sign * M) / 2 ^ (magic.shift + 32)) :
    (if quotient < 0 then quotient + 1 else quotient) = n.tdiv den := by
  rcases Int.lt_or_gt_of_ne hd with hng | hps
  · have hnt : den = -(den.natAbs : Int) := by omega
    rw [Int.sign_eq_neg_one_of_neg hng, Int.neg_one_mul] at hqt
    rcases Int.lt_or_le n 0 with hn | hn
    · obtain ⟨m, rfl⟩ : ∃ m : Nat, n = -m := ⟨n.natAbs, by omega⟩
      rw [Int.neg_mul_neg] at hqt
      rw [h.quotient_pos (by rw [if_pos hng]; omega) hqt, hnt, Int.neg_tdiv_neg, Int.natAbs_neg,
        Int.natAbs_natCast]
    · obtain ⟨m, rfl⟩ := Int.eq_ofNat_of_zero_le hn
      rw [Int.mul_neg] at hqt
      rw [h.quotient_neg (by omega) hqt, hnt, Int.tdiv_neg, Int.natAbs_neg, Int.natAbs_natCast]
  · have hnt : den = den.natAbs := by omega
    rw [Int.sign_eq_one_of_pos hps, Int.one_mul] at hqt
    rcases Int.lt_or_le n 0 with hn | hn
    · obtain ⟨m, rfl⟩ : ∃ m : Nat, n = -m := ⟨n.natAbs, by omega⟩
      rw [Int.neg_mul] at hqt
      rw [h.quotient_neg (by omega) hqt, hnt, Int.neg_tdiv, Int.natAbs_natCast]
    · obtain ⟨m, rfl⟩ := Int.eq_ofNat_of_zero_le hn
      rw [h.quotient_pos (by rw [if_neg (by omega)]; omega) hqt, hnt, Int.natAbs_natCast]

end Good

/-- What the replacement computes, on the bits. -/
theorem toInt_magicQuotient {den : BitVec 32} {magic : DivisionMagic 32} {M}
    (hg : Good den.toInt magic M) (hz : den.toInt ≠ 0) (val : BitVec 32) {quotient}
    (hqt : (correctedQuotient val den magic.magicMultiplier).sshiftRight magic.shift = quotient) :
    (quotient + (quotient >>> 31)).toInt = val.toInt.tdiv den.toInt := by
  have hsg : |den.toInt.sign * M| ≤ 2 ^ 32 - 1 := by
    have hlt := hg.lt
    rw [abs_mul, Int.abs_sign_of_ne_zero hz, one_mul, Nat.abs_cast]
    omega
  have hcc := toInt_correctedQuotient val hz hsg
    (fun hps => by
      have := hg.pos
      rw [Int.sign_eq_one_of_pos hps]
      omega)
    (fun hng => by
      have := hg.pos
      rw [Int.sign_eq_neg_one_of_neg hng]
      omega) hg.toInt_eq
  rw [toInt_add_signBit]
  apply hg.tdiv_eq hz val.le_toInt toInt_lt
  rw [← hqt, toInt_sshiftRight, hcc, Int.shiftRight_eq_div_pow,
    Int.ediv_ediv_of_nonneg (by decide), Nat.cast_pow, Nat.cast_ofNat, ← pow_add, Nat.add_comm]

/-- Division by a constant is exact. -/
theorem divideByMagic_exact (divisor : BitVec 32) (hzero : divisor.toInt ≠ 0)
    (hone : divisor.toInt ≠ 1)
    (hminusOne : divisor.toInt ≠ -1) :
    ∃ magic, (∀ fuel, 31 ≤ fuel → computeDivisionMagic fuel divisor = some magic) ∧
      ∀ (valuation : Valuation) (value : Value .int32),
        BitVec.toInt ((divideByMagic value divisor magic).eval valuation) =
          (BitVec.toInt (value.eval valuation)).tdiv divisor.toInt := by
  obtain ⟨magic, M, hcompute, hgood⟩ := computeDivisionMagic_good divisor (by omega)
  refine ⟨magic, hcompute, ?_⟩
  intro valuation value
  have heval := eval_divideByMagic valuation value divisor hgood.shift_lt rfl
  exact (congrArg BitVec.toInt heval).trans (toInt_magicQuotient hgood hzero _ rfl)

/-- The least integer is such a divisor. -/
theorem divideByMagic_exact_intMin :
    ∃ magic, (∀ fuel, 31 ≤ fuel → computeDivisionMagic fuel (BitVec.intMin 32) = some magic) ∧
      ∀ (valuation : Valuation) (value : Value .int32),
        BitVec.toInt ((divideByMagic value (BitVec.intMin 32) magic).eval valuation) =
          (BitVec.toInt (value.eval valuation)).tdiv (-2 ^ 31) :=
  divideByMagic_exact (BitVec.intMin 32) (by decide) (by decide) (by decide)

end QtWebKit.B3
