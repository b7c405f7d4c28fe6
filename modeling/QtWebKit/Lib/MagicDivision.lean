import Mathlib.Tactic.Linarith
import Mathlib.Tactic.Ring

/-!
# Division by multiplication

A divisor `A` is replaced by a multiplier `M` and a power `P` when `M * A` exceeds `P` by
so little that the quotients by `A` of all numbers below a limit are the quotients of
their products with `M` by `P`. The excess has to be good for the largest number below
the limit whose remainder is `A - 1`.
-/

namespace QtWebKit.MagicDivision

open Nat

/-- The largest number below `t` that has the remainder `A - 1`. -/
def critical (t A : Nat) : Nat := t - 1 - t % A

/-- A multiplier for the quotients by `A` of the numbers below `t`. -/
structure Magic (t A P M excess : Nat) : Prop where
  divisor_pos : 0 < A
  divisor_le : A ≤ t
  excess_pos : 0 < excess
  excess_le : excess ≤ A
  product_eq : M * A = P + excess
  critical_lt : critical t A * excess < P

namespace Magic

variable {t A P M excess m : Nat} (h : Magic t A P M excess)

include h

theorem critical_add_one : critical t A + 1 = t / A * A := by
  have hd := Nat.div_add_mod t A
  have hmd := Nat.mod_lt t h.divisor_pos
  have hq : 1 ≤ t / A := (Nat.one_le_div_iff h.divisor_pos).mpr h.divisor_le
  have hml := Nat.le_mul_of_pos_left A hq
  rw [critical, Nat.mul_comm]
  rw [Nat.mul_comm] at hml
  omega

/-- The excess of a product does not reach the next multiple. -/
theorem mul_excess_lt (hm : m < t) : m * excess < (A - m % A) * P := by
  have hc := h.critical_add_one
  have hlt := h.critical_lt
  have hmd := Nat.mod_lt m h.divisor_pos
  have hd := Nat.div_add_mod m A
  have hle : m / A ≤ t / A := Nat.div_le_div_right hm.le
  rcases Nat.lt_or_eq_of_le hle with hb | hb
  · -- `m` is at most the last number of its block, which is at most the critical one
    have hml : (m / A + 1) * A ≤ t / A * A := Nat.mul_le_mul_right A hb
    have hme : m ≤ critical t A := by
      rw [Nat.add_mul, Nat.one_mul, Nat.mul_comm (m / A)] at hml
      omega
    calc
      m * excess ≤ critical t A * excess := Nat.mul_le_mul_right excess hme
      _ < P := hlt
      _ ≤ (A - m % A) * P := Nat.le_mul_of_pos_left P (by omega)
  · -- `m` is in the incomplete block after the critical number
    have ht := Nat.div_add_mod t A
    have htmod := Nat.mod_lt t h.divisor_pos
    rw [Nat.mul_comm, ← hb] at hc
    rw [← hb] at ht
    have hq : A ≤ A * (m / A) := by
      rw [hb]
      exact Nat.le_mul_of_pos_right A ((Nat.one_le_div_iff h.divisor_pos).mpr h.divisor_le)
    have hme : m ≤ critical t A + critical t A := by omega
    calc
      m * excess ≤ (critical t A + critical t A) * excess := Nat.mul_le_mul_right excess hme
      _ = critical t A * excess + critical t A * excess := Nat.add_mul _ _ _
      _ < P + P := Nat.add_lt_add hlt hlt
      _ = 2 * P := (Nat.two_mul P).symm
      _ ≤ (A - m % A) * P := Nat.mul_le_mul_right P (by omega)

theorem mul_mul_eq (m : Nat) : m * M * A = m * P + m * excess := by
  rw [mul_assoc, h.product_eq, mul_add]

theorem next_mul_eq (m : Nat) : (m / A + 1) * P * A = m * P + (A - m % A) * P := by
  have hmd := mod_lt m h.divisor_pos
  have hd := div_add_mod m A
  have hn : (m / A + 1) * A = m + (A - m % A) := by
    rw [add_mul, one_mul, mul_comm]
    omega
  rw [mul_right_comm, hn, add_mul]

theorem mul_lt (hm : m < t) : m * M < (m / A + 1) * P := by
  apply Nat.lt_of_mul_lt_mul_right (a := A)
  rw [h.mul_mul_eq, h.next_mul_eq]
  exact Nat.add_lt_add_left (h.mul_excess_lt hm) _

theorem lt_mul (hm : 0 < m) : m / A * P < m * M := by
  apply Nat.lt_of_mul_lt_mul_right (a := A)
  rw [h.mul_mul_eq, Nat.mul_right_comm]
  calc
    m / A * A * P ≤ m * P := Nat.mul_le_mul_right P (Nat.div_mul_le_self m A)
    _ < m * P + m * excess := Nat.lt_add_of_pos_right (Nat.mul_pos hm h.excess_pos)

/-- The limit itself is good too, up to equality, unless it is like a critical number. -/
theorem mul_limit_le (hl : t % A = A - 1 → t * excess ≤ P) : t * M ≤ (t / A + 1) * P := by
  have hmd := Nat.mod_lt t h.divisor_pos
  apply Nat.le_of_mul_le_mul_right _ h.divisor_pos
  rw [h.mul_mul_eq, h.next_mul_eq]
  apply Nat.add_le_add_left
  by_cases hls : t % A = A - 1
  · have ho : A - t % A = 1 := by omega
    rw [ho, Nat.one_mul]
    exact hl hls
  · have hc := h.critical_add_one
    have hd := Nat.div_add_mod t A
    have hq := Nat.le_mul_of_pos_right A ((Nat.one_le_div_iff h.divisor_pos).mpr h.divisor_le)
    rw [Nat.mul_comm] at hc
    have htl : t ≤ critical t A + critical t A := by omega
    calc
      t * excess ≤ (critical t A + critical t A) * excess := Nat.mul_le_mul_right excess htl
      _ = critical t A * excess + critical t A * excess := Nat.add_mul _ _ _
      _ ≤ P + P := (Nat.add_lt_add h.critical_lt h.critical_lt).le
      _ = 2 * P := (Nat.two_mul P).symm
      _ ≤ (A - t % A) * P := Nat.mul_le_mul_right P (by omega)

/-! ### Quotients of integers -/

/-- Products of positive numbers are rounded down. -/
theorem mul_ediv_eq (hm : m < t) : ((m : Int) * M) / P = m / A := by
  have hlt := h.mul_lt hm
  have hle : m / A * P ≤ m * M := by
    rcases Nat.eq_zero_or_pos m with rfl | hp
    · simp
    · exact (h.lt_mul hp).le
  exact_mod_cast Nat.div_eq_of_lt_le hle hlt

/-- Negated products are rounded down to one less than the negated quotient. -/
theorem neg_mul_ediv_eq (hp : 0 < m) (hle : m * M ≤ (m / A + 1) * P) :
    (-((m : Int) * M)) / P = -(m / A) - 1 := by
  have hlt : ((m / A : Nat) : Int) * P < m * M := by exact_mod_cast h.lt_mul hp
  have hle : (m : Int) * M ≤ ((m / A : Nat) + 1) * P := by exact_mod_cast hle
  have hP : (0 : Int) < P := by exact_mod_cast zero_lt_of_lt h.critical_lt
  push_cast at hlt hle
  apply le_antisymm
  · apply Int.le_sub_one_of_lt
    rw [Int.ediv_lt_iff_lt_mul hP]
    linarith
  · rw [Int.le_ediv_iff_mul_le hP]
    linarith

end Magic

end QtWebKit.MagicDivision
