import Mathlib.Data.BitVec
import Mathlib.Data.Nat.Log

/-!
# Immediates of Thumb-2 instructions

`makeEncodedImm` looks for the twelve bits of an immediate that the processor expands to a given
word: a byte, a byte repeated in one of three patterns, or a byte with its top bit set, rotated.

## Implementation notes

The result is `none` for an immediate of `TypeInvalid`. The bit-fields are written as numbers, the
low eight bits under a pattern or the low seven under an amount of rotation.
-/

namespace QtWebKit.JIT.ARMThumbImmediate

/-- The places of the byte in the patterns of a word. -/
def patternFactor : Nat → Nat
  | 0 => 0x00000001
  | 1 => 0x00010001
  | 2 => 0x01000100
  | _ => 0x01010101

/-- `ThumbExpandImm`, the word that the processor reads in an immediate. -/
def thumbExpandImm (imm12 : BitVec 12) : BitVec 32 :=
  if imm12.toNat / 1024 = 0 then
    BitVec.ofNat 32 (imm12.toNat % 256 * patternFactor (imm12.toNat / 256))
  else (BitVec.ofNat 32 (128 + imm12.toNat % 128)).rotateRight (imm12.toNat / 128)

/-- Looks for a bit among the top `n` of `2 * n` bits. The state is the value and the zeros. -/
def countLeadingZerosPartial (n : Nat) (state : Nat × Nat) : Nat × Nat :=
  if state.1 >>> n ≠ 0 then (state.1 >>> n, state.2) else (state.1, state.2 + n)

def countLeadingZeros (value : Nat) : Nat :=
  if value = 0 then 32
  else
    let state := countLeadingZerosPartial 16 (value, 0)
    let state := countLeadingZerosPartial 8 state
    let state := countLeadingZerosPartial 4 state
    let state := countLeadingZerosPartial 2 state
    (countLeadingZerosPartial 1 state).2

/-- The fields `immediate` and `pattern`. -/
def ofPattern (immediate pattern : Nat) : BitVec 12 :=
  BitVec.ofNat 12 (pattern % 16 * 256 + immediate % 256)

/-- The fields `shiftValue7` and `shiftAmount`. -/
def ofShift (shiftValue7 shiftAmount : Nat) : BitVec 12 :=
  BitVec.ofNat 12 (shiftAmount % 32 * 128 + shiftValue7 % 128)

def byte (word : BitVec 32) (i : Nat) : Nat := word.toNat / 256 ^ i % 256

def makeEncodedImm (value : BitVec 32) : Option (BitVec 12) :=
  if value.toNat < 256 then some (ofPattern value.toNat 0)
  else
    let leadingZeros := countLeadingZeros value.toNat
    let rightShiftAmount := 24 - leadingZeros
    if value = value >>> rightShiftAmount <<< rightShiftAmount then
      some (ofShift (value >>> rightShiftAmount).toNat (8 + leadingZeros))
    else if byte value 0 = byte value 1 ∧ byte value 0 = byte value 2 ∧
        byte value 0 = byte value 3 then
      some (ofPattern (byte value 0) 3)
    else if byte value 0 = byte value 2 ∧ byte value 1 ||| byte value 3 = 0 then
      some (ofPattern (byte value 0) 1)
    else if byte value 1 = byte value 3 ∧ byte value 0 ||| byte value 2 = 0 then
      some (ofPattern (byte value 1) 2)
    else none

/-! ### Leading zeros -/

section

variable {v : Nat}

/-- The value is cut to the `n` bits after its first zeros. -/
def Narrowed (v n : Nat) (state : Nat × Nat) : Prop :=
  0 < state.1 ∧ state.1 < 2 ^ n ∧ state.2 + n ≤ 32 ∧ state.1 = v / 2 ^ (32 - n - state.2)

theorem Narrowed.step {n state} (h : Narrowed v (n + n) state) :
    Narrowed v n (countLeadingZerosPartial n state) := by
  obtain ⟨hpos, hlt, hle, heq⟩ := h
  rw [countLeadingZerosPartial, Nat.shiftRight_eq_div_pow]
  split_ifs with hz
  · refine ⟨Nat.pos_of_ne_zero hz, ?_, by dsimp only; omega, ?_⟩
    · rw [Nat.div_lt_iff_lt_mul (Nat.two_pow_pos n), ← pow_add]
      exact hlt
    · dsimp only
      rw [heq, Nat.div_div_eq_div_mul, ← pow_add]
      congr 2
      omega
  · refine ⟨hpos, ?_, by dsimp only; omega, ?_⟩
    · exact (Nat.div_eq_zero_iff.mp (not_not.mp hz)).resolve_left (Nat.two_pow_pos n).ne'
    · dsimp only
      rw [heq]
      congr 2
      omega

theorem countLeadingZeros_eq (hv : 0 < v) (hlt : v < 2 ^ 32) :
    countLeadingZeros v = 31 - Nat.log 2 v := by
  have h : Narrowed v 32 (v, 0) := ⟨hv, hlt, Nat.le_refl _, by simp⟩
  obtain ⟨hpos, hone, hle, heq⟩ :=
    Narrowed.step (n := 1) (Narrowed.step (n := 2) (Narrowed.step (n := 4)
      (Narrowed.step (n := 8) (Narrowed.step (n := 16) h))))
  rw [countLeadingZeros, if_neg hv.ne']
  dsimp only
  generalize countLeadingZerosPartial 1 _ = state at *
  have hlog : Nat.log 2 v = 32 - 1 - state.2 := by
    have hd := (Nat.div_eq_iff (Nat.two_pow_pos _)).mp (heq.symm.trans (by omega : state.1 = 1))
    refine Nat.log_eq_of_pow_le_of_lt_pow (by omega) ?_
    rw [pow_succ]
    omega
  omega

end

/-! ### Expansion -/

theorem toNat_rotateRight {b r : Nat} (hb : b < 256) (hr : 8 ≤ r) (hr' : r < 32) :
    ((BitVec.ofNat 32 b).rotateRight r).toNat = b * 2 ^ (32 - r) := by
  have hle : b * 2 ^ (32 - r) < 2 ^ 32 :=
    calc b * 2 ^ (32 - r) < 2 ^ 8 * 2 ^ (32 - r) :=
          Nat.mul_lt_mul_of_pos_right hb (Nat.two_pow_pos _)
      _ = 2 ^ (8 + (32 - r)) := (pow_add 2 8 _).symm
      _ ≤ 2 ^ 32 := Nat.pow_le_pow_right (by decide) (by omega)
  have hz : b / 2 ^ r = 0 :=
    Nat.div_eq_of_lt (hb.trans_le (Nat.pow_le_pow_right (n := 2) (by decide) hr))
  rw [BitVec.toNat_rotateRight, BitVec.toNat_ofNat, Nat.mod_eq_of_lt (by omega),
    Nat.mod_eq_of_lt hr', Nat.shiftRight_eq_div_pow, Nat.shiftLeft_eq, hz, Nat.zero_or,
    Nat.mod_eq_of_lt hle]

theorem thumbExpandImm_ofShift {b r : Nat} (hb : 128 ≤ b) (hb' : b < 256) (hr : 8 ≤ r)
    (hr' : r < 32) : (thumbExpandImm (ofShift b r)).toNat = b * 2 ^ (32 - r) := by
  have hn : (ofShift b r).toNat = r * 128 + (b - 128) := by
    rw [ofShift, BitVec.toNat_ofNat]
    omega
  rw [thumbExpandImm, if_neg (by omega), hn, show 128 + (r * 128 + (b - 128)) % 128 = b by omega,
    show (r * 128 + (b - 128)) / 128 = r by omega, toNat_rotateRight hb' hr hr']

theorem thumbExpandImm_ofPattern {b p : Nat} (hb : b < 256) (hp : p < 4) :
    (thumbExpandImm (ofPattern b p)).toNat = b * patternFactor p % 2 ^ 32 := by
  have hn : (ofPattern b p).toNat = p * 256 + b := by
    rw [ofPattern, BitVec.toNat_ofNat]
    omega
  rw [thumbExpandImm, if_pos (by omega), hn, show (p * 256 + b) % 256 = b by omega,
    show (p * 256 + b) / 256 = p by omega, BitVec.toNat_ofNat]

theorem shiftRight_shiftLeft_eq_iff (value : BitVec 32) (n : Nat) :
    value = value >>> n <<< n ↔ 2 ^ n ∣ value.toNat := by
  have hle : value.toNat / 2 ^ n * 2 ^ n ≤ value.toNat := Nat.div_mul_le_self _ _
  rw [← BitVec.toNat_inj, BitVec.toNat_shiftLeft, BitVec.toNat_ushiftRight,
    Nat.shiftRight_eq_div_pow, Nat.shiftLeft_eq, Nat.mod_eq_of_lt (hle.trans_lt value.isLt),
    Nat.dvd_iff_div_mul_eq, eq_comm]

/-! ### Encoding -/

theorem byte_lt (word : BitVec 32) (i : Nat) : byte word i < 256 := Nat.mod_lt _ (by decide)

theorem toNat_eq_bytes (word : BitVec 32) :
    word.toNat = byte word 0 + byte word 1 * 256 + byte word 2 * 256 ^ 2 + byte word 3 * 256 ^
      3 := by
  have hlt := word.isLt
  simp only [byte, Nat.reducePow]
  omega

/-- The top byte of a value without its leading zeros. -/
theorem topByte_bounds {v : Nat} (h : 256 ≤ v) (hlt : v < 2 ^ 32) :
    countLeadingZeros v < 24 ∧ 128 ≤ v / 2 ^ (24 - countLeadingZeros v) ∧
      v / 2 ^ (24 - countLeadingZeros v) < 256 := by
  have hl : 8 ≤ Nat.log 2 v := Nat.le_log_of_pow_le (by decide) h
  have hl' := Nat.log_lt_of_lt_pow (by omega) hlt
  have hle := Nat.pow_log_le_self 2 (x := v) (by omega)
  have hge := Nat.lt_pow_succ_log_self (b := 2) (by decide) v
  rw [countLeadingZeros_eq (by omega) hlt, show 24 - (31 - Nat.log 2 v) = Nat.log 2 v - 7 by omega,
    Nat.le_div_iff_mul_le (Nat.two_pow_pos _), Nat.div_lt_iff_lt_mul (Nat.two_pow_pos _)]
  refine ⟨by omega, ?_, ?_⟩
  · exact (pow_add 2 7 _).symm.trans_le ((congrArg _ (by omega)).trans_le hle)
  · exact hge.trans_eq ((congrArg _ (by omega)).trans (pow_add 2 8 _))

theorem thumbExpandImm_makeEncodedImm (value : BitVec 32) (imm : BitVec 12)
    (h : makeEncodedImm value = some imm) : thumbExpandImm imm = value := by
  have hlt := value.isLt
  rw [← BitVec.toNat_inj]
  rw [makeEncodedImm] at h
  dsimp only at h
  split_ifs at h with hb hs h3 h1 h2 <;> cases h
  · rw [thumbExpandImm_ofPattern hb (by decide), patternFactor]
    omega
  · obtain ⟨hz, hl, hu⟩ := topByte_bounds (not_lt.mp hb) hlt
    rw [shiftRight_shiftLeft_eq_iff] at hs
    rw [BitVec.toNat_ushiftRight, Nat.shiftRight_eq_div_pow, thumbExpandImm_ofShift hl hu (by omega)
      (by omega), show 32 - (8 + countLeadingZeros value.toNat) =
        24 - countLeadingZeros value.toNat by omega, Nat.div_mul_cancel hs]
  all_goals
    have hv := toNat_eq_bytes value
    have hb0 := byte_lt value 0
    have hb1 := byte_lt value 1
    rw [thumbExpandImm_ofPattern (byte_lt _ _) (by decide)]
    simp only [Nat.or_eq_zero_iff, Nat.reducePow, patternFactor] at *
    omega

/-- Every word that an immediate expands to is found. -/
theorem isSome_makeEncodedImm :
    ∀ imm : BitVec 12, (makeEncodedImm (thumbExpandImm imm)).isSome := by
  -- the immediates are few enough to go through them
  decide +kernel

/-- The words of the immediates are encoded and no others, each by an immediate that expands to
it. -/
theorem makeEncodedImm_exact (value : BitVec 32) :
    ((makeEncodedImm value).isSome ↔ ∃ imm, thumbExpandImm imm = value) ∧
      ∀ imm ∈ makeEncodedImm value, thumbExpandImm imm = value := by
  refine ⟨⟨fun h => ?_, ?_⟩, thumbExpandImm_makeEncodedImm value⟩
  · obtain ⟨imm, himm⟩ := Option.isSome_iff_exists.mp h
    exact ⟨imm, thumbExpandImm_makeEncodedImm value imm himm⟩
  · rintro ⟨imm, rfl⟩
    exact isSome_makeEncodedImm imm

end QtWebKit.JIT.ARMThumbImmediate
