import QtWebKit.Unicode.UTF8
import Mathlib.Tactic.IntervalCases

/-!
# The byte sequences `convertUTF8ToUTF16` accepts

`isLegalUTF8` accepts the sequences of table 3-7 and, because its switch bounds
the second byte after `0xED` and `0xF4` only from above, also sequences with an
ASCII byte in second place. Every accepted sequence reads as a scalar value,
which is the encoded one for a sequence of the table.
-/

namespace QtWebKit.Unicode

open EncodingForms List

/-! ### Legality -/

/-- The accepted sequences that table 3-7 does not have. -/
inductive LooseSequence : List UInt8 → Prop where
  | three {b c : UInt8} (hb : b.toNat < 0x80) (hc : IsTail c) : LooseSequence [0xED, b, c]
  | four {b c d : UInt8} (hb : b.toNat < 0x80) (hc : IsTail c) (hd : IsTail d) :
      LooseSequence [0xF4, b, c, d]

/-- The sequences that `isLegalUTF8` accepts. -/
def LegalSequence (bytes : List UInt8) : Prop := TableSequence bytes ∨ LooseSequence bytes

theorem inlineUTF8SequenceLength_eq (b0 : UInt8) :
    inlineUTF8SequenceLength b0 =
      if b0.toNat < 0x80 then 1
      else if b0.toNat < 0xC0 then 0
      else if b0.toNat < 0xE0 then 2
      else if b0.toNat < 0xF0 then 3
      else if b0.toNat < 0xF8 then 4
      else 0 := by
  obtain ⟨⟨n⟩⟩ := b0
  revert n
  decide +kernel

theorem isLegalTrail_iff (a : UInt8) : isLegalTrail a = true ↔ IsTail a := by
  simp only [isLegalTrail, IsTail, Bool.not_eq_true', Bool.or_eq_false_iff, decide_eq_false_iff_not,
    UInt8.lt_iff_toNat_lt, UInt8.reduceToNat, gt_iff_lt]
  omega

theorem isLegalLead_iff (b0 : UInt8) :
    isLegalLead b0 = true ↔ (b0.toNat < 0x80 ∨ 0xC2 ≤ b0.toNat) ∧ b0.toNat ≤ 0xF4 := by
  simp only [isLegalLead, Bool.and_eq_true, Bool.not_eq_true', Bool.and_eq_false_iff,
    decide_eq_false_iff_not, UInt8.lt_iff_toNat_lt, UInt8.le_iff_toNat_le, UInt8.reduceToNat,
    gt_iff_lt, ge_iff_le]
  omega

theorem isLegalSecond_iff (b0 a : UInt8) :
    isLegalSecond b0 a = true ↔ a.toNat ≤ 0xBF ∧ (b0.toNat = 0xE0 → 0xA0 ≤ a.toNat) ∧
      (b0.toNat = 0xED → a.toNat ≤ 0x9F) ∧ (b0.toNat = 0xF0 → 0x90 ≤ a.toNat) ∧
      (b0.toNat = 0xF4 → a.toNat ≤ 0x8F) ∧
      (b0.toNat ≠ 0xED → b0.toNat ≠ 0xF4 → 0x80 ≤ a.toNat) := by
  simp only [isLegalSecond, ← UInt8.toNat_inj, UInt8.lt_iff_toNat_lt, UInt8.reduceToNat, gt_iff_lt]
  split_ifs <;> simp only [Bool.not_eq_true', decide_eq_false_iff_not, false_iff] <;> omega

theorem legalSequence_three {a b c : UInt8} (ha : 0xE0 ≤ a.toNat ∧ a.toNat ≤ 0xEF)
    (hb : isLegalSecond a b = true) (hc : IsTail c) : LegalSequence [a, b, c] := by
  rw [isLegalSecond_iff] at hb
  by_cases has : b.toNat < 0x80
  · have hld : a = 0xED := UInt8.toNat_inj.mp (show a.toNat = 0xED by omega)
    subst hld
    exact .inr (.three has hc)
  · exact .inl (.three ha ⟨by omega, by omega⟩ hc (by omega) (by omega))

theorem legalSequence_four {a b c d : UInt8} (ha : 0xF0 ≤ a.toNat ∧ a.toNat ≤ 0xF4)
    (hb : isLegalSecond a b = true) (hc : IsTail c) (hd : IsTail d) :
    LegalSequence [a, b, c, d] := by
  rw [isLegalSecond_iff] at hb
  by_cases has : b.toNat < 0x80
  · have hld : a = 0xF4 := UInt8.toNat_inj.mp (show a.toNat = 0xF4 by omega)
    subst hld
    exact .inr (.four has hc hd)
  · exact .inl (.four ha ⟨by omega, by omega⟩ hc hd (by omega) (by omega))

/-- The loop accepts only legal sequences. -/
theorem legalSequence_take {b0 tail} (hln : inlineUTF8SequenceLength b0 ≤ (b0 :: tail).length)
    (hl : isLegalUTF8 (b0 :: tail) (inlineUTF8SequenceLength b0) = true) :
    LegalSequence ((b0 :: tail).take (inlineUTF8SequenceLength b0)) := by
  rw [inlineUTF8SequenceLength_eq] at *
  split_ifs at * with h1 h2 h3 h4 h5
  · exact .inl (.one h1)
  · simp [isLegalUTF8] at hl
  · obtain _ | ⟨b1, tail⟩ := tail
    · simp at hln
    · simp only [isLegalUTF8, Bool.and_eq_true, isLegalSecond_iff, isLegalLead_iff] at hl
      exact .inl (.two (by omega) ⟨by omega, by omega⟩)
  · obtain _ | ⟨b1, _ | ⟨b2, tail⟩⟩ := tail
    · simp at hln
    · simp at hln
    · simp only [isLegalUTF8, Bool.and_eq_true, isLegalTrail_iff] at hl
      exact legalSequence_three (by omega) hl.1.2 hl.1.1
  · obtain _ | ⟨b1, _ | ⟨b2, _ | ⟨b3, tail⟩⟩⟩ := tail
    · simp at hln
    · simp at hln
    · simp at hln
    · simp only [isLegalUTF8, Bool.and_eq_true, isLegalTrail_iff, isLegalLead_iff] at hl
      exact legalSequence_four (by omega) hl.1.2 hl.1.1.2 hl.1.1.1
  · simp [isLegalUTF8] at hl

variable {bs : List UInt8}

/-- The lead byte of a legal sequence announces its length. -/
theorem LegalSequence.length_eq (h : LegalSequence bs) :
    ∃ b0 tail, bs = b0 :: tail ∧ inlineUTF8SequenceLength b0 = bs.length := by
  rcases h with h | h
  · cases h with
    | one ha =>
      exact ⟨_, _, rfl, by rw [inlineUTF8SequenceLength_eq, if_pos ha]; rfl⟩
    | two ha hb =>
      refine ⟨_, _, rfl, ?_⟩
      rw [inlineUTF8SequenceLength_eq, if_neg (by omega), if_neg (by omega), if_pos (by omega)]
      rfl
    | three ha hb hc hlg hs =>
      refine ⟨_, _, rfl, ?_⟩
      rw [inlineUTF8SequenceLength_eq, if_neg (by omega), if_neg (by omega), if_neg (by omega),
        if_pos (by omega)]
      rfl
    | four ha hb hc hd hlg hr =>
      refine ⟨_, _, rfl, ?_⟩
      rw [inlineUTF8SequenceLength_eq, if_neg (by omega), if_neg (by omega), if_neg (by omega),
        if_neg (by omega), if_pos (by omega)]
      rfl
  · cases h with
    | three hb hc => exact ⟨_, _, rfl, rfl⟩
    | four hb hc hd => exact ⟨_, _, rfl, rfl⟩

/-- The loop accepts every legal sequence. -/
theorem LegalSequence.isLegalUTF8_append (h : LegalSequence bs)
    (rest : List UInt8) : isLegalUTF8 (bs ++ rest) bs.length = true := by
  rcases h with h | h
  · cases h with
    | one ha =>
      exact (isLegalLead_iff _).mpr (by omega)
    | two ha hb =>
      obtain ⟨hb, hb'⟩ := hb
      simp only [isLegalUTF8, length_cons, length_nil, cons_append,
        Bool.and_eq_true, isLegalSecond_iff, isLegalLead_iff]
      omega
    | three ha hb hc hlg hs =>
      obtain ⟨hb, hb'⟩ := hb
      simp only [isLegalUTF8, length_cons, length_nil, cons_append,
        Bool.and_eq_true, isLegalTrail_iff, isLegalSecond_iff, isLegalLead_iff, hc, true_and]
      omega
    | four ha hb hc hd hlg hr =>
      obtain ⟨hb, hb'⟩ := hb
      simp only [isLegalUTF8, length_cons, length_nil, cons_append,
        Bool.and_eq_true, isLegalTrail_iff, isLegalSecond_iff, isLegalLead_iff, hc, hd, true_and]
      omega
  · cases h with
    | three hb hc =>
      simp only [isLegalUTF8, length_cons, length_nil, cons_append, Bool.and_eq_true,
        isLegalTrail_iff, isLegalSecond_iff, isLegalLead_iff, hc, true_and, UInt8.reduceToNat]
      omega
    | four hb hc hd =>
      simp only [isLegalUTF8, length_cons, length_nil, cons_append, Bool.and_eq_true,
        isLegalTrail_iff, isLegalSecond_iff, isLegalLead_iff, hc, hd, true_and, UInt8.reduceToNat]
      omega

theorem not_looseSequence_of_tableSequence (h : TableSequence bs) : ¬ LooseSequence bs := by
  intro hls
  cases hls with
  | three hb hc =>
    cases h with
    | three _ hb' => exact absurd hb'.1 (by omega)
  | four hb hc hd =>
    cases h with
    | four _ hb' => exact absurd hb'.1 (by omega)

/-! ### Reading a sequence -/

/-- The character of a sequence of the table. -/
theorem readUTF8Sequence_utf8 (c : ScalarValue) :
    readUTF8Sequence (utf8 c.val) (utf8 c.val).length = c.val := by
  obtain ⟨c, hc⟩ := c
  unfold IsScalarValue at hc
  simp only [utf8]
  split_ifs with h1 h2 h3 <;>
    simp only [readUTF8Sequence, length_cons, length_nil, take_succ_cons, take_zero, foldl_cons,
      foldl_nil, Nat.shiftLeft_eq, offsetsFromUTF8, Nat.reduceAdd, Nat.reduceSub]
  · rw [toNat_ofNat_byte (by omega)]; omega
  · rw [toNat_ofNat_byte (by omega), toNat_ofNat_byte (by omega)]; omega
  · rw [toNat_ofNat_byte (by omega), toNat_ofNat_byte (by omega), toNat_ofNat_byte (by omega)]
    omega
  · rw [toNat_ofNat_byte (by omega), toNat_ofNat_byte (by omega), toNat_ofNat_byte (by omega),
      toNat_ofNat_byte (by omega)]
    omega

theorem readUTF8Sequence_three (a b c : UInt8) : readUTF8Sequence [a, b, c] 3 =
    (a.toNat <<< 12) + (b.toNat <<< 6) + c.toNat - 0x000E2080 := by
  simp only [readUTF8Sequence, offsetsFromUTF8, take_succ_cons, take_zero,
    foldl_cons, foldl_nil, Nat.shiftLeft_eq]
  omega

theorem readUTF8Sequence_four (a b c d : UInt8) : readUTF8Sequence [a, b, c, d] 4 =
    (a.toNat <<< 18) + (b.toNat <<< 12) + (c.toNat <<< 6) + d.toNat - 0x03C82080 := by
  simp only [readUTF8Sequence, offsetsFromUTF8, take_succ_cons, take_zero,
    foldl_cons, foldl_nil, Nat.shiftLeft_eq]
  omega

/-- A loose sequence reads as a scalar value too. -/
theorem LooseSequence.isScalarValue (h : LooseSequence bs) :
    IsScalarValue (readUTF8Sequence bs bs.length) := by
  cases h with
  | three hb hc =>
    obtain ⟨hc, hc'⟩ := hc
    simp only [length_cons, length_nil, Nat.reduceAdd, readUTF8Sequence_three,
      Nat.shiftLeft_eq, UInt8.reduceToNat, IsScalarValue]
    omega
  | four hb hc hd =>
    obtain ⟨hc, hc'⟩ := hc
    obtain ⟨hd, hd'⟩ := hd
    simp only [length_cons, length_nil, Nat.reduceAdd, readUTF8Sequence_four,
      Nat.shiftLeft_eq, UInt8.reduceToNat, IsScalarValue]
    omega

theorem LegalSequence.isScalarValue (h : LegalSequence bs) :
    IsScalarValue (readUTF8Sequence bs bs.length) := by
  rcases h with h | h
  · obtain ⟨c, rfl⟩ := (tableSequence_iff bs).mp h
    rw [readUTF8Sequence_utf8]
    exact c.property
  · exact h.isScalarValue

theorem readUTF8Sequence_append (bs rest : List UInt8) :
    readUTF8Sequence (bs ++ rest) bs.length = readUTF8Sequence bs bs.length := by
  simp only [readUTF8Sequence, take_left, take_length]

/-! ### Writing code units -/

theorem isSurrogate_iff {c} (hc : c < 2 ^ 32) : isSurrogate c = true ↔ 0xD800 ≤ c ∧ c < 0xE000 := by
  have hm : c &&& 0xFFFFF800 = c / 2 ^ 11 * 2 ^ 11 := by
    rw [show (0xFFFFF800 : Nat) = (2 ^ 21 - 1) <<< 11 by decide, ← Nat.shiftRight_eq_div_pow,
      ← Nat.shiftLeft_eq]
    apply Nat.eq_of_testBit_eq
    intro i
    simp only [Nat.testBit_and, Nat.testBit_shiftLeft, Nat.testBit_shiftRight,
      Nat.testBit_two_pow_sub_one]
    by_cases hlw : 11 ≤ i
    · by_cases hhigh : i < 32
      · simp [hlw, show i - 11 < 21 by omega]
      · have hbt : c.testBit i = false := Nat.testBit_lt_two_pow
          (hc.trans_le (Nat.pow_le_pow_right (by norm_num) (by omega)))
        simp [hlw, hbt]
    · simp [hlw]
  rw [isSurrogate, hm, decide_eq_true_iff]
  omega

theorem u16_eq_utf16 {c} (hc : 0x10000 ≤ c) (hc' : c < 0x110000) :
    [u16Lead c, u16Trail c] = utf16 c := by
  have ht : (c &&& 0x3FF) ||| 0xDC00 = 0xDC00 + (c - 0x10000) % 0x400 := by
    have hlw := Nat.and_two_pow_sub_one_eq_mod c 10
    have hor := Nat.two_pow_add_eq_or_of_lt (Nat.mod_lt c (show 2 ^ 10 > 0 by decide)) 55
    rw [hlw, Nat.or_comm, show (0xDC00 : Nat) = 2 ^ 10 * 55 by decide, ← hor]
    omega
  have hld : (c >>> 10) + 0xD7C0 = 0xD800 + (c - 0x10000) / 0x400 := by
    rw [Nat.shiftRight_eq_div_pow]
    omega
  rw [utf16, if_neg (by omega), u16Lead, u16Trail, ht, hld]

end QtWebKit.Unicode
