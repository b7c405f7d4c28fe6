import QtWebKit.Text.TextCodecUTF8
import QtWebKit.Unicode.UTF8Sequences
import QtWebKit.Lib.PrefixCode

/-!
# The sequences the UTF-8 text codec decodes

`nonASCIISequenceLength` and `decodeNonASCIISequence` together recognise exactly
the sequences of table 3-7, so that reading at the front of the bytes follows
the prefix code UTF-8.
-/

namespace QtWebKit.TextCodecUTF8

open Unicode EncodingForms Decoding List Option

/-! ### The length a first byte announces -/

theorem nonASCIISequenceLength_eq (b0 : UInt8) :
    nonASCIISequenceLength b0 =
      if b0.toNat < 0x80 then 0
      else if b0.toNat < 0xE0 then 2
      else if b0.toNat < 0xF0 then 3
      else if b0.toNat < 0xF5 then 4
      else 0 := by
  obtain ⟨⟨n⟩⟩ := b0
  revert n
  decide +kernel

theorem nonASCIISequenceLength_le (b0 : UInt8) : nonASCIISequenceLength b0 ≤ 4 := by
  rw [nonASCIISequenceLength_eq]
  split_ifs <;> omega

theorem nonASCIISequenceLength_eq_two {b0 : UInt8} (h : nonASCIISequenceLength b0 = 2) :
    0x80 ≤ b0.toNat ∧ b0.toNat ≤ 0xDF := by
  rw [nonASCIISequenceLength_eq] at h
  split_ifs at h <;> omega

theorem nonASCIISequenceLength_eq_three {b0 : UInt8} (h : nonASCIISequenceLength b0 = 3) :
    0xE0 ≤ b0.toNat ∧ b0.toNat ≤ 0xEF := by
  rw [nonASCIISequenceLength_eq] at h
  split_ifs at h <;> omega

theorem nonASCIISequenceLength_eq_four {b0 : UInt8} (h : nonASCIISequenceLength b0 = 4) :
    0xF0 ≤ b0.toNat ∧ b0.toNat ≤ 0xF4 := by
  rw [nonASCIISequenceLength_eq] at h
  split_ifs at h <;> omega

theorem outside_iff (byte low high : UInt8) :
    outside byte low high = true ↔ ¬ (low.toNat ≤ byte.toNat ∧ byte.toNat ≤ high.toNat) := by
  simp only [outside, Bool.or_eq_true, decide_eq_true_eq, UInt8.lt_iff_toNat_lt, gt_iff_lt]
  omega

/-! ### Reading one sequence -/

theorem decodeNonASCIISequence_two {b0 b1 : UInt8} (rest : List UInt8) (char : Nat)
    (h0 : 0x80 ≤ b0.toNat ∧ b0.toNat ≤ 0xDF) :
    decodeNonASCIISequence (b0 :: b1 :: rest) 2 = some char ↔
      TableSequence [b0, b1] ∧ readUTF8Sequence [b0, b1] 2 = char := by
  have hv : (b0.toNat <<< 6) + b1.toNat - 0x00003080 = readUTF8Sequence [b0, b1] 2 := by
    simp [readUTF8Sequence, offsetsFromUTF8]
  simp only [decodeNonASCIISequence, outside_iff, UInt8.lt_iff_toNat_lt, UInt8.reduceToNat, hv]
  constructor
  · intro h
    split_ifs at h with hlead hsn
    exact ⟨.two (by omega) hsn, some.inj h⟩
  · rintro ⟨h, hch⟩
    cases h with
    | two ha hb =>
      obtain ⟨hb, hb'⟩ := hb
      rw [if_neg (by omega), if_neg (by omega), hch]

theorem decodeNonASCIISequence_three {b0 b1 b2 : UInt8} (rest : List UInt8) (char : Nat)
    (h0 : 0xE0 ≤ b0.toNat ∧ b0.toNat ≤ 0xEF) :
    decodeNonASCIISequence (b0 :: b1 :: b2 :: rest) 3 = some char ↔
      TableSequence [b0, b1, b2] ∧ readUTF8Sequence [b0, b1, b2] 3 = char := by
  simp only [decodeNonASCIISequence, outside_iff, ← UInt8.toNat_inj, ne_eq, UInt8.reduceToNat,
    ← readUTF8Sequence_three]
  constructor
  · intro h
    split_ifs at h with hlw hh hsn ht
    refine ⟨.three h0 ⟨?_, ?_⟩ ht ?_ ?_, some.inj h⟩ <;> omega
  · rintro ⟨h, hch⟩
    cases h with
    | three ha hb hc hln hsur =>
      obtain ⟨hb, hb'⟩ := hb
      obtain ⟨hc, hc'⟩ := hc
      rw [if_neg (by omega), if_neg (by omega), if_neg (by omega), if_neg (by omega), hch]

theorem decodeNonASCIISequence_four {b0 b1 b2 b3 : UInt8} (rest : List UInt8) (char : Nat)
    (h0 : 0xF0 ≤ b0.toNat ∧ b0.toNat ≤ 0xF4) :
    decodeNonASCIISequence (b0 :: b1 :: b2 :: b3 :: rest) 4 = some char ↔
      TableSequence [b0, b1, b2, b3] ∧ readUTF8Sequence [b0, b1, b2, b3] 4 = char := by
  simp only [decodeNonASCIISequence, outside_iff, ← UInt8.toNat_inj, ne_eq, UInt8.reduceToNat,
    ← readUTF8Sequence_four]
  constructor
  · intro h
    split_ifs at h with hlw hh hsn ht hf
    refine ⟨.four h0 ⟨?_, ?_⟩ ht hf ?_ ?_, some.inj h⟩ <;> omega
  · rintro ⟨h, hch⟩
    cases h with
    | four ha hb hc hd hln hrange =>
      obtain ⟨hb, hb'⟩ := hb
      obtain ⟨hc, hc'⟩ := hc
      obtain ⟨hd, hd'⟩ := hd
      rw [if_neg (by omega), if_neg (by omega), if_neg (by omega), if_neg (by omega),
        if_neg (by omega), hch]

/-- A complete sequence is decoded exactly if it is in the table, and then to its character. -/
theorem decodeNonASCIISequence_iff {b0 tail} (char : Nat) (hcn : nonASCIISequenceLength b0 ≠ 0)
    (hl : nonASCIISequenceLength b0 ≤ (b0 :: tail).length) :
    decodeNonASCIISequence (b0 :: tail) (nonASCIISequenceLength b0) = some char ↔
      TableSequence ((b0 :: tail).take (nonASCIISequenceLength b0)) ∧
        readUTF8Sequence ((b0 :: tail).take (nonASCIISequenceLength b0))
          (nonASCIISequenceLength b0) = char := by
  have hcs : nonASCIISequenceLength b0 = 2 ∨ nonASCIISequenceLength b0 = 3 ∨
      nonASCIISequenceLength b0 = 4 := by
    rw [nonASCIISequenceLength_eq] at hcn ⊢
    split_ifs at hcn ⊢ <;> omega
  rcases hcs with h | h | h
  · rw [h] at hl ⊢
    obtain ⟨b1, rest, rfl⟩ := exists_cons_of_length_pos (l := tail) (by
      rw [length_cons] at hl
      omega)
    exact decodeNonASCIISequence_two rest char (nonASCIISequenceLength_eq_two h)
  · rw [h] at hl ⊢
    match tail, hl with
    | b1 :: b2 :: rest, _ =>
      exact decodeNonASCIISequence_three rest char (nonASCIISequenceLength_eq_three h)
  · rw [h] at hl ⊢
    match tail, hl with
    | b1 :: b2 :: b3 :: rest, _ =>
      exact decodeNonASCIISequence_four rest char (nonASCIISequenceLength_eq_four h)

/-! ### The prefix code -/

/-- The length of a sequence of the table that starts with this byte. -/
def sequenceLength (b0 : UInt8) : Nat := if isASCII b0 then 1 else nonASCIISequenceLength b0

theorem length_of_tableSequence {b0 tail}
    (h : TableSequence (b0 :: tail)) : (b0 :: tail).length = sequenceLength b0 := by
  rw [sequenceLength, nonASCIISequenceLength_eq]
  cases h with
  | one ha => rw [if_pos ((isASCII_iff b0).mpr ha)]; rfl
  | two ha =>
    rw [if_neg (by rw [isASCII_iff]; omega), if_neg (by omega), if_pos (by omega)]
    rfl
  | three ha =>
    rw [if_neg (by rw [isASCII_iff]; omega), if_neg (by omega), if_neg (by omega),
      if_pos (by omega)]
    rfl
  | four ha =>
    rw [if_neg (by rw [isASCII_iff]; omega), if_neg (by omega), if_neg (by omega),
      if_neg (by omega), if_pos (by omega)]
    rfl

theorem tableSequence_utf8 (c : ScalarValue) : TableSequence (utf8 c.val) :=
  (tableSequence_iff _).mpr ⟨c, rfl⟩

theorem utf8_injective {c c' : ScalarValue} (h : utf8 c.val = utf8 c'.val) : c = c' := by
  apply Subtype.ext
  rw [← readUTF8Sequence_utf8 c, h, readUTF8Sequence_utf8 c']

/-- A sequence of the table at the front is as long as the first byte says. -/
theorem take_eq_of_tableSequence {sequence rest tail b0}
    (h : TableSequence sequence) (heq : b0 :: tail = sequence ++ rest) :
    (b0 :: tail).take (sequenceLength b0) = sequence := by
  cases sequence with
  | nil => cases h
  | cons b0' tail' =>
    obtain rfl : b0 = b0' := by
      injection heq
    rw [← length_of_tableSequence h, heq, take_left]

/-- UTF-8 as a code for the scalar values. -/
def utf8Code : PrefixCode UInt8 ScalarValue where
  encode c := utf8 c.val
  ne_nil c := by
    intro hnil
    have h := tableSequence_utf8 c
    rw [hnil] at h
    cases h
  unique := by
    intro c c' rest rest' h
    apply utf8_injective
    cases hunits : utf8 c.val ++ rest with
    | nil =>
      have hc := tableSequence_utf8 c
      rw [(List.append_eq_nil_iff.mp hunits).1] at hc
      cases hc
    | cons b0 tail =>
      rw [← take_eq_of_tableSequence (tableSequence_utf8 c) hunits.symm,
        ← take_eq_of_tableSequence (tableSequence_utf8 c') (hunits.symm.trans h)]

/-- A character starts here exactly if the announced bytes are in the table. -/
theorem starts_iff (b0 : UInt8) (tail : List UInt8) :
    utf8Code.Starts (b0 :: tail) ↔ TableSequence ((b0 :: tail).take (sequenceLength b0)) := by
  constructor
  · rintro ⟨c, rest, h⟩
    rw [take_eq_of_tableSequence (tableSequence_utf8 c) h]
    exact tableSequence_utf8 c
  · intro h
    obtain ⟨c, hc⟩ := (tableSequence_iff _).mp h
    have hsp := take_append_drop (sequenceLength b0) (b0 :: tail)
    rw [hc] at hsp
    exact ⟨c, _, hsp.symm⟩

/-! ### The outcomes of reading at the front -/

/-- The character of an ASCII byte. -/
def asciiCharacter {b0 : UInt8} (h : isASCII b0 = true) : ScalarValue :=
  ⟨b0.toNat, .inl (by rw [isASCII_iff] at h; omega)⟩

theorem step_ascii {b0} (h : isASCII b0 = true) (rest : List UInt8) :
    utf8Code.Step (b0 :: rest) [some (asciiCharacter h)] rest := by
  have he : utf8Code.encode (asciiCharacter h) = [b0] := utf8_one ((isASCII_iff b0).mp h)
  have hs : utf8Code.Step (utf8Code.encode (asciiCharacter h) ++ rest) _ rest :=
    .character _ rest
  rwa [he] at hs

section

variable {b0 : UInt8} {tail : List UInt8} (h0 : ¬ isASCII b0 = true)
include h0

theorem not_starts_of_length_eq_zero (hcn : nonASCIISequenceLength b0 = 0) :
    ¬ utf8Code.Starts (b0 :: tail) := by
  rw [starts_iff, sequenceLength, if_neg h0, hcn, take_zero]
  exact nofun

theorem not_starts_of_lt (hl : (b0 :: tail).length < nonASCIISequenceLength b0) :
    ¬ utf8Code.Starts (b0 :: tail) := by
  intro h
  rw [starts_iff, sequenceLength, if_neg h0, take_of_length_le (by omega)] at h
  have heq := length_of_tableSequence h
  rw [sequenceLength, if_neg h0] at heq
  omega

variable (hcn : nonASCIISequenceLength b0 ≠ 0)
  (hl : nonASCIISequenceLength b0 ≤ (b0 :: tail).length)
include hcn hl

theorem not_starts_of_decode_eq_none
    (h : decodeNonASCIISequence (b0 :: tail) (nonASCIISequenceLength b0) = none)
    (more : List UInt8) : ¬ utf8Code.Starts (b0 :: tail ++ more) := by
  intro hst
  rw [cons_append, starts_iff, sequenceLength, if_neg h0, ← cons_append,
    take_append_of_le_length hl] at hst
  have hsm := (decodeNonASCIISequence_iff _ hcn hl).mpr ⟨hst, rfl⟩
  rw [h] at hsm
  cases hsm

omit h0 in
theorem step_of_decode_eq_some {char}
    (h : decodeNonASCIISequence (b0 :: tail) (nonASCIISequenceLength b0) = some char) :
    ∃ c : ScalarValue, c.val = char ∧
      utf8 c.val = (b0 :: tail).take (nonASCIISequenceLength b0) ∧
      ∀ more, utf8Code.Step (b0 :: tail ++ more) [some c]
        ((b0 :: tail).drop (nonASCIISequenceLength b0) ++ more) := by
  obtain ⟨htb, hr⟩ := (decodeNonASCIISequence_iff _ hcn hl).mp h
  obtain ⟨c, hc⟩ := (tableSequence_iff _).mp htb
  refine ⟨c, ?_, hc.symm, ?_⟩
  · have hn : nonASCIISequenceLength b0 = (utf8 c.val).length := by
      rw [← hc, length_take]
      omega
    rw [← hr, hc, hn, readUTF8Sequence_utf8]
  · intro more
    have he : utf8Code.encode c = (b0 :: tail).take (nonASCIISequenceLength b0) := hc.symm
    have hs : utf8Code.Step (utf8Code.encode c ++
        ((b0 :: tail).drop (nonASCIISequenceLength b0) ++ more)) [some c] _ := .character c _
    rwa [he, ← append_assoc, take_append_drop] at hs

end

/-! ### The text of a decoding -/

/-- The code units of a decoding, with U+FFFD for a replacement. -/
def text (items : List (Option ScalarValue)) : List UInt16 :=
  items.flatMap fun
    | some c => utf16 c.val
    | none => [.ofNat replacementCharacter]

/-- A byte has been replaced. -/
def replaces (items : List (Option ScalarValue)) : Bool := items.any Option.isNone

theorem appendCharacter_eq (c : ScalarValue) : appendCharacter c.val = utf16 c.val := by
  obtain ⟨c, hc⟩ := c
  unfold IsScalarValue at hc
  change appendCharacter c = utf16 c
  unfold appendCharacter
  by_cases hbm : isBMP c = true
  · rw [if_pos hbm, utf16, if_pos (by rw [isBMP, decide_eq_true_eq] at hbm; omega)]
  · rw [isBMP, decide_eq_true_eq] at hbm
    rw [if_neg (by rw [isBMP, decide_eq_true_eq]; omega), u16_eq_utf16 (by omega) (by omega)]

/-- The 16-bit loop and handler write the text of a decoding. -/
theorem uChar_write (item : Option ScalarValue) :
    uChar.write (item.map Subtype.val) = some (text [item]) := by
  cases item with
  | none => rfl
  | some c =>
    change some (appendCharacter c.val) = some (utf16 c.val ++ [])
    rw [appendCharacter_eq, append_nil]

theorem text_asciiCharacter {b0} (h : isASCII b0 = true) :
    text [some (asciiCharacter h)] = [uChar.ofByte b0] :=
  some.inj ((uChar_write (some (asciiCharacter h))).symm.trans (uChar.write_ascii h))

@[simp] theorem text_nil : text [] = [] := rfl

@[simp] theorem text_append (items items' : List (Option ScalarValue)) :
    text (items ++ items') = text items ++ text items' :=
  flatMap_append

@[simp] theorem replaces_nil : replaces [] = false := rfl

@[simp] theorem replaces_append (items items' : List (Option ScalarValue)) :
    replaces (items ++ items') = (replaces items || replaces items') :=
  any_append

end QtWebKit.TextCodecUTF8
