import Mathlib.Tactic.FinCases

/-!
# The Unicode encoding forms UTF-8 and UTF-16

Scalar values with their UTF-8 bytes and UTF-16 code units, and the two
well-formedness conditions of the standard, stated on bytes and code units
alone: the byte ranges of table 3-7 for UTF-8, paired surrogates for UTF-16.

## Implementation notes

`utf8` and `utf16` are defined on every natural number, surrogate code points
included.
-/

namespace QtWebKit.EncodingForms

open List

/-- Code points up to U+10FFFF that are not surrogates. -/
def IsScalarValue (c : Nat) : Prop :=
  c < 0xD800 ∨ 0xE000 ≤ c ∧ c < 0x110000

instance (c : Nat) : Decidable (IsScalarValue c) :=
  inferInstanceAs (Decidable (_ ∨ _))

abbrev ScalarValue : Type := { c : Nat // IsScalarValue c }

/-- The UTF-8 bytes of a code point. -/
def utf8 (c : Nat) : List UInt8 :=
  if c < 0x80 then [.ofNat c]
  else if c < 0x800 then [.ofNat (0xC0 + c / 0x40), .ofNat (0x80 + c % 0x40)]
  else if c < 0x10000 then
    [.ofNat (0xE0 + c / 0x1000), .ofNat (0x80 + c / 0x40 % 0x40), .ofNat (0x80 + c % 0x40)]
  else
    [.ofNat (0xF0 + c / 0x40000), .ofNat (0x80 + c / 0x1000 % 0x40),
      .ofNat (0x80 + c / 0x40 % 0x40), .ofNat (0x80 + c % 0x40)]

/-- The UTF-16 code units of a code point. -/
def utf16 (c : Nat) : List UInt16 :=
  if c < 0x10000 then [.ofNat c]
  else [.ofNat (0xD800 + (c - 0x10000) / 0x400), .ofNat (0xDC00 + (c - 0x10000) % 0x400)]

/-- A text in UTF-8. -/
def utf8Text (cs : List ScalarValue) : List UInt8 := cs.flatMap fun c => utf8 c.val

/-- A text in UTF-16. -/
def utf16Text (cs : List ScalarValue) : List UInt16 := cs.flatMap fun c => utf16 c.val

/-- Table 3-7 of the Unicode standard: one row of byte ranges per line. -/
def table37 : List (List (Nat × Nat)) :=
  [[(0x00, 0x7F)], [(0xC2, 0xDF), (0x80, 0xBF)],
    [(0xE0, 0xE0), (0xA0, 0xBF), (0x80, 0xBF)],
    [(0xE1, 0xEC), (0x80, 0xBF), (0x80, 0xBF)],
    [(0xED, 0xED), (0x80, 0x9F), (0x80, 0xBF)],
    [(0xEE, 0xEF), (0x80, 0xBF), (0x80, 0xBF)],
    [(0xF0, 0xF0), (0x90, 0xBF), (0x80, 0xBF), (0x80, 0xBF)],
    [(0xF1, 0xF3), (0x80, 0xBF), (0x80, 0xBF), (0x80, 0xBF)],
    [(0xF4, 0xF4), (0x80, 0x8F), (0x80, 0xBF), (0x80, 0xBF)]]

/-- A byte sequence that a row of the table allows. -/
def WellFormedSequence (bytes : List UInt8) : Prop :=
  ∃ row ∈ table37,
    List.Forall₂ (fun range byte => range.1 ≤ byte.toNat ∧ byte.toNat ≤ range.2) row bytes

/-- Bytes that split into sequences of the table. -/
def WellFormedUTF8 (bytes : List UInt8) : Prop :=
  ∃ sequences : List (List UInt8),
    (∀ sequence ∈ sequences, WellFormedSequence sequence) ∧ bytes = sequences.flatten

/-- One code unit that is no surrogate, or a high surrogate and a low one. -/
inductive WellFormedUnits : List UInt16 → Prop where
  | single {unit : UInt16} (h : unit.toNat < 0xD800 ∨ 0xE000 ≤ unit.toNat) :
      WellFormedUnits [unit]
  | pair {lead trail : UInt16} (hlead : 0xD800 ≤ lead.toNat ∧ lead.toNat < 0xDC00)
      (htrail : 0xDC00 ≤ trail.toNat ∧ trail.toNat < 0xE000) : WellFormedUnits [lead, trail]

/-- Code units in which every surrogate is paired. -/
def WellFormedUTF16 (units : List UInt16) : Prop :=
  ∃ characters : List (List UInt16),
    (∀ character ∈ characters, WellFormedUnits character) ∧ units = characters.flatten

theorem ofNat_eq_iff {n : Nat} {byte : UInt8} (h : n < 0x100) :
    UInt8.ofNat n = byte ↔ n = byte.toNat := by
  rw [← UInt8.toNat_inj, UInt8.toNat_ofNat', Nat.mod_eq_of_lt h]

theorem toNat_ofNat_byte {n : Nat} (h : n < 0x100) : (UInt8.ofNat n).toNat = n :=
  (ofNat_eq_iff h).mp rfl |>.symm

theorem toNat_ofNat_unit {n : Nat} (h : n < 0x10000) : (UInt16.ofNat n).toNat = n := by
  rw [UInt16.toNat_ofNat', Nat.mod_eq_of_lt h]

theorem utf8_one {a : UInt8} (ha : a.toNat < 0x80) : utf8 a.toNat = [a] := by
  simp only [utf8, if_pos ha, UInt8.ofNat_toNat]

theorem utf8_two {a b : UInt8} (ha : 0xC2 ≤ a.toNat ∧ a.toNat ≤ 0xDF)
    (hb : 0x80 ≤ b.toNat ∧ b.toNat ≤ 0xBF) :
    utf8 ((a.toNat - 0xC0) * 0x40 + (b.toNat - 0x80)) = [a, b] := by
  rw [utf8, if_neg (by omega), if_pos (by omega)]
  simp only [cons.injEq, and_true]
  exact ⟨(ofNat_eq_iff (by omega)).mpr (by omega), (ofNat_eq_iff (by omega)).mpr (by omega)⟩

theorem utf8_three {a b c : UInt8} (ha : 0xE0 ≤ a.toNat ∧ a.toNat ≤ 0xEF)
    (hb : 0x80 ≤ b.toNat ∧ b.toNat ≤ 0xBF) (hc : 0x80 ≤ c.toNat ∧ c.toNat ≤ 0xBF)
    (hl : a.toNat = 0xE0 → 0xA0 ≤ b.toNat) :
    utf8 ((a.toNat - 0xE0) * 0x1000 + (b.toNat - 0x80) * 0x40 + (c.toNat - 0x80)) =
      [a, b, c] := by
  rw [utf8, if_neg (by omega), if_neg (by omega), if_pos (by omega)]
  simp only [cons.injEq, and_true]
  exact ⟨(ofNat_eq_iff (by omega)).mpr (by omega), (ofNat_eq_iff (by omega)).mpr (by omega),
    (ofNat_eq_iff (by omega)).mpr (by omega)⟩

theorem utf8_four {a b c d : UInt8} (ha : 0xF0 ≤ a.toNat ∧ a.toNat ≤ 0xF4)
    (hb : 0x80 ≤ b.toNat ∧ b.toNat ≤ 0xBF) (hc : 0x80 ≤ c.toNat ∧ c.toNat ≤ 0xBF)
    (hd : 0x80 ≤ d.toNat ∧ d.toNat ≤ 0xBF) (hl : a.toNat = 0xF0 → 0x90 ≤ b.toNat) :
    utf8 ((a.toNat - 0xF0) * 0x40000 + (b.toNat - 0x80) * 0x1000 + (c.toNat - 0x80) * 0x40 +
      (d.toNat - 0x80)) = [a, b, c, d] := by
  rw [utf8, if_neg (by omega), if_neg (by omega), if_neg (by omega)]
  simp only [cons.injEq, and_true]
  exact ⟨(ofNat_eq_iff (by omega)).mpr (by omega), (ofNat_eq_iff (by omega)).mpr (by omega),
    (ofNat_eq_iff (by omega)).mpr (by omega), (ofNat_eq_iff (by omega)).mpr (by omega)⟩

/-- A byte that continues a sequence. -/
def IsTail (byte : UInt8) : Prop := 0x80 ≤ byte.toNat ∧ byte.toNat ≤ 0xBF

/-- The rows of the table by length: the lead byte decides the length, and four
lead bytes narrow the range of the second byte. -/
inductive TableSequence : List UInt8 → Prop where
  | one {a : UInt8} (ha : a.toNat < 0x80) : TableSequence [a]
  | two {a b : UInt8} (ha : 0xC2 ≤ a.toNat ∧ a.toNat ≤ 0xDF) (hb : IsTail b) :
      TableSequence [a, b]
  | three {a b c : UInt8} (ha : 0xE0 ≤ a.toNat ∧ a.toNat ≤ 0xEF) (hb : IsTail b)
      (hc : IsTail c) (hlong : a.toNat = 0xE0 → 0xA0 ≤ b.toNat)
      (hsurrogate : a.toNat = 0xED → b.toNat ≤ 0x9F) : TableSequence [a, b, c]
  | four {a b c d : UInt8} (ha : 0xF0 ≤ a.toNat ∧ a.toNat ≤ 0xF4) (hb : IsTail b)
      (hc : IsTail c) (hd : IsTail d) (hlong : a.toNat = 0xF0 → 0x90 ≤ b.toNat)
      (hrange : a.toNat = 0xF4 → b.toNat ≤ 0x8F) : TableSequence [a, b, c, d]

theorem wellFormedSequence_iff_tableSequence (bs : List UInt8) :
    WellFormedSequence bs ↔ TableSequence bs := by
  constructor
  · rintro ⟨row, hr, hbs⟩
    simp only [table37, mem_cons, not_mem_nil, or_false] at hr
    rcases hr with rfl | rfl | rfl | rfl | rfl | rfl | rfl | rfl | rfl <;>
      simp only [forall₂_cons_left_iff, forall₂_nil_left_iff] at hbs
    · obtain ⟨a, _, ha, rfl, rfl⟩ := hbs
      exact .one (by omega)
    · obtain ⟨a, _, ha, ⟨b, _, hb, rfl, rfl⟩, rfl⟩ := hbs
      exact .two ha hb
    iterate 4
      · obtain ⟨a, _, ha, ⟨b, _, hb, ⟨c, _, hc, rfl, rfl⟩, rfl⟩, rfl⟩ := hbs
        exact .three (by omega) ⟨by omega, by omega⟩ hc (by omega) (by omega)
    iterate 3
      · obtain ⟨a, _, ha, ⟨b, _, hb, ⟨c, _, hc, ⟨d, _, hd, rfl, rfl⟩, rfl⟩, rfl⟩, rfl⟩ := hbs
        exact .four (by omega) ⟨by omega, by omega⟩ hc hd (by omega) (by omega)
  · intro h
    cases h with
    | one ha => exact ⟨[(0x00, 0x7F)], by decide, by simpa using by omega⟩
    | two ha hb => exact ⟨[(0xC2, 0xDF), (0x80, 0xBF)], by decide, by simpa using ⟨ha, hb⟩⟩
    | @three a b c ha hb hc hl hs =>
      have hr (lo hi lo' hi' : Nat) (hm : [(lo, hi), (lo', hi'), (0x80, 0xBF)] ∈ table37)
          (ha : lo ≤ a.toNat ∧ a.toNat ≤ hi) (hb : lo' ≤ b.toNat ∧ b.toNat ≤ hi') :
          WellFormedSequence [a, b, c] :=
        ⟨_, hm, .cons ha (.cons hb (.cons hc .nil))⟩
      obtain ⟨hb, hb'⟩ := hb
      rcases (by omega : a.toNat = 0xE0 ∨ a.toNat ≤ 0xEC ∧ 0xE1 ≤ a.toNat ∨ a.toNat = 0xED ∨
        0xEE ≤ a.toNat) with h | h | h | h
      · exact hr 0xE0 0xE0 0xA0 0xBF (by decide) (by omega) (by omega)
      · exact hr 0xE1 0xEC 0x80 0xBF (by decide) (by omega) (by omega)
      · exact hr 0xED 0xED 0x80 0x9F (by decide) (by omega) (by omega)
      · exact hr 0xEE 0xEF 0x80 0xBF (by decide) (by omega) (by omega)
    | @four a b c d ha hb hc hd hl hrn =>
      have hr (lo hi lo' hi' : Nat)
          (hm : [(lo, hi), (lo', hi'), (0x80, 0xBF), (0x80, 0xBF)] ∈ table37)
          (ha : lo ≤ a.toNat ∧ a.toNat ≤ hi) (hb : lo' ≤ b.toNat ∧ b.toNat ≤ hi') :
          WellFormedSequence [a, b, c, d] :=
        ⟨_, hm, .cons ha (.cons hb (.cons hc (.cons hd .nil)))⟩
      obtain ⟨hb, hb'⟩ := hb
      rcases (by omega : a.toNat = 0xF0 ∨ a.toNat ≤ 0xF3 ∧ 0xF1 ≤ a.toNat ∨ a.toNat = 0xF4)
        with h | h | h
      · exact hr 0xF0 0xF0 0x90 0xBF (by decide) (by omega) (by omega)
      · exact hr 0xF1 0xF3 0x80 0xBF (by decide) (by omega) (by omega)
      · exact hr 0xF4 0xF4 0x80 0x8F (by decide) (by omega) (by omega)

/-- The sequences of the table are the UTF-8 forms of the scalar values. -/
theorem tableSequence_iff (bs : List UInt8) :
    TableSequence bs ↔ ∃ c : ScalarValue, bs = utf8 c := by
  constructor
  · intro h
    cases h with
    | @one a ha => exact ⟨⟨a.toNat, .inl (by omega)⟩, (utf8_one ha).symm⟩
    | two ha hb =>
      obtain ⟨hb, hb'⟩ := hb
      exact ⟨⟨_, .inl (by omega)⟩, (utf8_two ha ⟨hb, hb'⟩).symm⟩
    | @three a b c ha hb hc hl hs =>
      obtain ⟨hb, hb'⟩ := hb
      obtain ⟨hc, hc'⟩ := hc
      refine ⟨⟨_, ?_⟩, (utf8_three ha ⟨hb, hb'⟩ ⟨hc, hc'⟩ hl).symm⟩
      unfold IsScalarValue
      omega
    | four ha hb hc hd hl hrn =>
      obtain ⟨hb, hb'⟩ := hb
      obtain ⟨hc, hc'⟩ := hc
      obtain ⟨hd, hd'⟩ := hd
      refine ⟨⟨_, ?_⟩, (utf8_four ha ⟨hb, hb'⟩ ⟨hc, hc'⟩ ⟨hd, hd'⟩ hl).symm⟩
      unfold IsScalarValue
      omega
  · rintro ⟨⟨c, hc⟩, rfl⟩
    unfold IsScalarValue at hc
    simp only [utf8]
    split_ifs with h1 h2 h3
    · exact .one (by rwa [toNat_ofNat_byte (by omega)])
    · have ha := toNat_ofNat_byte (show 0xC0 + c / 0x40 < 0x100 by omega)
      have hb := toNat_ofNat_byte (show 0x80 + c % 0x40 < 0x100 by omega)
      exact .two (by omega) ⟨by omega, by omega⟩
    · have ha := toNat_ofNat_byte (show 0xE0 + c / 0x1000 < 0x100 by omega)
      have hb := toNat_ofNat_byte (show 0x80 + c / 0x40 % 0x40 < 0x100 by omega)
      have hc := toNat_ofNat_byte (show 0x80 + c % 0x40 < 0x100 by omega)
      exact .three (by omega) ⟨by omega, by omega⟩ ⟨by omega, by omega⟩ (by omega) (by omega)
    · have ha := toNat_ofNat_byte (show 0xF0 + c / 0x40000 < 0x100 by omega)
      have hb := toNat_ofNat_byte (show 0x80 + c / 0x1000 % 0x40 < 0x100 by omega)
      have hc := toNat_ofNat_byte (show 0x80 + c / 0x40 % 0x40 < 0x100 by omega)
      have hd := toNat_ofNat_byte (show 0x80 + c % 0x40 < 0x100 by omega)
      exact .four (by omega) ⟨by omega, by omega⟩ ⟨by omega, by omega⟩ ⟨by omega, by omega⟩
        (by omega) (by omega)

theorem wellFormedUnits_iff (units : List UInt16) :
    WellFormedUnits units ↔ ∃ c : ScalarValue, units = utf16 c := by
  constructor
  · intro h
    cases h with
    | @single unit h =>
      have hlt := unit.toNat_lt
      refine ⟨⟨unit.toNat, by unfold IsScalarValue; omega⟩, ?_⟩
      simp only [utf16, if_pos hlt, UInt16.ofNat_toNat]
    | @pair lead trail hld ht =>
      refine ⟨⟨0x10000 + (lead.toNat - 0xD800) * 0x400 + (trail.toNat - 0xDC00),
        .inr (by omega)⟩, ?_⟩
      simp only [utf16]
      rw [if_neg (by omega)]
      simp only [cons.injEq, and_true, ← UInt16.toNat_inj]
      rw [toNat_ofNat_unit (by omega), toNat_ofNat_unit (by omega)]
      omega
  · rintro ⟨⟨c, hc⟩, rfl⟩
    unfold IsScalarValue at hc
    simp only [utf16]
    split_ifs with h
    · exact .single (by rw [toNat_ofNat_unit h]; omega)
    · refine .pair ?_ ?_
      · rw [toNat_ofNat_unit (by omega)]; omega
      · rw [toNat_ofNat_unit (by omega)]; omega

/-- Text that splits into pieces of one kind is the concatenation of encodings
of that kind. -/
theorem exists_flatten_iff {α γ : Type*} {P : List α → Prop} {encode}
    (h : ∀ pc, P pc ↔ ∃ c, pc = encode c) (text : List α) :
    (∃ pieces : List (List α), (∀ pc ∈ pieces, P pc) ∧ text = pieces.flatten) ↔
      ∃ cs : List γ, text = cs.flatMap encode := by
  constructor
  · rintro ⟨pieces, hp, rfl⟩
    induction pieces with
    | nil => exact ⟨[], rfl⟩
    | cons pc rest ih =>
      simp only [mem_cons, forall_eq_or_imp] at hp
      obtain ⟨c, rfl⟩ := (h pc).mp hp.1
      obtain ⟨cs, hcs⟩ := ih hp.2
      exact ⟨c :: cs, by rw [flatten_cons, hcs, flatMap_cons]⟩
  · rintro ⟨cs, rfl⟩
    refine ⟨cs.map encode, ?_, flatMap_def⟩
    simp only [mem_map, forall_exists_index, and_imp, forall_apply_eq_imp_iff₂]
    exact fun c _ => (h _).mpr ⟨c, rfl⟩

/-- Well-formed UTF-8 is a sequence of encoded scalar values. -/
theorem wellFormedUTF8_iff (bs : List UInt8) : WellFormedUTF8 bs ↔ ∃ cs, bs = utf8Text cs :=
  exists_flatten_iff
    (fun pc => (wellFormedSequence_iff_tableSequence pc).trans (tableSequence_iff pc))
    bs

/-- Well-formed UTF-16 is a sequence of encoded scalar values. -/
theorem wellFormedUTF16_iff (units : List UInt16) :
    WellFormedUTF16 units ↔ ∃ cs, units = utf16Text cs :=
  exists_flatten_iff wellFormedUnits_iff units

end QtWebKit.EncodingForms
