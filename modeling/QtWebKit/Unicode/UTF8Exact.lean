import QtWebKit.Unicode.UTF8Sequences

/-!
# What the converters convert

Both converters are instances of a transcoding loop. From UTF-16 the strict
loop reads exactly the scalar values. From UTF-8 it reads the legal sequences,
so its report is exact unless it converts a loose sequence.
-/

namespace QtWebKit.Unicode

open EncodingForms Transcoding List

/-! ### The loop from UTF-8 -/

/-- The sequence a source starts with: its code units and the source behind it. -/
def decodeNext : List UInt8 → ConversionResult ⊕ (List UInt16 × List UInt8)
  | [] => .inl .sourceExhausted
  | b0 :: tail =>
    if (b0 :: tail).length < inlineUTF8SequenceLength b0 then .inl .sourceExhausted
    else if isLegalUTF8 (b0 :: tail) (inlineUTF8SequenceLength b0) then
      .inr (utf16 (readUTF8Sequence (b0 :: tail) (inlineUTF8SequenceLength b0)),
        (b0 :: tail).drop (inlineUTF8SequenceLength b0))
    else .inl .sourceIllegal

theorem decodeNext_stop {src res} (h : decodeNext src = .inl res) :
    res = .sourceExhausted ∨ res = .sourceIllegal := by
  cases src with
  | nil => exact .inl (Sum.inl.inj h).symm
  | cons b0 tail =>
    simp only [decodeNext] at h
    split_ifs at h
    · exact .inl (Sum.inl.inj h).symm
    · exact .inr (Sum.inl.inj h).symm

/-- A step succeeds at the start of a legal sequence. -/
theorem decodeNext_append {bs : List UInt8} (h : LegalSequence bs) (rest : List UInt8) :
    decodeNext (bs ++ rest) =
      .inr (utf16 (readUTF8Sequence bs bs.length), rest) := by
  obtain ⟨b0, tail, hbs, hln⟩ := h.length_eq
  have hl := h.isLegalUTF8_append rest
  have hrd := readUTF8Sequence_append bs rest
  have hd : (bs ++ rest).drop bs.length = rest := drop_left
  have hsh : ¬ (bs ++ rest).length < bs.length := by
    rw [length_append]; omega
  rw [hbs, cons_append] at hl hrd hd hsh ⊢
  rw [hbs] at hln
  simp only [decodeNext, hln, if_neg hsh, if_pos hl, hrd, hd]

/-- A step consumes a legal sequence. -/
theorem exists_legalSequence_of_decodeNext {src rest units}
    (h : decodeNext src = .inr (units, rest)) :
    ∃ bs : { bs // LegalSequence bs }, src = bs.val ++ rest ∧
      units = utf16 (readUTF8Sequence bs.val bs.val.length) := by
  cases src with
  | nil => cases h
  | cons b0 tail =>
    simp only [decodeNext] at h
    split_ifs at h with hsh hl
    cases h
    have hle : inlineUTF8SequenceLength b0 ≤ (b0 :: tail).length := by omega
    refine ⟨⟨_, legalSequence_take hle hl⟩, (take_append_drop _ _).symm, ?_⟩
    simp only [readUTF8Sequence, length_take, min_eq_left hle, take_take, min_self]

theorem legalSequence_ne_nil {bs} (h : LegalSequence bs) : bs ≠ [] := by
  obtain ⟨b0, tail, rfl, _⟩ := h.length_eq
  exact cons_ne_nil _ _

/-- The loop of `convertUTF8ToUTF16` as a transcoder. -/
def decoder : Transcoder UInt8 UInt16 ConversionResult where
  done := .conversionOK
  full := .targetExhausted
  next := decodeNext
  done_ne_full := by decide
  stop_ne_done h := by rcases decodeNext_stop h with rfl | rfl <;> decide
  stop_ne_full h := by rcases decodeNext_stop h with rfl | rfl <;> decide
  shorter h := by
    obtain ⟨⟨bytes, hbytes⟩, rfl, _⟩ := exists_legalSequence_of_decodeNext h
    have hpos := length_pos_iff.mpr (legalSequence_ne_nil hbytes)
    simp only [length_append]
    omega

theorem decoder_converts :
    Converts decoder (fun bs : { bs // LegalSequence bs } => bs.val)
      (fun bs => utf16 (readUTF8Sequence bs.val bs.val.length)) where
  encode_of_next _ _ _ h := exists_legalSequence_of_decodeNext h
  next_encode bs rest := decodeNext_append bs.property rest

variable (strict : Bool)

/-- One body of the loop, in either mode: a legal sequence never reads as a
surrogate or as a number above U+10FFFF, so no mode replaces or rejects it. -/
theorem convertUTF8ToUTF16Step_eq (b0 : UInt8) (tail : List UInt8) (room : Nat)
    (orAllData : UInt16) :
    (∀ res, decodeNext (b0 :: tail) = .inl res →
      convertUTF8ToUTF16Step strict b0 tail room orAllData = .inl res) ∧
    (∀ units rest, decodeNext (b0 :: tail) = .inr (units, rest) → if units.length ≤ room then
        ∃ orAllData', convertUTF8ToUTF16Step strict b0 tail room orAllData =
          .inr (units, rest, orAllData')
      else convertUTF8ToUTF16Step strict b0 tail room orAllData = .inl .targetExhausted) := by
  constructor
  · intro res h
    simp only [decodeNext] at h
    simp only [convertUTF8ToUTF16Step]
    split_ifs at h with hsh hl
    · rw [if_pos hsh, Sum.inl.inj h]
    · rw [if_neg hsh, if_pos (by simpa using hl), Sum.inl.inj h]
  · intro units rest h
    obtain ⟨⟨bs, hbs⟩, hsr, hu⟩ := exists_legalSequence_of_decodeNext h
    have hsc := hbs.isScalarValue
    simp only [decodeNext] at h
    split_ifs at h with hsh hl
    simp only [Sum.inr.injEq, Prod.mk.injEq] at h
    obtain ⟨b1, tail', hb1, hln⟩ := hbs.length_eq
    have hb0 : b0 = b1 := by
      simp only [hb1, cons_append, cons.injEq] at hsr
      exact hsr.1
    have hrd : readUTF8Sequence (b0 :: tail) (inlineUTF8SequenceLength b0) =
        readUTF8Sequence bs bs.length := by
      rw [hb0, hln, ← hb0, hsr, readUTF8Sequence_append]
    simp only [convertUTF8ToUTF16Step, if_neg hsh, hl, Bool.not_true, Bool.false_eq_true,
      if_false, h.2, hrd]
    set c := readUTF8Sequence bs bs.length
    unfold IsScalarValue at hsc
    by_cases hbm : c < 0x10000
    · have hsu : ¬ isSurrogate c = true := by
        rw [isSurrogate_iff (by omega)]
        omega
      have hutf16 : utf16 c = [.ofNat c] := by rw [utf16, if_pos hbm]
      rw [hu, hutf16]
      by_cases hr : room = 0
      · simp [hr]
      · simp [hr, isBMP, Nat.le_of_lt_succ hbm, hsu, Nat.one_le_iff_ne_zero]
    · have hsp : isSupplementary c = true := by
        simp only [isSupplementary, Bool.and_eq_true, decide_eq_true_eq]
        omega
      rw [hu, ← u16_eq_utf16 (by omega) (by omega)]
      by_cases hr : room = 0
      · simp [hr]
      · by_cases hr' : room ≤ 1
        · have hn : ¬ 2 ≤ room := by omega
          simp [hr, isBMP, show ¬ c ≤ 0xFFFF by omega, hsp, hr', hn]
        · have hle : 2 ≤ room := by omega
          simp [hr, isBMP, show ¬ c ≤ 0xFFFF by omega, hsp, hr', hle]

theorem convertUTF8ToUTF16Loop_eq (src : List UInt8) (room : Nat) (orAllData : UInt16) :
    (convertUTF8ToUTF16Loop strict src room orAllData).1 = decoder.run src room := by
  induction src using decoder.induction_on generalizing room orAllData with
  | nil => rw [convertUTF8ToUTF16Loop, decoder.run_nil]; rfl
  | stop src res hs h =>
    obtain ⟨b0, tail, rfl⟩ := exists_cons_of_ne_nil hs
    have hst := (convertUTF8ToUTF16Step_eq strict b0 tail room orAllData).1 res h
    rw [decoder.run_stop room hs h, convertUTF8ToUTF16Loop]
    split
    · rename_i res' h'
      rw [hst] at h'
      rw [Sum.inl.inj h']
    · rename_i h'
      rw [hst] at h'
      cases h'
  | step src units rest hs h ih =>
    obtain ⟨b0, tail, rfl⟩ := exists_cons_of_ne_nil hs
    have hst := (convertUTF8ToUTF16Step_eq strict b0 tail room orAllData).2 units rest h
    rw [decoder.run_next room hs h, convertUTF8ToUTF16Loop]
    split_ifs at hst with hr
    · obtain ⟨orAllData', hst⟩ := hst
      rw [if_pos hr]
      split
      · rename_i h'
        rw [hst] at h'
        cases h'
      · rename_i h'
        rw [hst] at h'
        cases h'
        simp only [ih]
    · rw [if_neg hr]
      split
      · rename_i res' h'
        rw [hst] at h'
        rw [← Sum.inl.inj h']
        rfl
      · rename_i h'
        rw [hst] at h'
        cases h'

/-- Both modes of `convertUTF8ToUTF16` report what the transcoder reports. -/
theorem convertUTF8ToUTF16_eq_run (src : List UInt8) (room : Nat) :
    (convertUTF8ToUTF16 strict src room).1 = decoder.run src room :=
  convertUTF8ToUTF16Loop_eq strict src room 0

/-! ### The loop from UTF-16 -/

/-- Writing backwards six bits at a time gives the UTF-8 bytes. -/
theorem writeUTF8_bytesToWrite {c} (hc : c < 0x110000) :
    writeUTF8 (bytesToWrite c).1 (bytesToWrite c).2 = utf8 c ∧
      (bytesToWrite c).1 = (utf8 c).length := by
  have ht (ch) : UInt8.ofNat ((ch ||| byteMark) &&& byteMask) =
      UInt8.ofNat (0x80 + ch % 0x40) := by
    have hlw : ∀ n < 2 ^ 8, (n ||| byteMark) &&& byteMask = 0x80 + n % 0x40 := by
      decide +kernel
    rw [← UInt8.toNat_inj, UInt8.toNat_ofNat', UInt8.toNat_ofNat', Nat.and_mod_two_pow,
      Nat.or_mod_two_pow]
    have hbt := hlw (ch % 2 ^ 8) (Nat.mod_lt _ (by decide))
    rw [show byteMark % 2 ^ 8 = byteMark by decide, show byteMask % 2 ^ 8 = byteMask by decide,
      hbt]
    omega
  have hlead2 : ∀ n < 0x20, n ||| 0xC0 = 0xC0 + n := by decide
  have hlead3 : ∀ n < 0x10, n ||| 0xE0 = 0xE0 + n := by decide
  have hlead4 : ∀ n < 0x08, n ||| 0xF0 = 0xF0 + n := by decide
  unfold bytesToWrite utf8
  split_ifs with h1 h2 h3
  · simp [writeUTF8, writeTrailing, firstByteMark]
  · simp only [writeUTF8, writeTrailing, firstByteMark, ht, Nat.reduceSub,
      Nat.shiftRight_eq_div_pow, length_cons, length_nil, and_true]
    rw [hlead2 _ (by omega)]
  · simp only [writeUTF8, writeTrailing, firstByteMark, ht, Nat.reduceSub,
      Nat.shiftRight_eq_div_pow, Nat.div_div_eq_div_mul, length_cons, length_nil,
      and_true]
    rw [hlead3 _ (by omega)]
  · simp only [writeUTF8, writeTrailing, firstByteMark, ht, Nat.reduceSub,
      Nat.shiftRight_eq_div_pow, Nat.div_div_eq_div_mul, length_cons, length_nil,
      and_true]
    rw [hlead4 _ (by omega)]

/-- The character a source starts with: its bytes and the source behind it. -/
def encodeNext : List UInt16 → ConversionResult ⊕ (List UInt8 × List UInt16)
  | [] => .inl .sourceExhausted
  | unit :: tail =>
    match readUTF16Character strict unit tail with
    | .inl result => .inl result
    | .inr (character, rest) => .inr (utf8 character, rest)

theorem readUTF16Character_stop {strict unit tail}
    {res} (h : readUTF16Character strict unit tail = .inl res) :
    res = .sourceExhausted ∨ res = .sourceIllegal := by
  simp only [readUTF16Character] at h
  split at h
  · split at h
    · split_ifs at h
      exact .inr (Sum.inl.inj h).symm
    · exact .inl (Sum.inl.inj h).symm
  · split_ifs at h
    exact .inr (Sum.inl.inj h).symm

theorem encodeNext_stop {strict src res} (h : encodeNext strict src = .inl res) :
    res = .sourceExhausted ∨ res = .sourceIllegal := by
  cases src with
  | nil => exact .inl (Sum.inl.inj h).symm
  | cons unit tail =>
    rw [encodeNext] at h
    split at h
    · cases h
      exact readUTF16Character_stop ‹_›
    · cases h

theorem encodeNext_next {strict src rest out}
    (h : encodeNext strict src = .inr (out, rest)) : ∃ unit tail c, src = unit :: tail ∧
      readUTF16Character strict unit tail = .inr (c, rest) ∧ utf8 c = out := by
  cases src with
  | nil => cases h
  | cons unit tail =>
    rw [encodeNext] at h
    split at h
    · cases h
    · cases h
      exact ⟨unit, tail, _, rfl, ‹_›, rfl⟩

/-- The character that is read, in either mode, and where it stood. -/
theorem readUTF16Character_next {strict unit tail rest}
    {c} (h : readUTF16Character strict unit tail = .inr (c, rest)) :
    unit :: tail = utf16 c ++ rest ∧ c < 0x110000 ∧ (strict = true → IsScalarValue c) := by
  have hun := unit.toNat_lt
  have hsn : utf16 unit.toNat = [unit] := by
    rw [utf16, if_pos hun, UInt16.ofNat_toNat]
  simp only [readUTF16Character, Bool.and_eq_true, decide_eq_true_eq, ge_iff_le] at h
  split at h
  · rename_i hh
    split at h
    · rename_i unit2 rest'
      split_ifs at h with hlw hsi
      · cases h
        refine ⟨?_, by simp only [Nat.shiftLeft_eq]; omega, fun _ => .inr ?_⟩
        · simp only [utf16, Nat.shiftLeft_eq]
          rw [if_neg (by omega)]
          simp only [cons_append, nil_append, cons.injEq, and_true,
            ← UInt16.toNat_inj]
          rw [toNat_ofNat_unit (by omega), toNat_ofNat_unit (by omega)]
          omega
        · simp only [Nat.shiftLeft_eq]
          omega
      · cases h
        exact ⟨by rw [hsn]; rfl, by omega, fun h => absurd h hsi⟩
    · cases h
  · rename_i hh
    split_ifs at h with hlw
    cases h
    refine ⟨by rw [hsn]; rfl, by omega, fun hsi => ?_⟩
    simp only [hsi, true_and] at hlw
    unfold IsScalarValue
    omega

theorem readUTF16Character_single (unit : UInt16) (tail : List UInt16)
    (h : unit.toNat < 0xD800 ∨ 0xE000 ≤ unit.toNat) :
    readUTF16Character strict unit tail = .inr (unit.toNat, tail) := by
  simp only [readUTF16Character, Bool.and_eq_true, decide_eq_true_eq, ge_iff_le]
  rw [if_neg (by omega), if_neg (by omega)]

theorem readUTF16Character_pair (lead trail : UInt16) (rest : List UInt16)
    (hld : 0xD800 ≤ lead.toNat ∧ lead.toNat ≤ 0xDBFF)
    (ht : 0xDC00 ≤ trail.toNat ∧ trail.toNat ≤ 0xDFFF) :
    readUTF16Character strict lead (trail :: rest) =
      .inr (((lead.toNat - 0xD800) <<< 10) + (trail.toNat - 0xDC00) + 0x0010000, rest) := by
  simp [readUTF16Character, if_pos hld, if_pos ht]

/-- A step succeeds at the start of an encoded scalar value. -/
theorem encodeNext_append (c : ScalarValue) (rest : List UInt16) :
    encodeNext strict (utf16 c.val ++ rest) = .inr (utf8 c.val, rest) := by
  obtain ⟨c, hc⟩ := c
  unfold IsScalarValue at hc
  by_cases hbm : c < 0x10000
  · have hun := toNat_ofNat_unit hbm
    have hrd := readUTF16Character_single strict (.ofNat c) rest (by omega)
    rw [utf16, if_pos hbm, singleton_append, encodeNext, hrd, hun]
  · have hld := toNat_ofNat_unit (show 0xD800 + (c - 0x10000) / 0x400 < 0x10000 by omega)
    have ht := toNat_ofNat_unit (show 0xDC00 + (c - 0x10000) % 0x400 < 0x10000 by omega)
    rw [utf16, if_neg hbm, cons_append, singleton_append]
    generalize UInt16.ofNat (0xD800 + (c - 0x10000) / 0x400) = lead at *
    generalize UInt16.ofNat (0xDC00 + (c - 0x10000) % 0x400) = trail at *
    have hv : ((lead.toNat - 0xD800) <<< 10) + (trail.toNat - 0xDC00) + 0x0010000 = c := by
      rw [Nat.shiftLeft_eq]
      omega
    have hrd := readUTF16Character_pair strict lead trail rest (by omega) (by omega)
    rw [hv] at hrd
    rw [encodeNext, hrd]

/-- The loop of `convertUTF16ToUTF8` as a transcoder. -/
def encoder : Transcoder UInt16 UInt8 ConversionResult where
  done := .conversionOK
  full := .targetExhausted
  next := encodeNext strict
  done_ne_full := by decide
  stop_ne_done {source result} h := by
    rcases encodeNext_stop h with rfl | rfl <;> decide
  stop_ne_full {source result} h := by
    rcases encodeNext_stop h with rfl | rfl <;> decide
  shorter {source out rest} h := by
    obtain ⟨unit, tail, c, rfl, hread, -⟩ := encodeNext_next h
    exact Nat.lt_succ_of_le (readUTF16Character_length_le hread)

/-- In either mode the loop consumes encoded code points. -/
theorem encoder_reads :
    Reads (encoder strict) (fun c : { c : Nat // c < 0x110000 } => utf16 c.val)
      (fun c => utf8 c.val) where
  encode_of_next src out rest h := by
    obtain ⟨unit, tail, c, rfl, hrd, rfl⟩ := encodeNext_next h
    obtain ⟨hsr, hlt, _⟩ := readUTF16Character_next hrd
    exact ⟨⟨c, hlt⟩, hsr, rfl⟩

/-- In strict mode it consumes exactly the encoded scalar values. -/
theorem encoder_converts :
    Converts (encoder true) (fun c : ScalarValue => utf16 c.val) (fun c => utf8 c.val) where
  encode_of_next src out rest h := by
    obtain ⟨unit, tail, c, rfl, hrd, rfl⟩ := encodeNext_next h
    obtain ⟨hsr, _, hsc⟩ := readUTF16Character_next hrd
    exact ⟨⟨c, hsc rfl⟩, hsr, rfl⟩
  next_encode c rest := encodeNext_append true c rest

theorem convertUTF16ToUTF8Step_eq (unit : UInt16) (tail : List UInt16) (room : Nat) :
    convertUTF16ToUTF8Step strict unit tail room =
      match encodeNext strict (unit :: tail) with
      | .inl res => .inl res
      | .inr (bs, rest) =>
        if bs.length ≤ room then .inr (bs, rest) else .inl .targetExhausted := by
  simp only [convertUTF16ToUTF8Step, encodeNext]
  cases hrd : readUTF16Character strict unit tail with
  | inl res => rfl
  | inr next =>
    obtain ⟨c, rest⟩ := next
    obtain ⟨_, hlt, _⟩ := readUTF16Character_next hrd
    obtain ⟨hbs, hln⟩ := writeUTF8_bytesToWrite hlt
    simp only [hbs, gt_iff_lt]
    rw [hln]
    by_cases hr : (utf8 c).length ≤ room
    · rw [if_neg (by omega), if_pos hr]
    · rw [if_pos (by omega), if_neg hr]

/-- Both modes of `convertUTF16ToUTF8` report what the transcoder reports. -/
theorem convertUTF16ToUTF8_eq_run (src : List UInt16) (room : Nat) :
    convertUTF16ToUTF8 strict src room = (encoder strict).run src room := by
  induction src using (encoder strict).induction_on generalizing room with
  | nil => rw [convertUTF16ToUTF8, (encoder strict).run_nil]; rfl
  | stop src res hs h =>
    obtain ⟨unit, tail, rfl⟩ := exists_cons_of_ne_nil hs
    have hst := convertUTF16ToUTF8Step_eq strict unit tail room
    rw [show encodeNext strict (unit :: tail) = _ from h] at hst
    rw [(encoder strict).run_stop room hs h, convertUTF16ToUTF8]
    split
    · rename_i h'
      rw [hst] at h'
      rw [Sum.inl.inj h']
    · rename_i h'
      rw [hst] at h'
      cases h'
  | step src bs rest hs h ih =>
    obtain ⟨unit, tail, rfl⟩ := exists_cons_of_ne_nil hs
    have hst := convertUTF16ToUTF8Step_eq strict unit tail room
    rw [show encodeNext strict (unit :: tail) = _ from h] at hst
    rw [(encoder strict).run_next room hs h, convertUTF16ToUTF8]
    dsimp only at hst
    split_ifs at hst with hr
    · rw [if_pos hr]
      split
      · rename_i h'
        rw [hst] at h'
        cases h'
      · rename_i h'
        rw [hst] at h'
        cases h'
        simp only [ih]
    · rw [if_neg hr]
      split
      · rename_i h'
        rw [hst] at h'
        rw [← Sum.inl.inj h']
        rfl
      · rename_i h'
        rw [hst] at h'
        cases h'

end QtWebKit.Unicode
