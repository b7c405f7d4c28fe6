import QtWebKit.Unicode.UTF8Exact

/-!
# Exactness, round trips and resumption of the converters

A report is exact when it succeeds just on well-formed text that fits, and when
in every case the target holds the conversion of the text in front of the
source pointer. The strict conversion from UTF-16 is always exact. The one from
UTF-8 is exact unless it converts a loose sequence.
-/

namespace QtWebKit.Unicode

open EncodingForms Transcoding List

/-- What a report of a strict conversion should say. -/
structure ExactReport {α β : Type*} (wellFormed : List α → Prop)
    (text : List ScalarValue → List α) (text' : List ScalarValue → List β) (source : List α)
    (room : Nat) (report : Conversion ConversionResult α β) : Prop where
  ok_iff : report.result = .conversionOK ↔
    wellFormed source ∧ ∀ cs, source = text cs → (text' cs).length ≤ room
  position : ∃ cs, source = text cs ++ report.source ∧ report.target = text' cs
  source_eq_nil_iff : report.source = [] ↔ report.result = .conversionOK

/-- The conversion reaches a loose sequence behind well-formed text, and the
target has room for the one or two code units it is read as. -/
def ConvertsLoose (source : List UInt8) (room : Nat) : Prop :=
  ∃ cs bytes rest, LooseSequence bytes ∧ source = utf8Text cs ++ (bytes ++ rest) ∧
    (utf16Text cs).length + (bytes.length - 2) ≤ room

/-- Continuing into new targets gives the report of one call with enough room,
and comes to an end when every target holds `most` units. -/
def Resumes {α β : Type*} (convert : List α → Nat → Conversion ConversionResult α β)
    (most : Nat) : Prop :=
  ∀ rooms source,
    ((∀ room ∈ rooms, most ≤ room) → source.length < rooms.length →
      (resume .targetExhausted convert rooms source).result ≠ .targetExhausted) ∧
    ∀ room, (resume .targetExhausted convert rooms source).result ≠ .targetExhausted →
      (resume .targetExhausted convert rooms source).target.length ≤ room →
      convert source room = resume .targetExhausted convert rooms source

/-- The report of `convertUTF8ToUTF16` without `sourceAllASCII`. -/
def convertUTF8ToUTF16Report (strict : Bool) (source : List UInt8) (room : Nat) :
    Conversion ConversionResult UInt8 UInt16 :=
  (convertUTF8ToUTF16 strict source room).1

theorem convertUTF8ToUTF16Report_eq (strict : Bool) :
    convertUTF8ToUTF16Report strict = decoder.run := by
  funext src room
  exact convertUTF8ToUTF16_eq_run strict src room

theorem convertUTF16ToUTF8_eq (strict : Bool) :
    convertUTF16ToUTF8 strict = (encoder strict).run := by
  funext src room
  exact convertUTF16ToUTF8_eq_run strict src room

/-! ### Texts as sequences -/

/-- An encoded scalar value as a legal sequence. -/
def scalarSequence (c : ScalarValue) : { bytes // LegalSequence bytes } :=
  ⟨utf8 c.val, .inl ((tableSequence_iff _).mpr ⟨c, rfl⟩)⟩

variable (sequences : List { bs // LegalSequence bs })

/-- The bytes of legal sequences. -/
def sequenceBytes : List UInt8 :=
  sequences.flatMap fun bytes => bytes.val

/-- The code units legal sequences are read as. -/
def sequenceUnits : List UInt16 :=
  sequences.flatMap fun bytes => utf16 (readUTF8Sequence bytes.val bytes.val.length)

theorem sequenceBytes_map (cs : List ScalarValue) :
    sequenceBytes (cs.map scalarSequence) = utf8Text cs := by
  simp only [sequenceBytes, utf8Text, flatMap_map, scalarSequence]

theorem sequenceUnits_map (cs : List ScalarValue) :
    sequenceUnits (cs.map scalarSequence) = utf16Text cs := by
  simp only [sequenceUnits, utf16Text, flatMap_map, scalarSequence, readUTF8Sequence_utf8]

/-- Legal sequences are a text, or contain a first loose sequence behind one. -/
theorem sequences_cases :
    (∃ cs : List ScalarValue, sequences = cs.map scalarSequence) ∨
      ∃ (cs : List ScalarValue) (bs : { bs // LegalSequence bs })
        (rest : List { bs // LegalSequence bs }),
        sequences = cs.map scalarSequence ++ bs :: rest ∧ LooseSequence bs.val := by
  induction sequences with
  | nil => exact .inl ⟨[], rfl⟩
  | cons bs sequences ih =>
    rcases bs.property with htb | hl
    · obtain ⟨c, hc⟩ := (tableSequence_iff bs.val).mp htb
      have hby : bs = scalarSequence c := Subtype.ext hc
      rcases ih with ⟨cs, rfl⟩ | ⟨cs, bs', rest, rfl, hl⟩
      · exact .inl ⟨c :: cs, by rw [hby, map_cons]⟩
      · exact .inr ⟨c :: cs, bs', rest, by rw [hby, map_cons, cons_append], hl⟩
    · exact .inr ⟨[], bs, sequences, rfl, hl⟩

/-- A text holds no loose sequence. -/
theorem not_looseSequence_of_mem_map {cs : List ScalarValue}
    {bs : { bs // LegalSequence bs }} (h : bs ∈ cs.map scalarSequence) :
    ¬ LooseSequence bs.val := by
  obtain ⟨c, _, rfl⟩ := mem_map.mp h
  exact not_looseSequence_of_tableSequence ((tableSequence_iff _).mpr ⟨c, rfl⟩)

theorem sequenceBytes_injective {sequences sequences'}
    (h : sequenceBytes sequences = sequenceBytes sequences') : sequences = sequences' :=
  decoder_converts.flatMap_injective Subtype.val_injective h

theorem utf16Text_eq_of_utf8Text_eq {cs cs'} (h : utf8Text cs = utf8Text cs') :
    utf16Text cs = utf16Text cs' := by
  rw [← sequenceBytes_map, ← sequenceBytes_map] at h
  rw [← sequenceUnits_map, ← sequenceUnits_map, sequenceBytes_injective h]

/-- The code units of a loose sequence: one for three bytes, two for four. -/
theorem LooseSequence.length_units {bs : List UInt8} (h : LooseSequence bs) :
    (utf16 (readUTF8Sequence bs bs.length)).length = bs.length - 2 := by
  cases h with
  | three hb hc =>
    obtain ⟨hc, hc'⟩ := hc
    simp only [length_cons, length_nil, Nat.reduceAdd, readUTF8Sequence_three,
      Nat.shiftLeft_eq, UInt8.reduceToNat, utf16]
    rw [if_pos (by omega)]
    rfl
  | four hb hc hd =>
    obtain ⟨hc, hc'⟩ := hc
    obtain ⟨hd, hd'⟩ := hd
    simp only [length_cons, length_nil, Nat.reduceAdd, readUTF8Sequence_four,
      Nat.shiftLeft_eq, UInt8.reduceToNat, utf16]
    rw [if_neg (by omega)]
    rfl

/-! ### From UTF-8 -/

/-- A report as legal sequences. -/
theorem decoder_run_spec (src : List UInt8) (room : Nat) :
    ∃ sequences, src = sequenceBytes sequences ++ (decoder.run src room).source ∧
      (decoder.run src room).target = sequenceUnits sequences ∧
      (sequenceUnits sequences).length ≤ room := by
  obtain ⟨sequences, hs, ht, hn, -⟩ := decoder_converts.run_spec src room
  rw [ht] at hn
  exact ⟨sequences, hs, ht, hn⟩

/-- The sequences that a conversion which converts a loose one has read are no text. -/
theorem ConvertsLoose.sequences_ne {src room} (h : ConvertsLoose src room) (cs : List ScalarValue) :
    src ≠ utf8Text cs ++ (decoder.run src room).source := by
  obtain ⟨pre, bs, rest, hl, hs, hr⟩ := h
  set loose : { bs // LegalSequence bs } := ⟨bs, .inr hl⟩ with hdf
  have hrd : src = sequenceBytes (pre.map scalarSequence ++ [loose]) ++ rest := by
    rw [hs, ← sequenceBytes_map, ← append_assoc]
    simp [sequenceBytes, hdf]
  have hun : (sequenceUnits (pre.map scalarSequence ++ [loose])).length ≤ room := by
    have ha : sequenceUnits (pre.map scalarSequence ++ [loose]) =
        utf16Text pre ++ utf16 (readUTF8Sequence bs bs.length) := by
      rw [← sequenceUnits_map]
      simp [sequenceUnits, hdf]
    rw [ha, length_append, hl.length_units]
    exact hr
  have hu := decoder_converts.run_append (pre.map scalarSequence ++ [loose]) rest hun
  obtain ⟨after, haf, -⟩ :=
    decoder_run_spec rest (room - (sequenceUnits (pre.map scalarSequence ++ [loose])).length)
  intro htx
  have he : (decoder.run src room).source = (decoder.run rest
      (room - (sequenceUnits (pre.map scalarSequence ++ [loose])).length)).source := by
    have hs' := congrArg Conversion.source hu
    rw [hrd]
    exact hs'
  have hby : sequenceBytes (cs.map scalarSequence) =
      sequenceBytes (pre.map scalarSequence ++ loose :: after) := by
    refine append_cancel_right (show _ ++ (decoder.run src room).source =
      _ ++ (decoder.run src room).source from ?_)
    rw [sequenceBytes_map, ← htx]
    nth_rewrite 1 [hrd]
    nth_rewrite 1 [haf]
    rw [he]
    simp [sequenceBytes]
  have hm : loose ∈ cs.map scalarSequence := by
    rw [sequenceBytes_injective hby]
    exact mem_append_right _ mem_cons_self
  exact not_looseSequence_of_mem_map hm hl

/-- Unless a loose sequence is converted, what is read is a text. -/
theorem exists_text_of_not_convertsLoose {src room} (h : ¬ ConvertsLoose src room) :
    ∃ cs, src = utf8Text cs ++ (decoder.run src room).source ∧
      (decoder.run src room).target = utf16Text cs ∧ (utf16Text cs).length ≤ room := by
  obtain ⟨sequences, hs, ht, hn⟩ := decoder_run_spec src room
  rcases sequences_cases sequences with ⟨cs, rfl⟩ | ⟨cs, bs, rest, rfl, hl⟩
  · rw [sequenceBytes_map] at hs
    rw [sequenceUnits_map] at ht hn
    exact ⟨cs, hs, ht, hn⟩
  · exfalso
    apply h
    refine ⟨cs, bs.val, sequenceBytes rest ++ (decoder.run src room).source, hl, ?_, ?_⟩
    · nth_rewrite 1 [hs]
      rw [← sequenceBytes_map]
      simp [sequenceBytes]
    · have ha : sequenceUnits (cs.map scalarSequence ++ bs :: rest) =
          utf16Text cs ++ (utf16 (readUTF8Sequence bs.val bs.val.length) ++
            sequenceUnits rest) := by
        rw [← sequenceUnits_map]
        simp [sequenceUnits]
      rw [ha, length_append, length_append, hl.length_units] at hn
      omega

theorem decoder_run_utf8Text (cs : List ScalarValue) {room} (hr : (utf16Text cs).length ≤ room) :
    decoder.run (utf8Text cs) room = ⟨.conversionOK, [], utf16Text cs⟩ := by
  rw [← sequenceUnits_map] at hr ⊢
  rw [← sequenceBytes_map]
  exact decoder_converts.run_encode (cs.map scalarSequence) hr

theorem decoder_exactReport_iff (src : List UInt8) (room : Nat) :
    ExactReport WellFormedUTF8 utf8Text utf16Text src room (decoder.run src room) ↔
      ¬ ConvertsLoose src room := by
  constructor
  · rintro ⟨_, ⟨cs, hs, _⟩, _⟩ hl
    exact hl.sequences_ne cs hs
  · intro h
    have hnl := decoder_converts.run_source_eq_nil_iff src room
    obtain ⟨cs, hs, ht, hn⟩ := exists_text_of_not_convertsLoose h
    refine ⟨⟨fun hok => ?_, fun ⟨hw, hr⟩ => ?_⟩, ⟨cs, hs, ht⟩, hnl⟩
    · rw [hnl.mpr hok, append_nil] at hs
      refine ⟨(wellFormedUTF8_iff src).mpr ⟨cs, hs⟩, fun cs' hcs' => ?_⟩
      rw [← utf16Text_eq_of_utf8Text_eq (hs.symm.trans hcs')]
      exact hn
    · obtain ⟨cs', rfl⟩ := (wellFormedUTF8_iff src).mp hw
      rw [decoder_run_utf8Text cs' (hr cs' rfl)]

/-! ### From UTF-16 -/

theorem encoder_run_utf16Text (cs : List ScalarValue) {room} (hr : (utf8Text cs).length ≤ room) :
    (encoder true).run (utf16Text cs) room = ⟨.conversionOK, [], utf8Text cs⟩ :=
  encoder_converts.run_encode cs hr

theorem encoder_exactReport (src : List UInt16) (room : Nat) :
    ExactReport WellFormedUTF16 utf16Text utf8Text src room
      ((encoder true).run src room) := by
  obtain ⟨cs, hs, ht, hn, -⟩ := encoder_converts.run_spec src room
  have hnl := encoder_converts.run_source_eq_nil_iff src room
  rw [ht] at hn
  refine ⟨⟨fun hok => ?_, fun ⟨hw, hr⟩ => ?_⟩, ⟨cs, hs, ht⟩, hnl⟩
  · rw [hnl.mpr hok, append_nil] at hs
    refine ⟨(wellFormedUTF16_iff src).mpr ⟨cs, hs⟩, fun cs' hcs' => ?_⟩
    have htx := encoder_converts.flatMap_target_eq (hs.symm.trans hcs')
    rw [htx] at hn
    exact hn
  · obtain ⟨cs', rfl⟩ := (wellFormedUTF16_iff src).mp hw
    rw [encoder_run_utf16Text cs' (hr cs' rfl)]

/-! ### Round trips -/

theorem length_utf8_le (c : Nat) : (utf8 c).length ≤ 4 := by
  unfold utf8
  split_ifs <;> simp

theorem length_utf16_le (c : Nat) : (utf16 c).length ≤ 2 := by
  unfold utf16
  split_ifs <;> simp

/-- Code units that were converted are read back. -/
theorem decoder_run_encoder_run {src : List UInt16} {room room'}
    (hok : ((encoder true).run src room).result = .conversionOK) (hr : src.length ≤ room') :
    decoder.run ((encoder true).run src room).target room' = ⟨.conversionOK, [], src⟩ := by
  obtain ⟨cs, hs, ht, -⟩ := encoder_converts.run_spec src room
  rw [(encoder_converts.run_source_eq_nil_iff src room).mpr hok, append_nil] at hs
  subst hs
  rw [ht]
  exact decoder_run_utf8Text cs hr

/-- Bytes that were converted are read back unless a loose sequence was among them. -/
theorem encoder_run_decoder_run_iff {src : List UInt8} {room room'}
    (hok : (decoder.run src room).result = .conversionOK) (hr : src.length ≤ room') :
    (encoder true).run (decoder.run src room).target room' = ⟨.conversionOK, [], src⟩ ↔
      ¬ ConvertsLoose src room := by
  have hnl := (decoder_converts.run_source_eq_nil_iff src room).mpr hok
  constructor
  · intro hbc hl
    obtain ⟨cs, -, ht⟩ :=
      (encoder_exactReport (decoder.run src room).target room').position
    rw [hbc] at ht
    apply hl.sequences_ne cs
    rw [hnl, append_nil]
    exact ht
  · intro h
    obtain ⟨cs, hs, ht, -⟩ := exists_text_of_not_convertsLoose h
    rw [hnl, append_nil] at hs
    rw [ht]
    subst hs
    exact encoder_run_utf16Text cs hr

/-! ### Resumption -/

theorem convertUTF8ToUTF16Report_resumes (strict : Bool) :
    Resumes (convertUTF8ToUTF16Report strict) 2 := by
  rw [convertUTF8ToUTF16Report_eq]
  intro rooms src
  refine ⟨decoder.resume_finishes (fun src units rest h => ?_) rooms src,
    fun room hdn hr => decoder.resume_eq_run rooms src hdn room hr⟩
  obtain ⟨bs, _, rfl⟩ := exists_legalSequence_of_decodeNext h
  exact length_utf16_le _

theorem convertUTF16ToUTF8_resumes (strict : Bool) : Resumes (convertUTF16ToUTF8 strict) 4 := by
  rw [convertUTF16ToUTF8_eq]
  intro rooms src
  refine ⟨(encoder strict).resume_finishes (fun src bs rest h => ?_) rooms src,
    fun room hdn hr => (encoder strict).resume_eq_run rooms src hdn room hr⟩
  obtain ⟨c, _, rfl⟩ := (encoder_reads strict).encode_of_next _ _ _ h
  exact length_utf8_le _

/-- The conversion from UTF-8 is exact, and converting its result back gives the
source, exactly when it converts no loose sequence. Everything else holds of
every source: the conversion from UTF-16 is exact and can be converted back, in
lenient mode its target is the conversion of the code points in front of the
source pointer, and both conversions can be resumed. -/
theorem exactReport_iff_not_convertsLoose (strict : Bool) (bytes : List UInt8)
    (units : List UInt16) (room room' : Nat) :
    (ExactReport WellFormedUTF8 utf8Text utf16Text bytes room
      (convertUTF8ToUTF16Report strict bytes room) ↔ ¬ ConvertsLoose bytes room) ∧
    ((convertUTF8ToUTF16Report strict bytes room).result = .conversionOK → bytes.length ≤ room' →
      (convertUTF16ToUTF8 true (convertUTF8ToUTF16Report strict bytes room).target room' =
        ⟨.conversionOK, [], bytes⟩ ↔ ¬ ConvertsLoose bytes room)) ∧
    ExactReport WellFormedUTF16 utf16Text utf8Text units room
      (convertUTF16ToUTF8 true units room) ∧
    ((convertUTF16ToUTF8 true units room).result = .conversionOK → units.length ≤ room' →
      convertUTF8ToUTF16Report strict (convertUTF16ToUTF8 true units room).target room' =
        ⟨.conversionOK, [], units⟩) ∧ (∃ cs : List { c : Nat // c < 0x110000 },
      units = cs.flatMap (fun c => utf16 c.val) ++ (convertUTF16ToUTF8 false units room).source ∧
      (convertUTF16ToUTF8 false units room).target = cs.flatMap (fun c => utf8 c.val)) ∧
    Resumes (convertUTF8ToUTF16Report strict) 2 ∧ Resumes (convertUTF16ToUTF8 strict) 4 := by
  refine ⟨?_, ?_, ?_, ?_, ?_, convertUTF8ToUTF16Report_resumes strict,
    convertUTF16ToUTF8_resumes strict⟩
  · rw [convertUTF8ToUTF16Report_eq]
    exact decoder_exactReport_iff bytes room
  · intro hok hroom
    rw [convertUTF8ToUTF16Report_eq] at hok ⊢
    rw [convertUTF16ToUTF8_eq]
    exact encoder_run_decoder_run_iff hok hroom
  · rw [convertUTF16ToUTF8_eq]
    exact encoder_exactReport units room
  · intro hok hroom
    rw [convertUTF16ToUTF8_eq] at hok ⊢
    rw [convertUTF8ToUTF16Report_eq]
    exact decoder_run_encoder_run hok hroom
  · obtain ⟨cs, hsrc, htgt, -⟩ := (encoder_reads false).run_spec units room
    rw [convertUTF16ToUTF8_eq]
    exact ⟨cs, hsrc, htgt⟩

/-- The bytes `ED 41 80` are converted to U+C040, although they are not
well-formed. -/
theorem convertUTF8ToUTF16Report_loose :
    convertUTF8ToUTF16Report true [0xED, 0x41, 0x80] 1 = ⟨.conversionOK, [], [0xC040]⟩ ∧
      ¬ WellFormedUTF8 [0xED, 0x41, 0x80] := by
  have hloose : LooseSequence [0xED, 0x41, 0x80] := .three (by decide) ⟨by decide, by decide⟩
  have hrun : convertUTF8ToUTF16Report true [0xED, 0x41, 0x80] 1 =
      ⟨.conversionOK, [], [0xC040]⟩ := by
    have hunits : utf16 (readUTF8Sequence [0xED, 0x41, 0x80] 3) = [0xC040] := by
      simp [readUTF8Sequence, offsetsFromUTF8, utf16]
    have hread := decoder_converts.run_append [⟨[0xED, 0x41, 0x80], .inr hloose⟩] []
      (show _ ≤ 1 by simp [hunits])
    rw [convertUTF8ToUTF16Report_eq]
    simpa [hunits, decoder] using hread
  refine ⟨hrun, fun hwell => ?_⟩
  obtain ⟨cs, hcs⟩ := (wellFormedUTF8_iff _).mp hwell
  have hconverts : ConvertsLoose [0xED, 0x41, 0x80] 1 :=
    ⟨[], [0xED, 0x41, 0x80], [], hloose, by decide, by decide⟩
  apply hconverts.sequences_ne cs
  rw [← convertUTF8ToUTF16Report_eq true, hrun, List.append_nil]
  exact hcs

end QtWebKit.Unicode
