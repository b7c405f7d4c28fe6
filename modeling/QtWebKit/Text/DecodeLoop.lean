import QtWebKit.Text.PartialSequence

/-!
# The loop over the source

The loops of both widths decode from left to right and leave the bytes of an
unfinished sequence at the end of the source to the partial sequence. The 8-bit
loop stops before the first character that it cannot write.
-/

namespace QtWebKit.TextCodecUTF8

open Unicode EncodingForms Decoding List

/-! ### What a loop writes -/

variable {Char : Type}

/-- The characters a loop writes for the items it reads. -/
inductive CharType.Writes (t : CharType Char) : List (Option ScalarValue) → List Char → Prop
  | nil : Writes t [] []
  | cons {item : Option ScalarValue} {items : List (Option ScalarValue)}
      {characters characters' : List Char}
      (h : t.write (item.map Subtype.val) = some characters) (tail : Writes t items characters') :
      Writes t (item :: items) (characters ++ characters')

variable {t : CharType Char} {items : List (Option ScalarValue)}
  {cs dest : List Char} {src : List UInt8} {saw : Bool}

theorem CharType.Writes.append {items'} {cs'} (h : t.Writes items cs) (h' : t.Writes items' cs') :
    t.Writes (items ++ items') (cs ++ cs') := by
  induction h with
  | nil => exact h'
  | cons hwr tail ih =>
    rw [append_assoc]
    exact .cons hwr ih

theorem CharType.Writes.single
    (item : Option ScalarValue) (h : t.write (item.map Subtype.val) = some cs) :
    t.Writes [item] cs := by
  have hw := CharType.Writes.cons h .nil
  rwa [append_nil] at hw

theorem writes_uChar {cs} (h : uChar.Writes items cs) : cs = text items := by
  induction h with
  | nil => rfl
  | @cons item items cs cs' hwr tail ih =>
    rw [ih, ← Option.some.inj ((uChar_write item).symm.trans hwr), ← text_append]
    rfl

/-- An 8-bit character is the only code unit of its text. -/
theorem text_of_lChar_write {cs : List UInt8} (item : Option ScalarValue)
    (h : lChar.write (item.map Subtype.val) = some cs) :
    cs.map uChar.ofByte = text [item] ∧ replaces [item] = false := by
  cases item with
  | none => cases h
  | some c =>
    change (if c.val > 0xFF then none else some [UInt8.ofNat c.val]) = some cs at h
    split_ifs at h with hwide
    obtain rfl := Option.some.inj h
    refine ⟨?_, rfl⟩
    change [UInt16.ofNat (UInt8.ofNat c.val).toNat] = utf16 c.val ++ []
    rw [toNat_ofNat_byte (by omega), utf16, if_pos (by omega), append_nil]

theorem writes_lChar {cs : List UInt8} (h : lChar.Writes items cs) :
    cs.map uChar.ofByte = text items ∧ replaces items = false := by
  induction h with
  | nil => exact ⟨rfl, rfl⟩
  | @cons item items cs cs' hwr tail ih =>
    obtain ⟨htx, hr⟩ := text_of_lChar_write item hwr
    have hi : item :: items = [item] ++ items := rfl
    rw [hi, text_append, replaces_append, map_append, htx, ih.1, hr, ih.2]
    exact ⟨rfl, rfl⟩

/-! ### Words of ASCII characters -/

theorem isAllASCII_iff (chunk : List UInt8) :
    isAllASCII chunk = true ↔ ∀ byte ∈ chunk, isASCII byte = true := by
  have hm : ∀ byte : UInt8, (byte &&& 0x80 == 0) = isASCII byte := by
    intro byte
    obtain ⟨⟨n⟩⟩ := byte
    revert n
    decide +kernel
  simp only [isAllASCII, hm, all_eq_true]

theorem isASCII_of_mem_copyASCIIMachineWords {alignedEnd addr}
    {byte} (h : byte ∈ (copyASCIIMachineWords alignedEnd addr src).1) : isASCII byte = true := by
  fun_induction copyASCIIMachineWords alignedEnd addr src with
  | case1 addr src hlt ha rest ih =>
    rcases mem_append.mp h with h | h
    · exact (isAllASCII_iff _).mp ha byte h
    · exact ih h
  | case2 => cases h
  | case3 => cases h

/-- ASCII bytes are read one by one. -/
theorem run_ascii (t : CharType Char) (copied : List UInt8)
    (h : ∀ byte ∈ copied, isASCII byte = true) :
    ∃ items, t.Writes items (copied.map t.ofByte) ∧ replaces items = false ∧
      ∀ rest, Run utf8Code.Step (copied ++ rest) items rest := by
  induction copied with
  | nil => exact ⟨[], .nil, rfl, fun rest => .refl rest⟩
  | cons b0 tail ih =>
    obtain ⟨hb0, htl⟩ := forall_mem_cons.mp h
    obtain ⟨items, hw, hr, hu⟩ := ih htl
    refine ⟨some (asciiCharacter hb0) :: items, ?_, hr, ?_⟩
    · have hwr : t.write ((some (asciiCharacter hb0)).map Subtype.val) = some [t.ofByte b0] :=
        t.write_ascii hb0
      exact .cons hwr hw
    · intro rest
      exact .head (step_ascii hb0 (tail ++ rest)) (hu rest)

/-! ### The loop -/

/-- The source starts with a byte that is an error. -/
def AtError (source : List UInt8) : Prop :=
  ∃ b0 tail, source = b0 :: tail ∧ isASCII b0 = false ∧ endsEarly b0 tail = false ∧
    sourceCharacter b0 tail = none

/-- What a loop over the source does. -/
structure Looped (t : CharType Char) (sawError : Bool) (destination : List Char)
    (source : List UInt8) (r : Progress Char) : Prop where
  /-- The source is left at a character of the other width, or it has been read up to an unfinished
  sequence. -/
  stops : r.upConvert = true ∧ r.partialSequence = [] ∧ r.source <:+ source ∨
    r.upConvert = false ∧ r.source = [] ∧ (r.partialSequence = [] ∨ Incomplete r.partialSequence)
  reads : ∃ items characters, t.Writes items characters ∧
    r.destination = destination ++ characters ∧
    (r.sawError = (sawError || replaces items) ∨
      r.upConvert = true ∧ r.sawError = true ∧ AtError r.source) ∧
    ∀ future, Run utf8Code.Step (source ++ future) items (r.left ++ future)

theorem Looped.of_run {saw' src' r out} (hw : t.Writes out cs)
    (hsw : saw' = (saw || replaces out)) (hs : src' <:+ src)
    (hu : ∀ fut, Run utf8Code.Step (src ++ fut) out (src' ++ fut))
    (h : Looped t saw' (dest ++ cs) src' r) : Looped t saw dest src r where
  stops := h.stops.imp_left fun hst => ⟨hst.1, hst.2.1, hst.2.2.trans hs⟩
  reads := by
    obtain ⟨items, cs', hw', hd, hsw', hu'⟩ := h.reads
    refine ⟨out ++ items, cs ++ cs', hw.append hw', ?_, ?_, ?_⟩
    · rw [hd, append_assoc]
    · rw [replaces_append, ← Bool.or_assoc, ← hsw]
      exact hsw'
    · intro fut
      exact (hu fut).trans (hu' fut)

theorem Looped.refl (t : CharType Char) {r : Progress Char}
    (hst : r.upConvert = true ∧ r.partialSequence = [] ∧ r.source <:+ src ∨
      r.upConvert = false ∧ r.source = [] ∧ (r.partialSequence = [] ∨ Incomplete r.partialSequence))
    (hd : r.destination = dest)
    (hsw : r.sawError = saw ∨ r.upConvert = true ∧ r.sawError = true ∧ AtError r.source)
    (hl : r.left = src) : Looped t saw dest src r where
  stops := hst
  reads := by
    refine ⟨[], [], .nil, ?_, ?_, ?_⟩
    · rw [hd, append_nil]
    · rwa [replaces_nil, Bool.or_false]
    · intro fut
      rw [hl]
      exact .refl _

/-- ASCII bytes have been copied. -/
theorem Looped.of_ascii {copied src' : List UInt8} {r}
    (ha : ∀ byte ∈ copied, isASCII byte = true) (hs : copied ++ src' = src)
    (h : Looped t saw (dest ++ copied.map t.ofByte) src' r) : Looped t saw dest src r := by
  subst hs
  obtain ⟨items, hw, hr, hu⟩ := run_ascii t copied ha
  refine h.of_run hw ?_ (suffix_append ..) ?_
  · rw [hr, Bool.or_false]
  · intro fut
    rw [append_assoc]
    exact hu _

/-- An error is not the start of a character, whatever follows. -/
theorem not_starts_of_sourceCharacter {b0 tail} (h0 : ¬ isASCII b0 = true)
    (he : ¬ endsEarly b0 tail = true) (h : sourceCharacter b0 tail = none)
    (more : List UInt8) : ¬ utf8Code.Starts (b0 :: tail ++ more) := by
  by_cases hcn : nonASCIISequenceLength b0 = 0
  · exact not_starts_of_length_eq_zero h0 hcn
  · rw [sourceCharacter, if_neg hcn] at h
    rw [endsEarly, decide_eq_true_eq] at he
    exact not_starts_of_decode_eq_none h0 hcn (by omega) h more

theorem step_of_sourceCharacter {b0 tail char}
    (he : ¬ endsEarly b0 tail = true) (h : sourceCharacter b0 tail = some char) :
    ∃ c : ScalarValue, c.val = char ∧ ∀ more, utf8Code.Step (b0 :: tail ++ more) [some c]
      ((b0 :: tail).drop (nonASCIISequenceLength b0) ++ more) := by
  have hcn := nonASCIISequenceLength_ne_zero_of_sourceCharacter h
  rw [sourceCharacter, if_neg hcn] at h
  rw [endsEarly, decide_eq_true_eq] at he
  obtain ⟨c, hc, -, hsp⟩ := step_of_decode_eq_some hcn (by omega) h
  exact ⟨c, hc, hsp⟩

theorem looped_decodeLoop (t : CharType Char) (srcEnd : Nat) (saw : Bool)
    (dest : List Char) (src : List UInt8) :
    Looped t saw dest src
      (decodeLoop t false srcEnd saw dest src) := by
  have hcp : ∀ {addr src copied rest},
      copyASCIIMachineWords (alignToMachineWord srcEnd) addr src = (copied, rest) →
        (∀ byte ∈ copied, isASCII byte = true) ∧ copied ++ rest = src := by
    intro addr src copied rest h
    have hmm : ∀ byte ∈ (copyASCIIMachineWords (alignToMachineWord srcEnd) addr src).1,
        isASCII byte = true := fun byte => isASCII_of_mem_copyASCIIMachineWords
    have hap := copyASCIIMachineWords_append (alignToMachineWord srcEnd) addr src
    rw [h] at hmm hap
    exact ⟨hmm, hap⟩
  fun_induction decodeLoop t false srcEnd saw dest src with
  | case1 saw dest =>
    exact .refl t (.inr ⟨rfl, rfl, .inl rfl⟩) rfl (.inl rfl) rfl
  | case2 saw dest b0 tail h0 addr hal copied hcy =>
    obtain ⟨ha, hs⟩ := hcp hcy
    apply Looped.of_ascii ha hs
    exact .refl t (.inr ⟨rfl, rfl, .inl rfl⟩) rfl (.inl rfl) rfl
  | case3 saw dest b0 tail h0 addr hal copied b1 tail1 hcy h1 ih =>
    obtain ⟨ha, hs⟩ := hcp hcy
    exact ih.of_ascii ha hs
  | case4 saw dest b0 tail h0 addr hal copied b1 tail1 hcy h1 ih =>
    obtain ⟨ha, hs⟩ := hcp hcy
    apply Looped.of_ascii ha hs
    apply Looped.of_ascii _ (singleton_append (x := b1)) ih
    simpa using h1
  | case5 saw dest b0 tail h0 addr hal ih =>
    apply Looped.of_ascii _ (singleton_append (x := b0)) ih
    simpa using h0
  | case6 saw dest b0 tail h0 he =>
    rw [endsEarly, decide_eq_true_eq] at he
    exact .refl t (.inr ⟨rfl, rfl, .inr ⟨b0, tail, rfl, he⟩⟩) rfl (.inl rfl) rfl
  | case7 saw dest b0 tail h0 he hch hp => cases hp
  | case8 saw dest b0 tail h0 he hch hp hwr =>
    refine .refl t (.inl ⟨rfl, rfl, suffix_refl _⟩) rfl (.inr ⟨rfl, rfl, ?_⟩) rfl
    exact ⟨b0, tail, rfl, by simpa using h0, by simpa using he, hch⟩
  | case9 saw dest b0 tail h0 he hch hp wr hwr ih =>
    refine ih.of_run (.single none hwr) (Bool.or_true _).symm
      (suffix_cons ..) ?_
    intro fut
    exact .single (.replaced (not_starts_of_sourceCharacter h0 he hch fut))
  | case10 saw dest b0 tail h0 he char hch hwr =>
    exact .refl t (.inl ⟨rfl, rfl, suffix_refl _⟩) rfl (.inl rfl) rfl
  | case11 saw dest b0 tail h0 he char hch wr hwr ih =>
    obtain ⟨c, rfl, hsp⟩ := step_of_sourceCharacter he hch
    refine ih.of_run (.single (some c) hwr) (Bool.or_false _).symm
      (drop_suffix ..) ?_
    intro fut
    exact .single (hsp fut)

/-- The 16-bit loop replaces the byte at which the 8-bit loop has seen an error. -/
theorem decodeLoop_of_atError {srcEnd dest}
    {b0 tail} (h0 : isASCII b0 = false) (he : endsEarly b0 tail = false)
    (hch : sourceCharacter b0 tail = none) :
    decodeLoop uChar false srcEnd saw dest (b0 :: tail) =
      decodeLoop uChar false srcEnd true (dest ++ text [none]) tail := by
  rw [decodeLoop, dif_neg (by simp [h0]), if_neg (by simp [he])]
  split
  · rfl
  · rename_i hsm
    rw [hch] at hsm
    cases hsm

end QtWebKit.TextCodecUTF8
