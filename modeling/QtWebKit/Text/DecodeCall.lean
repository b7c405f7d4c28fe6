import QtWebKit.Text.DecodeLoop

/-!
# One call of `decode`

A call first reads through the partial sequence and then, once that is empty,
directly from the source. Read directly, the bytes are decoded from left to
right; the bytes read through the partial sequence follow the steps of its
handler.
-/

namespace QtWebKit.TextCodecUTF8

open Unicode EncodingForms Decoding List

/-! ### The length of the text -/

theorem length_utf16_le_utf8 (c : Nat) : (utf16 c).length ≤ (utf8 c).length := by
  unfold utf16 utf8
  split_ifs <;> simp only [length_cons, length_nil] <;> omega

variable {bs rest : List UInt8}

theorem length_text_step {out}
    (h : utf8Code.Step bs out rest) : (text out).length + rest.length ≤ bs.length := by
  cases h with
  | character c rest =>
    have hle := length_utf16_le_utf8 c.val
    change (utf16 c.val ++ []).length + rest.length ≤ (utf8 c.val ++ rest).length
    rw [append_nil, length_append]
    omega
  | replaced =>
    rw [length_cons]
    exact (Nat.add_comm 1 _).le

theorem length_text_bufferStep {out}
    (h : BufferStep bs out rest) : (text out).length + rest.length ≤ bs.length := by
  cases h with
  | @slip lead a b c rest character hld hpa =>
    have hle := length_utf16_le_utf8 character.val
    change (UInt16.ofNat replacementCharacter :: (utf16 character.val ++ [])).length +
      (a :: rest).length ≤ _
    rw [hpa] at hle
    simp only [append_nil, length_cons, length_nil] at hle ⊢
    omega
  | read h => exact length_text_step h

/-- No more code units are written than bytes are read. -/
theorem length_text_run {step : List UInt8 → List (Option ScalarValue) → List UInt8 → Prop}
    (hs : ∀ {bs out rest}, step bs out rest →
      (text out).length + rest.length ≤ bs.length) {items} (h :
      Run step bs items rest) : (text items).length + rest.length ≤ bs.length := by
  induction h with
  | refl => exact (Nat.zero_add _).le
  | head h tail ih =>
    have hle := hs h
    rw [text_append, length_append]
    omega

/-- Fewer than four bytes are read from left to right. -/
theorem run_step_of_length_lt {items} (h : Run BufferStep bs items rest) (hn : bs.length < 4) :
    Run utf8Code.Step bs items rest := by
  apply h.mono_of_invariant (I := fun bs => bs.length < 4) hn
  intro bs out rest hsr hs
  cases hs with
  | slip => exact absurd hsr (by simp only [length_cons]; omega)
  | read h => exact ⟨h, h.shorter.trans hsr⟩

theorem Incomplete.length_lt {part : List UInt8} (h : Incomplete part) : part.length < 4 := by
  obtain ⟨b0, tail, rfl, hn⟩ := h
  exact hn.trans_le (nonASCIISequenceLength_le b0)

/-! ### The rounds of the `do` loops -/

section

variable {Char : Type} {t : CharType Char} {fl stopOnError saw : Bool} {srcEnd : Nat}
  {dest : List Char} {src part : List UInt8} {handled : Progress Char}

theorem decodePhase_of_upConvert (h : handlePartialSequence t fl stopOnError saw dest src part =
      handled) (hup : handled.upConvert = true) :
    decodePhase t fl stopOnError srcEnd saw dest src part =
      ⟨⟨true, dest, handled.source, handled.partialSequence, handled.sawError⟩,
        handled.destination.length⟩ := by
  rw [decodePhase, h, if_pos hup]

theorem decodePhase_of_waiting (h : handlePartialSequence t fl stopOnError saw dest src part =
      handled) (hup : handled.upConvert = false) (hwt : handled.partialSequence ≠ []) :
    decodePhase t fl stopOnError srcEnd saw dest src part =
      ⟨handled, handled.destination.length⟩ := by
  rw [decodePhase, h, if_neg (by rw [hup]; exact Bool.false_ne_true), if_pos hwt]

/-- With an empty partial sequence a round is the loop over the source. -/
theorem decodePhase_nil (t : CharType Char) (fl stopOnError : Bool) (srcEnd : Nat)
    (saw : Bool) (dest : List Char) (src : List UInt8) {looped : Progress Char}
    (h : decodeLoop t stopOnError srcEnd saw dest src = looped) :
    decodePhase t fl stopOnError srcEnd saw dest src [] =
      if !looped.upConvert && fl && !looped.partialSequence.isEmpty then
        decodePhase t fl stopOnError srcEnd looped.sawError looped.destination looped.source
          looped.partialSequence
      else ⟨looped, looped.destination.length⟩ := by
  subst h
  rw [decodePhase, handlePartialSequence, if_neg Bool.false_ne_true, if_neg (fun h => h rfl),
    dite_eq_ite]

/-- Once the handler has emptied the partial sequence, the round goes on without one. -/
theorem decodePhase_of_handled (h : handlePartialSequence t fl stopOnError saw dest src part =
      handled) (hup : handled.upConvert = false) (hem : handled.partialSequence = []) :
    decodePhase t fl stopOnError srcEnd saw dest src part =
      decodePhase t fl stopOnError srcEnd handled.sawError handled.destination handled.source
        [] := by
  rw [decodePhase_nil t fl stopOnError srcEnd _ _ _ rfl, decodePhase, h,
    if_neg (by rw [hup]; exact Bool.false_ne_true), if_neg (fun hwt => hwt hem), dite_eq_ite]

end

/-! ### The 16-bit part -/

/-- Items read directly from the source, up to bytes that are left for the next call. -/
def Reads (flush : Bool) (source : List UInt8) (items : List (Option ScalarValue))
    (left : List UInt8) : Prop :=
  ∀ future, (flush = true → future = []) →
    Run utf8Code.Step (source ++ future) items (left ++ future)

/-- Items read through the partial sequence and then directly. -/
structure ReadsThrough (flush : Bool) (source partialSequence : List UInt8)
    (items : List (Option ScalarValue)) (left : List UInt8) : Prop where
  splits : ∃ first second middle, items = first ++ second ∧
    (partialSequence = [] → first = [] ∧ middle = source) ∧
    (flush = true → middle <:+ source) ∧
    (∀ future, (flush = true → future = []) →
      Run BufferStep (partialSequence ++ (source ++ future)) first (middle ++ future)) ∧
    Reads flush middle second left

variable {left : List UInt8} {items : List (Option ScalarValue)}

theorem ReadsThrough.of_reads {fl src} (h : Reads fl src items left) :
    ReadsThrough fl src [] items left :=
  ⟨[], items, src, rfl, fun _ => ⟨rfl, rfl⟩, fun _ => suffix_refl _, fun _ _ => .refl _, h⟩

theorem ReadsThrough.reads {fl src}
    (h : ReadsThrough fl src [] items left) : Reads fl src items left := by
  obtain ⟨first, snd, middle, rfl, hf, -, -, hrs⟩ := h.splits
  obtain ⟨rfl, rfl⟩ := hf rfl
  exact hrs

theorem Reads.trans {fl src middle items'} (h : Reads fl src items middle)
    (h' : Reads fl middle items' left) : Reads fl src (items ++ items') left :=
  fun fut hft => (h fut hft).trans (h' fut hft)

/-- What the 16-bit part of a call does. -/
structure WidePhase (flush sawError : Bool) (destination : List UInt16)
    (source partialSequence : List UInt8) (w : Phase UInt16) : Prop where
  written : w.written = w.destination.length
  waits : w.partialSequence = [] ∨ flush = false ∧ Incomplete w.partialSequence
  reads : ∃ items, w.destination = destination ++ text items ∧
    w.sawError = (sawError || replaces items) ∧
    ReadsThrough flush source partialSequence items w.partialSequence

/-- A flush reads the unfinished sequence at the end of the source. -/
theorem decodePhase_uChar_flush {srcEnd saw dest} {part} (h : Incomplete part) :
    ∃ items, decodePhase uChar true false srcEnd saw dest [] part =
        ⟨⟨false, dest ++ text items, [], [], saw || replaces items⟩, (dest ++ text items).length⟩ ∧
      Run utf8Code.Step part items [] := by
  generalize hre : handlePartialSequence uChar true false saw dest []
    part = handled
  obtain ⟨hup, hdn, items, hd, hsw, hu⟩ := hre ▸ handlePartialSequence_uChar
    true saw dest [] part [] [] (.buffered h.buffered)
  obtain ⟨hem, hc⟩ := hdn.resolve_right (fun hwt => by cases hwt.1)
  rw [suffix_nil] at hc
  refine ⟨items, ?_, ?_⟩
  · rw [decodePhase_of_handled hre hup hem, decodePhase_nil _ _ _ _ _ _ _ rfl, hc,
      hd, hsw, decodeLoop]
    rfl
  · have hu := hu [] (fun _ => rfl)
    rw [Progress.left_of_empty hem, hc] at hu
    apply run_step_of_length_lt _ h.length_lt
    simpa only [append_nil, nil_append] using hu

theorem decodeLoop_uChar_upConvert (srcEnd : Nat) (saw : Bool) (dest : List UInt16)
    (src : List UInt8) : (decodeLoop uChar false srcEnd saw dest src).upConvert = false := by
  fun_induction decodeLoop uChar false srcEnd saw dest src with
  | case1 => rfl
  | case2 => rfl
  | case3 _ _ _ _ _ _ _ _ _ _ _ _ ih => exact ih
  | case4 _ _ _ _ _ _ _ _ _ _ _ _ ih => exact ih
  | case5 _ _ _ _ _ _ _ ih => exact ih
  | case6 => rfl
  | case7 => rfl
  | case8 _ _ _ _ _ _ _ _ hwr => cases hwr
  | case9 _ _ _ _ _ _ _ _ _ _ ih => exact ih
  | case10 _ _ _ _ _ _ _ _ hwr => cases hwr
  | case11 _ _ _ _ _ _ _ _ _ _ ih => exact ih

theorem widePhase_nil (fl : Bool) (srcEnd : Nat) (saw : Bool)
    (dest : List UInt16) (src : List UInt8) :
    WidePhase fl saw dest src []
      (decodePhase uChar fl false srcEnd saw dest src []) := by
  generalize hl : decodeLoop uChar false srcEnd saw dest src = looped
  have hup := hl ▸ decodeLoop_uChar_upConvert srcEnd saw dest src
  obtain ⟨hst, items, cs, hw, hd, hsw, hu⟩ :=
    hl ▸ looped_decodeLoop uChar srcEnd saw dest src
  obtain rfl := writes_uChar hw
  have hsw := hsw.resolve_right (fun her => by rw [hup] at her; cases her.1)
  obtain ⟨-, hc, hpr⟩ := hst.resolve_left
    (fun hcn => by rw [hup] at hcn; cases hcn.1)
  rw [decodePhase_nil _ _ _ _ _ _ _ hl, hup, hc]
  by_cases hem : looped.partialSequence = []
  · rw [if_neg (by simp [hem])]
    rw [Progress.left_of_empty hem, hc] at hu
    refine ⟨rfl, .inl hem, items, hd, hsw, .of_reads ?_⟩
    intro fut _
    rw [hem]
    exact hu fut
  · have hwt := hpr.resolve_left hem
    rw [Progress.left_of_waiting hup hem] at hu
    cases fl with
    | false =>
      rw [if_neg (by simp)]
      refine ⟨rfl, .inr ⟨rfl, hwt⟩, items, hd, hsw, .of_reads ?_⟩
      intro fut _
      exact hu fut
    | true =>
      obtain ⟨items', hph, hu'⟩ := decodePhase_uChar_flush hwt
      rw [if_pos (by simp [hem]), hph]
      refine ⟨rfl, .inl rfl, items ++ items', ?_, ?_, .of_reads ?_⟩
      · rw [hd, text_append, append_assoc]
      · rw [hsw, replaces_append, Bool.or_assoc]
      · intro fut hft
        obtain rfl := hft rfl
        refine (hu []).trans ?_
        rwa [append_nil]

theorem widePhase (fl : Bool) (srcEnd : Nat) (saw : Bool) (dest : List UInt16)
    (src part : List UInt8) (h : Buffered part) :
    WidePhase fl saw dest src part
      (decodePhase uChar fl false srcEnd saw dest src part) := by
  by_cases hnl : part = []
  · subst hnl
    exact widePhase_nil ..
  generalize hre : handlePartialSequence uChar fl false saw dest src
    part = handled
  obtain ⟨hup, hdn, items, hd, hsw, hu⟩ := hre ▸ handlePartialSequence_uChar
    fl saw dest src part [] [] (.buffered h)
  rcases hdn with ⟨hem, hc⟩ | ⟨hfl, hwt⟩
  · rw [decodePhase_of_handled hre hup hem]
    obtain ⟨hwi, hws, snd, hd', hsw', hrs⟩ :=
      widePhase_nil fl srcEnd handled.sawError handled.destination handled.source
    refine ⟨hwi, hws, items ++ snd, ?_, ?_, items, snd, handled.source, rfl,
      fun h => absurd h hnl, fun _ => hc, ?_, hrs.reads⟩
    · rw [hd', hd, text_append, append_assoc]
    · rw [hsw', hsw, replaces_append, Bool.or_assoc]
    · intro fut hft
      have hh := hu fut hft
      rwa [Progress.left_of_empty hem] at hh
  · rw [decodePhase_of_waiting hre hup hwt.ne_nil]
    refine ⟨rfl, .inr ⟨hfl, hwt⟩, items, hd, hsw, items, [], handled.partialSequence,
      (append_nil _).symm, fun h => absurd h hnl, ?_, ?_, fun _ _ => .refl _⟩
    · intro hfl'
      rw [hfl] at hfl'
      cases hfl'
    · intro fut hft
      have hh := hu fut hft
      rwa [Progress.left_of_waiting hup hwt.ne_nil] at hh

/-! ### The 8-bit part -/

/-- What the 8-bit handler does with an unfinished sequence. -/
inductive NarrowHandled (flush sawError : Bool) (destination : List UInt8)
    (source partialSequence : List UInt8) : Progress UInt8 → Prop
  /-- It waits for more bytes. -/
  | waits (hflush : flush = false) (h : Incomplete (partialSequence ++ source)) :
      NarrowHandled flush sawError destination source partialSequence
        ⟨false, destination, source, partialSequence ++ source, sawError⟩
  /-- It has written nothing when it asks for 16-bit characters. -/
  | upConvert {filled rest : List UInt8} (hfilled : filled ++ rest = partialSequence ++ source)
      (hrest : rest <:+ source) (hlength : filled.length ≤ 4) (h : Buffered filled)
      (hne : filled ≠ []) :
      NarrowHandled flush sawError destination source partialSequence
        ⟨true, destination, rest, filled, sawError⟩
  /-- It reads the sequence with bytes of the source. -/
  | read {c : ScalarValue} {characters : List UInt8} {rest : List UInt8}
      (hwrite : lChar.write (some c.val) = some characters) (hrest : rest <:+ source)
      (hshorter : rest.length < source.length)
      (h : ∀ future, utf8Code.Step (partialSequence ++ (source ++ future)) [some c]
        (rest ++ future)) :
      NarrowHandled flush sawError destination source partialSequence
        ⟨false, destination ++ characters, rest, [], sawError⟩

theorem handlePartialSequence_lChar (fl saw : Bool) (dest : List UInt8)
    (src : List UInt8) {part} (h : Incomplete part) :
    NarrowHandled fl saw dest src part
      (handlePartialSequence lChar fl false saw dest src part) := by
  have hb := h.buffered
  obtain ⟨b0, tail, rfl, hi⟩ := h
  have hct : nonASCIISequenceLength b0 ≠ 0 := by omega
  have h0 := not_isASCII_of_length_ne hct
  have hle := nonASCIISequenceLength_le b0
  rw [handlePartialSequence, if_neg h0]
  dsimp only
  rw [dif_neg hct]
  by_cases hlc : lacking (nonASCIISequenceLength b0) (b0 :: tail) > src.length
  · rw [if_pos hlc]
    cases fl with
    | false =>
      refine .waits rfl ⟨b0, tail ++ src, rfl, ?_⟩
      rw [← cons_append, length_append]
      unfold lacking at hlc
      omega
    | true =>
      exact .upConvert rfl (suffix_refl _) (by omega) hb (cons_ne_nil b0 tail)
  · rw [if_neg hlc]
    have hfd := length_filledSequence hlc
    rw [max_eq_right hi.le] at hfd
    have hb' : Buffered (filledSequence (nonASCIISequenceLength b0) src (b0 :: tail)) := by
      rw [filledSequence, cons_append] at hfd ⊢
      rw [length_cons] at hfd
      exact lt_max_of_lt_right (by omega)
    have hcn : NarrowHandled fl saw dest src (b0 :: tail)
        ⟨true, dest, unreadSource (nonASCIISequenceLength b0) src (b0 :: tail),
          filledSequence (nonASCIISequenceLength b0) src (b0 :: tail), saw⟩ :=
      .upConvert (filledSequence_append ..) (drop_suffix ..) (by omega) hb'
        (ne_nil_of_length_pos (length_filledSequence_pos ..))
    cases hdc : decodeNonASCIISequence
        (filledSequence (nonASCIISequenceLength b0) src (b0 :: tail))
        (nonASCIISequenceLength b0) with
    | none => exact hcn
    | some character =>
      cases hwr : lChar.write (some character) with
      | none =>
        dsimp only
        rw [hwr]
        exact hcn
      | some cs =>
        obtain ⟨c, rfl, -, hs⟩ := step_of_decode_eq_some hct (by
          change _ ≤ (filledSequence (nonASCIISequenceLength b0) src (b0 :: tail)).length
          omega) hdc
        dsimp only
        rw [hwr]
        dsimp only
        rw [hfd, Nat.sub_self, take_zero, handlePartialSequence]
        refine .read hwr (drop_suffix ..) ?_ ?_
        · have hn := length_unreadSource_add (nonASCIISequenceLength b0) src (b0 :: tail)
          omega
        · intro fut
          have hrd : utf8Code.Step
              (filledSequence (nonASCIISequenceLength b0) src (b0 :: tail) ++
                (unreadSource (nonASCIISequenceLength b0) src (b0 :: tail) ++ fut))
              [some c]
              ((filledSequence (nonASCIISequenceLength b0) src (b0 :: tail)).drop
                (nonASCIISequenceLength b0) ++
                (unreadSource (nonASCIISequenceLength b0) src (b0 :: tail) ++ fut)) :=
            hs _
          rwa [← filledSequence_append_append, drop_of_length_le hfd.le] at hrd

/-- How the 8-bit part of a call stops. -/
inductive NarrowStops (flush sawError : Bool) (source : List UInt8) : Progress UInt8 → Prop
  | finished {destination rest partialSequence : List UInt8}
      (h : partialSequence = [] ∧ rest = [] ∨ flush = false ∧ Incomplete partialSequence) :
      NarrowStops flush sawError source ⟨false, destination, rest, partialSequence, sawError⟩
  | wideCharacter {destination rest : List UInt8} (hrest : rest <:+ source) :
      NarrowStops flush sawError source ⟨true, destination, rest, [], sawError⟩
  | error {destination rest : List UInt8} (hrest : rest <:+ source) (h : AtError rest) :
      NarrowStops flush sawError source ⟨true, destination, rest, [], true⟩
  /-- The unfinished sequence at the end is left to the 16-bit part. -/
  | flushes {destination partialSequence : List UInt8} (hflush : flush = true)
      (h : Incomplete partialSequence) :
      NarrowStops flush sawError source ⟨true, destination, [], partialSequence, sawError⟩

/-- What the 8-bit part of a call does without a partial sequence. -/
structure NarrowPhase (flush sawError : Bool) (destination source : List UInt8)
    (n : Phase UInt8) : Prop where
  written : n.written = n.destination.length
  stops : NarrowStops flush sawError source n.toProgress
  reads : ∃ items characters, lChar.Writes items characters ∧
    n.destination = destination ++ characters ∧ Reads flush source items n.toProgress.left

theorem decodePhase_lChar_flush {srcEnd saw} {dest : List UInt8} {part} (h : Incomplete part) :
    decodePhase lChar true false srcEnd saw dest [] part =
      ⟨⟨true, dest, [], part, saw⟩, dest.length⟩ := by
  generalize hre : handlePartialSequence lChar true false saw dest []
    part = handled
  have hh := hre ▸ handlePartialSequence_lChar true saw dest [] h
  cases hh with
  | waits hfl => cases hfl
  | upConvert hfd hr =>
    rw [decodePhase_of_upConvert hre rfl]
    rw [suffix_nil] at hr
    subst hr
    rw [append_nil, append_nil] at hfd
    rw [hfd]
  | read hwr hr hsh => exact absurd hsh (Nat.not_lt_zero _)

theorem narrowPhase_nil (fl : Bool) (srcEnd : Nat) (saw : Bool) (dest src : List UInt8) :
    NarrowPhase fl saw dest src
      (decodePhase lChar fl false srcEnd saw dest src []) := by
  generalize hl : decodeLoop lChar false srcEnd saw dest src = looped
  obtain ⟨hst, items, cs, hw, hd, hsw, hu⟩ :=
    hl ▸ looped_decodeLoop lChar srcEnd saw dest src
  have hrs : Reads fl src items looped.left := fun fut _ => hu fut
  rw [(writes_lChar hw).2, Bool.or_false] at hsw
  rw [decodePhase_nil _ _ _ _ _ _ _ hl]
  obtain ⟨up, dest', src', part, saw'⟩ := looped
  dsimp only at *
  rcases hst with ⟨rfl, rfl, hc⟩ | ⟨rfl, rfl, hpr⟩
  · rw [if_neg (by simp)]
    refine ⟨rfl, ?_, items, cs, hw, hd, hrs⟩
    rcases hsw with rfl | ⟨-, rfl, her⟩
    · exact .wideCharacter hc
    · exact .error hc her
  · obtain rfl := hsw.resolve_right (fun her => by cases her.1)
    by_cases hem : part = []
    · rw [if_neg (by simp [hem])]
      exact ⟨rfl, .finished (.inl ⟨hem, rfl⟩), items, cs, hw, hd, hrs⟩
    · have hwt := hpr.resolve_left hem
      cases fl with
      | false =>
        rw [if_neg (by simp)]
        exact ⟨rfl, .finished (.inr ⟨rfl, hwt⟩), items, cs, hw, hd, hrs⟩
      | true =>
        rw [if_pos (by simp [hem]), decodePhase_lChar_flush hwt]
        refine ⟨rfl, .flushes rfl hwt, items, cs, hw, hd, ?_⟩
        rw [Progress.left_of_waiting rfl hem] at hrs
        rwa [Progress.left_of_upConvert rfl, append_nil]

/-- The 16-bit part replaces the byte at which the 8-bit part has seen an error. -/
theorem widePhase_of_atError (fl saw : Bool) (srcEnd : Nat) (dest : List UInt16)
    {src} (h : AtError src) :
    WidePhase fl saw dest src []
      (decodePhase uChar fl false srcEnd true dest src []) := by
  obtain ⟨b0, tail, rfl, h0, hel, hch⟩ := h
  have hph : decodePhase uChar fl false srcEnd true dest (b0 :: tail) [] =
      decodePhase uChar fl false srcEnd true (dest ++ text [none]) tail [] := by
    rw [decodePhase_nil _ _ _ _ _ _ _ (decodeLoop_of_atError h0 hel hch),
      decodePhase_nil _ _ _ _ _ _ _ rfl]
  rw [hph]
  obtain ⟨hwi, hws, items, hd, hsw, hrs⟩ :=
    widePhase_nil fl srcEnd true (dest ++ text [none]) tail
  refine ⟨hwi, hws, [none] ++ items, ?_, ?_, .of_reads (Reads.trans ?_ hrs.reads)⟩
  · rw [hd, text_append, append_assoc]
  · rw [hsw, replaces_append]
    exact (Bool.or_true _).symm
  · intro fut _
    exact .single (.replaced (not_starts_of_sourceCharacter (by simp [h0]) (by simp [hel])
      hch fut))

/-! ### The whole call -/

/-- An unfinished sequence at the end is read from left to right by a flush. -/
theorem ReadsThrough.reads_of_incomplete {part} (hwt : Incomplete part)
    (h : ReadsThrough true [] part items left) : Reads true part items left := by
  obtain ⟨first, snd, middle, rfl, -, hm, hf, hsn⟩ := h.splits
  obtain rfl := suffix_nil.mp (hm rfl)
  intro fut hft
  obtain rfl := hft rfl
  have hu := hf [] (fun _ => rfl)
  rw [append_nil, append_nil] at hu
  rw [append_nil part]
  exact (run_step_of_length_lt hu hwt.length_lt).trans (hsn [] (fun _ => rfl))

/-- The call after the 8-bit part, which has used `buffer`. -/
def afterNarrow (flush : Bool) (chunk : Chunk) (buffer : StringBuffer) (narrow : Phase UInt8) :
    Decoded :=
  if narrow.upConvert then upConvertTo16Bit flush false chunk buffer narrow
  else ⟨narrow.destination.map uChar.ofByte, narrow.partialSequence, narrow.sawError, [buffer]⟩

/-- What a call does from a point on at which the partial sequence is empty. -/
structure ReadsDirectly (flush sawError : Bool) (chunk : Chunk) (buffer : StringBuffer)
    (destination source : List UInt8) (call : Decoded) : Prop where
  waits : call.partialSequence = [] ∨ flush = false ∧ Incomplete call.partialSequence
  reads : ∃ items, call.output = destination.map uChar.ofByte ++ text items ∧
    call.sawError = (sawError || replaces items) ∧ Reads flush source items call.partialSequence
  buffers : ∃ length ≤ 3, ∀ used ∈ call.buffers, used = buffer ∨
    used = .allocate (length + chunk.bytes.length) call.output.length

theorem readsDirectly_of_wide {fl saw} {chunk : Chunk} {buffer}
    {dest src} {narrow : Phase UInt8} {cs} (hw : lChar.Writes items cs)
    (hd : narrow.destination = dest ++ cs) (hn : narrow.partialSequence.length ≤ 3)
    (hwd : WidePhase fl saw (narrow.destination.map uChar.ofByte) narrow.source
      narrow.partialSequence (decodePhase uChar fl false
        (chunk.address + chunk.bytes.length) narrow.sawError
        (narrow.destination.map uChar.ofByte) narrow.source narrow.partialSequence))
    (hrs : ∀ {items' left}, ReadsThrough fl narrow.source narrow.partialSequence items' left →
      Reads fl src (items ++ items') left) :
    ReadsDirectly fl saw chunk buffer dest src
      (upConvertTo16Bit fl false chunk buffer narrow) := by
  obtain ⟨hwi, hws, items', ho, hsw, ht⟩ := hwd
  obtain ⟨htx, hrp⟩ := writes_lChar hw
  refine ⟨hws, ⟨items ++ items', ?_, ?_, hrs ht⟩, _, hn, ?_⟩
  · rw [text_append, ← htx, ← append_assoc, ← map_append, ← hd]
    exact ho
  · rw [replaces_append, hrp, Bool.false_or]
    exact hsw
  · intro used hus
    rcases mem_cons.mp hus with rfl | hus
    · exact .inl rfl
    · right
      rw [mem_singleton.mp hus, hwi]
      rfl

theorem readsDirectly_of_narrow {fl saw chunk buffer dest src narrow}
    (h : NarrowPhase fl saw dest src narrow) :
    ReadsDirectly fl saw chunk buffer dest src
      (afterNarrow fl chunk buffer narrow) := by
  obtain ⟨-, hst, items, cs, hw, hd, hrs⟩ := h
  obtain ⟨⟨up, dest', rest, part, saw'⟩, wr⟩ := narrow
  dsimp only at *
  cases hst with
  | finished he =>
    obtain ⟨htx, hrp⟩ := writes_lChar hw
    refine ⟨he.imp_left And.left, ⟨items, ?_, ?_, ?_⟩, 0, Nat.zero_le _, ?_⟩
    · rw [← htx, ← map_append, ← hd]
      rfl
    · rw [hrp, Bool.or_false]
      rfl
    · rcases he with ⟨hem, hr⟩ | ⟨-, hwt⟩
      · rw [Progress.left_of_empty hem] at hrs
        change Reads fl src items part
        rwa [hem, ← hr]
      · rwa [Progress.left_of_waiting rfl hwt.ne_nil] at hrs
    · intro used hus
      exact .inl (mem_singleton.mp hus)
  | wideCharacter hr =>
    rw [Progress.left_of_empty rfl] at hrs
    exact readsDirectly_of_wide hw hd (Nat.zero_le 3)
      (widePhase_nil fl _ saw _ rest) (fun ht => hrs.trans ht.reads)
  | error hr her =>
    rw [Progress.left_of_empty rfl] at hrs
    exact readsDirectly_of_wide hw hd (Nat.zero_le 3)
      (widePhase_of_atError fl saw _ _ her)
      (fun ht => hrs.trans ht.reads)
  | flushes hfl hwt =>
    subst hfl
    rw [Progress.left_of_upConvert rfl, append_nil] at hrs
    exact readsDirectly_of_wide hw hd (Nat.le_of_lt_succ hwt.length_lt)
      (widePhase true _ saw _ [] part hwt.buffered)
      (fun ht => hrs.trans (ht.reads_of_incomplete hwt))

theorem Reads.length_text_le {fl} {src : List UInt8} (h : Reads fl src items left) :
    (text items).length ≤ src.length := by
  have hn := length_text_run length_text_step (h [] fun _ => rfl)
  simp only [append_nil] at hn
  omega

theorem ReadsThrough.length_le {fl} {src part : List UInt8}
    (h : ReadsThrough fl src part items left) :
    (text items).length + left.length ≤ part.length + src.length := by
  obtain ⟨first, snd, middle, rfl, -, -, hf, hsn⟩ := h.splits
  have hn := length_text_run length_text_bufferStep (hf [] fun _ => rfl)
  have hn' := length_text_run length_text_step (hsn [] fun _ => rfl)
  simp only [append_nil, length_append] at hn hn'
  rw [text_append, length_append]
  omega

theorem NarrowPhase.written_le {fl saw} {dest src : List UInt8}
    {narrow : Phase UInt8} (h : NarrowPhase fl saw dest src narrow) :
    narrow.written ≤ dest.length + src.length := by
  obtain ⟨hwi, -, items, cs, hw, hd, hrs⟩ := h
  have hn := hrs.length_text_le
  rw [← (writes_lChar hw).1, length_map] at hn
  rw [hwi, hd, length_append]
  omega

/-- Everything written to a buffer fits into it. -/
def StringBuffer.Fits (buffer : StringBuffer) : Prop := buffer.written ≤ buffer.length

theorem StringBuffer.fits_allocate {length wr} (hwi : wr ≤ length)
    (hn : length < 2 ^ 32) : (StringBuffer.allocate length wr).Fits := by
  have hsz : length < UInt32.size := hn
  change wr ≤ length % UInt32.size
  rwa [Nat.mod_eq_of_lt hsz]

/-- What a call does. -/
structure Call (flush sawError : Bool) (partialSequence : List UInt8) (chunk : Chunk)
    (call : Decoded) : Prop where
  waits : call.partialSequence = [] ∨ flush = false ∧ Incomplete call.partialSequence
  reads : ∃ items, call.output = text items ∧ call.sawError = (sawError || replaces items) ∧
    ReadsThrough flush chunk.bytes partialSequence items call.partialSequence
  buffers : partialSequence.length + chunk.bytes.length + 3 < 2 ^ 32 →
    ∀ buffer ∈ call.buffers, buffer.Fits

theorem call_decode_nil (fl saw : Bool) (chunk : Chunk) :
    Call fl saw [] chunk (decode fl false saw [] chunk) := by
  have hnr := narrowPhase_nil fl (chunk.address + chunk.bytes.length) saw [] chunk.bytes
  have hwi := hnr.written_le
  have hdr : ReadsDirectly fl saw chunk
      (.allocate ([].length + chunk.bytes.length) _) [] chunk.bytes
      (decode fl false saw [] chunk) := readsDirectly_of_narrow hnr
  obtain ⟨hws, ⟨items, ho, hsw, hrs⟩, length, hn, hbf⟩ := hdr
  refine ⟨hws, ⟨items, ho, hsw, .of_reads hrs⟩, ?_⟩
  intro hsz used hus
  have htx := hrs.length_text_le
  rw [ho] at hbf
  rcases hbf used hus with rfl | rfl
  · exact StringBuffer.fits_allocate hwi (by omega)
  · exact StringBuffer.fits_allocate (htx.trans (Nat.le_add_left ..))
      (by rw [length_nil] at hsz; omega)

theorem length_of_lChar_write {character} {cs : List UInt8}
    (h : lChar.write (some character) = some cs) : cs.length = 1 := by
  change (if character > 0xFF then none else some [UInt8.ofNat character]) = some cs at h
  split_ifs at h
  rw [← Option.some.inj h]
  rfl

theorem call_decode (fl saw : Bool) {part} (chunk : Chunk) (h : part = [] ∨ Incomplete part) :
    Call fl saw part chunk
      (decode fl false saw part chunk) := by
  rcases h with rfl | h
  · exact call_decode_nil fl saw chunk
  have hp := length_pos_iff.mpr h.ne_nil
  generalize hre : handlePartialSequence lChar fl false saw [] chunk.bytes
    part = handled
  have hh := hre ▸ handlePartialSequence_lChar fl saw [] chunk.bytes h
  generalize hcl : decode fl false saw part chunk = call
  rw [decode] at hcl
  cases hh with
  | waits hfl hwt =>
    rw [decodePhase_of_waiting hre rfl hwt.ne_nil, if_neg Bool.false_ne_true] at hcl
    subst hcl
    refine ⟨.inr ⟨hfl, hwt⟩, ⟨[], rfl, (Bool.or_false _).symm, ?_⟩, ?_⟩
    · refine ⟨[], [], part ++ chunk.bytes, rfl, fun hnl => absurd hnl h.ne_nil, ?_,
        ?_, fun _ _ => .refl _⟩
      · intro hfl'
        rw [hfl] at hfl'
        cases hfl'
      · intro fut _
        rw [append_assoc]
        exact .refl _
    · intro hsz used hus
      rw [mem_singleton.mp hus]
      exact StringBuffer.fits_allocate (Nat.zero_le _) (by omega)
  | @upConvert filled rest hfd hr hn hb hne =>
    rw [decodePhase_of_upConvert hre rfl, if_pos rfl] at hcl
    subst hcl
    obtain ⟨hwi, hws, items, ho, hsw, ht⟩ := widePhase fl
      (chunk.address + chunk.bytes.length) saw [] rest filled hb
    have htx := (Nat.le_add_right ..).trans ht.length_le
    have hsh := hr.length_le
    refine ⟨hws, ⟨items, ho, hsw, ?_⟩, ?_⟩
    · obtain ⟨first, snd, middle, rfl, -, hm, hf, hsn⟩ := ht.splits
      refine ⟨first, snd, middle, rfl, fun hnl => absurd hnl h.ne_nil,
        fun hfl => (hm hfl).trans hr, ?_, hsn⟩
      intro fut hft
      have hu := hf fut hft
      rwa [← append_assoc, hfd, append_assoc] at hu
    · intro hsz used hus
      rcases mem_cons.mp hus with rfl | hus
      · exact StringBuffer.fits_allocate (Nat.zero_le _) (by omega)
      · rw [mem_singleton.mp hus, map_nil, hwi, ho]
        change (StringBuffer.allocate (filled.length + chunk.bytes.length) _).Fits
        exact StringBuffer.fits_allocate (htx.trans (Nat.add_le_add_left hsh _)) (by omega)
  | @read c cs rest hwr hr hsh hs =>
    rw [decodePhase_of_handled hre rfl rfl] at hcl
    dsimp only at hcl
    have hnr := narrowPhase_nil fl (chunk.address + chunk.bytes.length) saw
      ([] ++ cs) rest
    have hwi := hnr.written_le
    generalize decodePhase lChar fl false (chunk.address + chunk.bytes.length) saw
      ([] ++ cs) rest [] = narrow at hcl hnr hwi
    have hdr : ReadsDirectly fl saw chunk
        (.allocate (part.length + chunk.bytes.length) narrow.written)
        ([] ++ cs) rest call := hcl ▸ readsDirectly_of_narrow hnr
    obtain ⟨hws, ⟨items, ho, hsw, hrs⟩, length, hn, hbf⟩ := hdr
    have hchars := length_of_lChar_write hwr
    obtain ⟨htx, hrp⟩ := text_of_lChar_write (some c) hwr
    refine ⟨hws, ⟨[some c] ++ items, ?_, ?_, ?_⟩, ?_⟩
    · rw [ho, text_append, ← htx, nil_append]
    · rw [hsw, replaces_append, hrp, Bool.false_or]
    · refine ⟨[some c], items, rest, rfl, fun hnl => absurd hnl h.ne_nil, fun _ => hr, ?_,
        hrs⟩
      intro fut _
      exact .single (.read (hs fut) (not_slips_of_step (hs fut)))
    · intro hsz used hus
      have hitems := hrs.length_text_le
      rw [nil_append] at hwi
      rw [ho, nil_append, length_append, length_map] at hbf
      rcases hbf used hus with rfl | rfl
      · exact StringBuffer.fits_allocate (by omega) (by omega)
      · exact StringBuffer.fits_allocate (by omega) (by omega)

end QtWebKit.TextCodecUTF8
