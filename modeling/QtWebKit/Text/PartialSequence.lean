import QtWebKit.Text.Sequences

/-!
# What the handler of the partial sequence reads

The handler decodes from `m_partialSequence`, which it fills up from the source.
It follows the decoding from left to right except in one place. After a byte
that announces four bytes has been replaced, three bytes are left in the buffer.
If the first two of them are a sequence, the handler drops the last two of the
three instead of the first two, and goes on at the byte it has just read.
-/

namespace QtWebKit.TextCodecUTF8

open Unicode EncodingForms Decoding List

/-! ### The steps of the handler -/

/-- A byte that announces a sequence of four bytes. -/
def IsLeadOfFour (byte : UInt8) : Prop := 0xF0 ≤ byte.toNat ∧ byte.toNat ≤ 0xF4

/-- A byte that announces four bytes is followed by a whole sequence of two and one byte more. -/
inductive Slips : List UInt8 → Prop
  | intro {lead a b c : UInt8} {rest : List UInt8} (hlead : IsLeadOfFour lead)
      (hpair : TableSequence [a, b]) : Slips (lead :: a :: b :: c :: rest)

/-- The handler takes a byte that it has read instead of the one after it, or reads on from left
to right. -/
inductive BufferStep : List UInt8 → List (Option ScalarValue) → List UInt8 → Prop
  | slip {lead a b c : UInt8} {rest : List UInt8} {character : ScalarValue}
      (hlead : IsLeadOfFour lead) (hpair : utf8 character.val = [a, b]) :
      BufferStep (lead :: a :: b :: c :: rest) [none, some character] (a :: rest)
  | read {bytes rest : List UInt8} {out : List (Option ScalarValue)}
      (h : utf8Code.Step bytes out rest) (hslips : ¬ Slips bytes) : BufferStep bytes out rest

variable {b0 : UInt8} {part : List UInt8}

theorem not_slips_of_not_lead {rest} (h : ¬ IsLeadOfFour b0) : ¬ Slips (b0 :: rest) := by
  intro hsl
  cases hsl with
  | intro hld => exact h hld

theorem not_isLeadOfFour_of_length_lt (h : nonASCIISequenceLength b0 < 4) : ¬ IsLeadOfFour b0 := by
  rintro ⟨hlw, hh⟩
  rw [nonASCIISequenceLength_eq] at h
  split_ifs at h <;> omega

theorem isLeadOfFour_of_length_eq (h : nonASCIISequenceLength b0 = 4) : IsLeadOfFour b0 :=
  nonASCIISequenceLength_eq_four h

theorem sequenceLength_of_isLeadOfFour (h : IsLeadOfFour b0) : sequenceLength b0 = 4 := by
  obtain ⟨hlw, hh⟩ := h
  rw [sequenceLength, nonASCIISequenceLength_eq, if_neg (by rw [isASCII_iff]; omega)]
  split_ifs <;> omega

theorem not_isASCII_of_length_ne (h : nonASCIISequenceLength b0 ≠ 0) : ¬ isASCII b0 = true := by
  intro has
  rw [isASCII_iff] at has
  rw [nonASCIISequenceLength_eq, if_pos has] at h
  exact h rfl

theorem Slips.length_le {bs : List UInt8} (h : Slips bs) : 4 ≤ bs.length := by
  cases h with
  | intro => exact Nat.le_add_left 4 _

/-- No character starts at a byte that announces four bytes if a sequence of two follows. -/
theorem Slips.not_starts {bs} (h : Slips bs) : ¬ utf8Code.Starts bs := by
  cases h with
  | @intro lead a b c rest hld hpr =>
    rw [starts_iff, sequenceLength_of_isLeadOfFour hld]
    intro ht
    cases hpr with
    | two ha =>
      cases ht with
      | four _ ha' => exact absurd ha'.2 (by omega)

theorem not_slips_of_step {bs rest c} (h : utf8Code.Step bs [some c] rest) : ¬ Slips bs := by
  intro hsl
  cases h with
  | character c rest => exact hsl.not_starts ⟨c, rest, rfl⟩

/-! ### The buffer at the head of the handler's loop -/

/-- The buffer when no error has just left three bytes in it. -/
def Buffered : List UInt8 → Prop
  | [] => True
  | b0 :: tail => tail.length < max 2 (nonASCIISequenceLength b0)

/-- A buffer that waits for bytes of its first sequence. -/
def Incomplete (partialSequence : List UInt8) : Prop :=
  ∃ b0 tail, partialSequence = b0 :: tail ∧
    (b0 :: tail).length < nonASCIISequenceLength b0

theorem buffered_of_length_le (h : part.length ≤ 2) : Buffered part := by
  cases part with
  | nil => trivial
  | cons b0 tail =>
    rw [length_cons] at h
    exact lt_max_of_lt_left (by omega)

theorem Incomplete.buffered (h : Incomplete part) : Buffered part := by
  obtain ⟨b0, tail, rfl, hn⟩ := h
  rw [length_cons] at hn
  exact lt_max_of_lt_right (by omega)

theorem Incomplete.ne_nil (h : Incomplete part) : part ≠ [] := by
  obtain ⟨b0, tail, rfl, -⟩ := h
  exact cons_ne_nil b0 tail

/-- The bytes before the buffer whose replacement has been written but whose step is still open,
that replacement, and the buffer. -/
inductive Ready : List UInt8 → List (Option ScalarValue) → List UInt8 → Prop
  | buffered {partialSequence : List UInt8} (h : Buffered partialSequence) :
      Ready [] [] partialSequence
  | afterLead {lead x y z : UInt8} (hlead : IsLeadOfFour lead)
      (h : ¬ TableSequence [lead, x, y, z]) : Ready [lead] [none] [x, y, z]

/-- A replaced byte is read from left to right if no sequence of two follows it. -/
theorem Ready.run {pre emitted tail} (h : Ready pre emitted (b0 :: tail))
    (hpr : pre ≠ [] → ∀ b1 rest, tail = b1 :: rest → ¬ TableSequence [b0, b1]) (more : List UInt8) :
    Run BufferStep (pre ++ (b0 :: tail ++ more)) emitted (b0 :: tail ++ more) := by
  cases h with
  | buffered => exact .refl _
  | @afterLead lead x y z hld ht =>
    apply Run.single
    apply BufferStep.read
    · apply PrefixCode.Step.replaced
      rw [cons_append, starts_iff, sequenceLength_of_isLeadOfFour hld]
      exact ht
    · intro hsl
      cases hsl with
      | intro _ htw => exact hpr (by simp) y [z] rfl htw

/-! ### The 16-bit handler -/

/-- The bytes of this call that are still to be read. A buffer that waits has taken them all. -/
def Progress.left {Char : Type} (r : Progress Char) : List UInt8 :=
  if r.upConvert || r.partialSequence.isEmpty then r.partialSequence ++ r.source
  else r.partialSequence

section

variable {Char : Type} {r : Progress Char}

theorem Progress.left_of_upConvert (h : r.upConvert = true) :
    r.left = r.partialSequence ++ r.source := by
  rw [left, h, Bool.true_or, if_pos rfl]

theorem Progress.left_of_empty (h : r.partialSequence = []) : r.left = r.source := by
  rw [left, h, isEmpty_nil, Bool.or_true, if_pos rfl, nil_append]

theorem Progress.left_of_waiting (hup : r.upConvert = false) (h : r.partialSequence ≠ []) :
    r.left = r.partialSequence := by
  rw [left, hup, Bool.false_or, if_neg (by rwa [List.isEmpty_iff])]

end

/-- What the 16-bit handler does from a buffer behind the bytes `before`. -/
structure Handled (flush sawError : Bool) (destination : List UInt16) (before : List UInt8)
    (emitted : List (Option ScalarValue)) (source partialSequence : List UInt8)
    (r : Progress UInt16) : Prop where
  upConvert : r.upConvert = false
  /-- The buffer is empty or waits for more bytes. -/
  done : r.partialSequence = [] ∧ r.source <:+ source ∨
    flush = false ∧ Incomplete r.partialSequence
  reads : ∃ items, r.destination = destination ++ text items ∧
    r.sawError = (sawError || replaces items) ∧
    ∀ future, (flush = true → future = []) →
      Run BufferStep (before ++ (partialSequence ++ (source ++ future))) (emitted ++ items)
        (r.left ++ future)

variable {pre tail : List UInt8} {emitted : List (Option ScalarValue)} {b0 : UInt8}

theorem Handled.of_run {fl saw saw' dest} {pre' src src' part part' r}
    (out emitted' : List (Option ScalarValue))
    (hsw : saw' = (saw || replaces (out ++ emitted'))) (hc : src' <:+ src)
    (hu : ∀ fut, (fl = true → fut = []) →
      Run BufferStep (pre ++ (part ++ (src ++ fut))) (emitted ++ out)
        (pre' ++ (part' ++ (src' ++ fut))))
    (h : Handled fl saw' (dest ++ text (out ++ emitted')) pre' emitted' src' part' r) :
    Handled fl saw dest pre emitted src part r where
  upConvert := h.upConvert
  done := h.done.imp_left fun hdn => ⟨hdn.1, hdn.2.trans hc⟩
  reads := by
    obtain ⟨items, hd, hsw', hu'⟩ := h.reads
    refine ⟨out ++ emitted' ++ items, ?_, ?_, ?_⟩
    · rw [hd, text_append (out ++ emitted'), append_assoc]
    · rw [hsw', hsw, replaces_append (out ++ emitted'), Bool.or_assoc]
    · intro fut hft
      have run := (hu fut hft).trans (hu' fut hft)
      rw [append_assoc] at run ⊢
      exact run

theorem filledSequence_append_append (count : Nat) (src part fut : List UInt8) :
    part ++ (src ++ fut) =
      filledSequence count src part ++
        (unreadSource count src part ++ fut) := by
  rw [← append_assoc, ← append_assoc, filledSequence_append]

theorem tableSequence_pair_length {b1} (h : TableSequence [b0, b1]) :
    nonASCIISequenceLength b0 = 2 := by
  cases h with
  | two ha =>
    rw [nonASCIISequenceLength_eq]
    split_ifs <;> omega

theorem length_filledSequence {count} {src part : List UInt8}
    (h : ¬ lacking count part > src.length) :
    (filledSequence count src part).length = max part.length count := by
  rw [filledSequence, length_append, length_take]
  unfold lacking at *
  omega

section

variable (h : Ready pre emitted (b0 :: tail))
include h

theorem Ready.length_lt : tail.length < max 3 (nonASCIISequenceLength b0) := by
  cases h with
  | buffered h => exact h.trans_le (max_le_max_right _ (by omega))
  | afterLead => exact lt_max_of_lt_left (Nat.lt_succ_self 2)

theorem Ready.length_of_ne_nil (hb : pre ≠ []) : tail.length = 2 := by
  cases h with
  | buffered => exact absurd rfl hb
  | afterLead => rfl

/-- An error at the front of the buffer that leaves at most two bytes behind. -/
theorem Ready.run_replaced {more}
    (hst : ¬ utf8Code.Starts (b0 :: tail ++ more)) (hsl : ¬ Slips (b0 :: tail ++ more)) :
    Run BufferStep (pre ++ (b0 :: tail ++ more)) (emitted ++ [none]) (tail ++ more) := by
  apply (h.run _ more).trans (.single (.read (.replaced hst) hsl))
  intro _ b1 rest htl hpr
  subst htl
  apply hst
  rw [cons_append, starts_iff, sequenceLength,
    if_neg (not_isASCII_of_length_ne (by rw [tableSequence_pair_length hpr]; decide)),
    tableSequence_pair_length hpr]
  exact hpr

/-- A character read from a buffer that holds nothing else. -/
theorem Ready.run_read {more rest c} (hpr : pre ≠ [] → nonASCIISequenceLength b0 ≠ 2)
    (hs : utf8Code.Step (b0 :: tail ++ more) [some c] rest) :
    Run BufferStep (pre ++ (b0 :: tail ++ more)) (emitted ++ [some c]) rest := by
  apply (h.run _ more).trans (.single (.read hs (not_slips_of_step hs)))
  intro hb b1 rest _ ht
  exact hpr hb (tableSequence_pair_length ht)

/-- The buffer before a sequence is read that is shorter than the buffer. -/
theorem Ready.eq_of_length_lt (hcn : 2 ≤ nonASCIISequenceLength b0)
    (hn : nonASCIISequenceLength b0 < (b0 :: tail).length) :
    nonASCIISequenceLength b0 = 2 ∧ ∃ lead y z, IsLeadOfFour lead ∧ pre = [lead] ∧
      emitted = [none] ∧ tail = [y, z] := by
  cases h with
  | buffered h =>
    rw [Buffered, max_eq_right hcn] at h
    rw [length_cons] at hn
    omega
  | @afterLead lead x y z hld _ =>
    rw [length_cons, length_cons, length_singleton] at hn
    exact ⟨by omega, lead, y, z, hld, rfl, rfl, rfl⟩

end

theorem two_le_nonASCIISequenceLength (h : nonASCIISequenceLength b0 ≠ 0) :
    2 ≤ nonASCIISequenceLength b0 := by
  rw [nonASCIISequenceLength_eq] at h ⊢
  split_ifs at h ⊢ <;> omega

section

variable {fl saw : Bool} {dest : List UInt16} {src : List UInt8} {r : Progress UInt16}
  (hr : Ready pre emitted (b0 :: tail))

include hr

theorem Ready.handled_of_isASCII (has : isASCII b0 = true)
    (ih : ∀ pre emitted, Ready pre emitted tail →
      Handled fl saw (dest ++ text [some (asciiCharacter has)]) pre emitted src tail r) :
    Handled fl saw dest pre emitted src (b0 :: tail) r := by
  have hn := hr.length_lt
  have hcn : nonASCIISequenceLength b0 = 0 := by
    rw [nonASCIISequenceLength_eq, if_pos ((isASCII_iff b0).mp has)]
  apply Handled.of_run [some (asciiCharacter has)] [] _ (suffix_refl _) _
    (ih [] [] (.buffered (buffered_of_length_le _)))
  · exact (Bool.or_false _).symm
  · intro fut _
    exact hr.run_read (fun _ => by omega) (step_ascii has _)
  · omega

/-- A byte that starts no sequence is replaced, and at most two bytes are behind it. -/
theorem Ready.handled_of_replaced (hn : tail.length ≤ 2)
    (hst : ∀ fut, (fl = true → fut = []) → ¬ utf8Code.Starts (b0 :: tail ++ (src ++ fut)) ∧
      ¬ Slips (b0 :: tail ++ (src ++ fut)))
    (ih : ∀ pre emitted, Ready pre emitted tail →
      Handled fl true (dest ++ text [none]) pre emitted src tail r) :
    Handled fl saw dest pre emitted src (b0 :: tail) r := by
  apply Handled.of_run [none] [] (Bool.or_true _).symm (suffix_refl _) _
    (ih [] [] (.buffered (buffered_of_length_le hn)))
  intro fut hft
  obtain ⟨hs, hsl⟩ := hst fut hft
  exact hr.run_replaced hs hsl

/-- The buffer takes the rest of the source and waits. -/
theorem Ready.handled_waiting
    (hl : lacking (nonASCIISequenceLength b0) (b0 :: tail) > src.length) :
    Handled false saw dest pre emitted src (b0 :: tail)
      ⟨false, dest, src, b0 :: tail ++ src, saw⟩ := by
  refine ⟨rfl, .inr ⟨rfl, b0, tail ++ src, rfl, ?_⟩, [], ?_, ?_, ?_⟩
  · unfold lacking at hl
    rw [← cons_append, length_append]
    omega
  · rw [text_nil, append_nil]
  · rw [replaces_nil, Bool.or_false]
  · intro fut _
    rw [append_nil]
    change Run BufferStep _ emitted (b0 :: tail ++ src ++ fut)
    rw [append_assoc (b0 :: tail)]
    apply hr.run
    intro hb b1 rest _ ht
    have hn := hr.length_of_ne_nil hb
    rw [lacking, tableSequence_pair_length ht, length_cons] at hl
    omega

end

section

variable {fl saw : Bool} {dest : List UInt16} {src filled rest : List UInt8} {r : Progress UInt16}
  (hr : Ready pre emitted (b0 :: tail)) (hcn : nonASCIISequenceLength b0 ≠ 0)
  (hl : ¬ lacking (nonASCIISequenceLength b0) (b0 :: tail) > src.length)
  (hf : filledSequence (nonASCIISequenceLength b0) src (b0 :: tail) = filled)
  (hrs : unreadSource (nonASCIISequenceLength b0) src (b0 :: tail) = rest)

include hr hcn hl hf hrs

/-- A sequence that is not well-formed: its first byte is replaced. -/
theorem Ready.handled_of_decode_eq_none (h0 : ¬ isASCII b0 = true)
    (hdc : decodeNonASCIISequence filled (nonASCIISequenceLength b0) = none)
    (ih : ∀ pre emitted, Ready pre emitted filled.tail →
      Handled fl true (dest ++ text [none]) pre emitted rest filled.tail r) :
    Handled fl saw dest pre emitted src (b0 :: tail) r := by
  have hsp : ∀ fut, b0 :: tail ++ (src ++ fut) = filled ++ (rest ++ fut) :=
    fun fut => hf ▸ hrs ▸ filledSequence_append_append ..
  have hsf : rest <:+ src := hrs ▸ drop_suffix ..
  have hm := hf ▸ length_filledSequence hl
  have hn := hr.length_lt
  have hle := nonASCIISequenceLength_le b0
  obtain ⟨ftail, rfl⟩ : ∃ ftail, filled = b0 :: ftail := ⟨_, hf.symm⟩
  rw [tail_cons] at ih
  rw [length_cons, length_cons] at hm
  have hst := not_starts_of_decode_eq_none h0 hcn (by rw [length_cons]; omega) hdc
  by_cases hsh : ftail.length ≤ 2
  · apply Handled.of_run [none] [] _ hsf _ (ih [] [] (.buffered (buffered_of_length_le hsh)))
    · exact (Bool.or_true _).symm
    · intro fut _
      have htl : tail ++ (src ++ fut) = ftail ++ (rest ++ fut) :=
        (cons.inj (hsp fut)).2
      have hrd := hr.run_replaced (hsp fut ▸ hst (rest ++ fut))
        (not_slips_of_not_lead (not_isLeadOfFour_of_length_lt (by omega)))
      rwa [htl] at hrd
  · -- Four bytes have been read and three are left: the step stays open.
    have hfr : nonASCIISequenceLength b0 = 4 := by omega
    obtain ⟨x, y, z, rfl⟩ := length_eq_three.mp (show ftail.length = 3 by omega)
    have hld := isLeadOfFour_of_length_eq hfr
    have ht : ¬ TableSequence [b0, x, y, z] := by
      have hno := hst []
      rwa [cons_append, starts_iff, sequenceLength_of_isLeadOfFour hld] at hno
    apply Handled.of_run [] [none] _ hsf _ (ih [b0] [none] (.afterLead hld ht))
    · exact (Bool.or_true _).symm
    · intro fut _
      have hrd := hr.run (fun _ b1 rest _ hpr => by
        have htw := tableSequence_pair_length hpr
        omega) (src ++ fut)
      rw [hsp] at hrd
      rw [hsp, append_nil]
      exact hrd

/-- A well-formed sequence is read. The buffer is empty then, or keeps the first byte of the
sequence instead of the byte after it. -/
theorem Ready.handled_of_decode_eq_some {character wr}
    (hdc : decodeNonASCIISequence filled (nonASCIISequenceLength b0) = some character)
    (hwr : uChar.write (some character) = some wr)
    (ih : ∀ pre emitted,
      Ready pre emitted (filled.take (filled.length - nonASCIISequenceLength b0)) →
      Handled fl saw (dest ++ wr) pre emitted rest
        (filled.take (filled.length - nonASCIISequenceLength b0)) r) :
    Handled fl saw dest pre emitted src (b0 :: tail) r := by
  have hsp : ∀ fut, b0 :: tail ++ (src ++ fut) = filled ++ (rest ++ fut) :=
    fun fut => hf ▸ hrs ▸ filledSequence_append_append ..
  have hsf : rest <:+ src := hrs ▸ drop_suffix ..
  have hm := hf ▸ length_filledSequence hl
  obtain ⟨ftail, rfl⟩ : ∃ ftail, filled = b0 :: ftail := ⟨_, hf.symm⟩
  obtain ⟨c, rfl, hutf8, hs⟩ := step_of_decode_eq_some hcn (hm ▸ le_max_right ..) hdc
  obtain rfl : text [some c] = wr :=
    Option.some.inj ((uChar_write (some c)).symm.trans hwr)
  by_cases he : (b0 :: tail).length ≤ nonASCIISequenceLength b0
  · rw [max_eq_right he] at hm
    rw [hm, Nat.sub_self, take_zero] at ih
    apply Handled.of_run [some c] [] _ hsf _ (ih [] [] (.buffered trivial))
    · exact (Bool.or_false _).symm
    · intro fut _
      have hrd := hs (rest ++ fut)
      rw [drop_of_length_le hm.le, ← hsp] at hrd
      refine hr.run_read (fun hb => ?_) hrd
      have htw := hr.length_of_ne_nil hb
      rw [length_cons] at he
      omega
  · obtain ⟨htw, lead, y, z, hld, rfl, rfl, rfl⟩ := hr.eq_of_length_lt
      (two_le_nonASCIISequenceLength hcn) (Nat.lt_of_not_le he)
    have hnt : lacking (nonASCIISequenceLength b0) [b0, y, z] = 0 := by
      rw [htw]
      rfl
    rw [filledSequence, hnt, take_zero, append_nil] at hf
    rw [unreadSource, hnt, drop_zero] at hrs
    subst hrs
    rw [← hf, htw] at ih hutf8
    apply Handled.of_run [some c] [] _ hsf _
      (ih [] [] (.buffered (buffered_of_length_le (Nat.le_succ 1))))
    · exact (Bool.or_false _).symm
    · intro fut _
      exact .single (.slip hld hutf8)

end

theorem handlePartialSequence_uChar (fl saw : Bool) (dest : List UInt16)
    (src part : List UInt8) (pre : List UInt8)
    (emitted : List (Option ScalarValue)) (hr : Ready pre emitted part) :
    Handled fl saw dest pre emitted src part
      (handlePartialSequence uChar fl false saw dest src part) := by
  fun_induction handlePartialSequence uChar fl false saw dest src
    part generalizing pre emitted with
  | case1 saw dest src =>
    cases hr with
    | buffered =>
      refine ⟨rfl, .inl ⟨rfl, suffix_refl _⟩, [], ?_, ?_, ?_⟩
      · rw [text_nil, append_nil]
      · rw [replaces_nil, Bool.or_false]
      · intro fut _
        exact .refl _
  | case2 saw dest src b0 tail has ih =>
    rw [← text_asciiCharacter has] at ih ⊢
    exact hr.handled_of_isASCII has ih
  | case3 saw dest src b0 tail h0 count hcn hwr => cases hwr
  | case4 saw dest src b0 tail h0 count hcn wr hwr hp => cases hp
  | case5 saw dest src b0 tail h0 count hcn wr hwr hp ih =>
    have hn := hr.length_lt
    have hcn := hcn
    cases hwr
    exact hr.handled_of_replaced (by omega) (fun fut _ => ⟨not_starts_of_length_eq_zero h0 hcn,
      not_slips_of_not_lead (not_isLeadOfFour_of_length_lt (by omega))⟩) ih
  | case6 saw dest src b0 tail h0 count hcn hl hfl =>
    obtain rfl : fl = false := by simpa using hfl
    exact hr.handled_waiting hl
  | case7 saw dest src b0 tail h0 count hcn hl hfl hwr => cases hwr
  | case8 saw dest src b0 tail h0 count hcn hl hfl wr hwr hp =>
    cases hp
  | case9 saw dest src b0 tail h0 count hcn hl hfl wr hwr hp ih =>
    have hl := hl
    have hn := nonASCIISequenceLength_le b0
    rw [lacking, length_cons] at hl
    have hsh : (b0 :: tail ++ src).length < nonASCIISequenceLength b0 := by
      rw [length_append, length_cons]
      omega
    cases hwr
    refine hr.handled_of_replaced (by omega) (fun fut hft => ?_) ih
    obtain rfl := hft (by simpa using hfl)
    rw [append_nil]
    refine ⟨not_starts_of_lt h0 hsh, fun hsl => ?_⟩
    have hlong := hsl.length_le
    omega
  | case10 saw dest src b0 tail h0 count hcn hl filled rest hdc hwr =>
    cases hwr
  | case11 saw dest src b0 tail h0 count hcn hl filled rest hdc wr
      hwr hp => cases hp
  | case12 saw dest src b0 tail h0 count hcn hl filled rest hdc wr
      hwr hp ih =>
      cases hwr
      exact hr.handled_of_decode_eq_none hcn hl rfl rfl h0 hdc ih
  | case13 saw dest src b0 tail h0 count hcn hl filled rest character hdc
      hwr => cases hwr
  | case14 saw dest src b0 tail h0 count hcn hl filled rest character hdc
      wr hwr ih =>
      exact hr.handled_of_decode_eq_some hcn hl rfl rfl hdc hwr ih

end QtWebKit.TextCodecUTF8
