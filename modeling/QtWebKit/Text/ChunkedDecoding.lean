import QtWebKit.Text.DecodeCall

/-!
# Decoding a stream in chunks

The output of successive calls is compared with the decoding of all bytes from
left to right. A single call that flushes is always right. Successive calls are
right for every way of cutting the bytes exactly if the bytes nowhere hold a
byte that announces four bytes, a whole sequence of two bytes, and then a byte
whose loss shows.

## Implementation notes

The lost byte shows if it is ASCII, or if a continuation byte follows it and it
differs from the byte that is read in its place.
-/

namespace QtWebKit.TextCodecUTF8

open Unicode EncodingForms Decoding List

/-! ### Bytes whose loss shows -/

def isTail (byte : UInt8) : Bool := 0x80 ≤ byte && byte ≤ 0xBF

/-- The byte behind a byte that announces four and a sequence of two is read wrongly when they
pass through the partial sequence. -/
def losesByteAt : List UInt8 → Bool
  | lead :: a :: b :: c :: rest =>
    (0xF0 ≤ lead && lead ≤ 0xF4) && (0xC2 ≤ a && a ≤ 0xDF) && isTail b &&
      (isASCII c || (c != a && rest.head?.any isTail))
  | _ => false

def losesByte (bytes : List UInt8) : Bool := bytes.tails.any losesByteAt

theorem isTail_iff (byte : UInt8) : isTail byte = true ↔ IsTail byte := by
  simp [isTail, IsTail, UInt8.le_iff_toNat_le, UInt8.reduceToNat]

theorem losesByte_iff (bs : List UInt8) :
    losesByte bs = true ↔ ∃ pre after, bs = pre ++ after ∧ losesByteAt after = true := by
  simp only [losesByte, any_eq_true, mem_tails]
  constructor
  · rintro ⟨after, ⟨pre, h⟩, hls⟩
    exact ⟨pre, after, h.symm, hls⟩
  · rintro ⟨pre, after, h, hls⟩
    exact ⟨after, ⟨pre, h.symm⟩, hls⟩

variable {bs rest part pre : List UInt8} {lead a b : UInt8}
  {items : List (Option ScalarValue)}

theorem losesByte_eq_false_of_suffix (h : losesByte bs = false)
    (hr : rest <:+ bs) : losesByte rest = false := by
  rw [← Bool.not_eq_true, losesByte_iff] at h ⊢
  rintro ⟨pre, after, rfl, hls⟩
  obtain ⟨pre', rfl⟩ := hr
  exact h ⟨pre' ++ pre, after, (append_assoc ..).symm, hls⟩

theorem losesByteAt_eq_false_of_suffix (h : losesByte bs = false)
    (hr : rest <:+ bs) : losesByteAt rest = false := by
  rw [← Bool.not_eq_true] at h ⊢
  obtain ⟨pre, rfl⟩ := hr
  intro hls
  exact h ((losesByte_iff _).mpr ⟨pre, rest, rfl, hls⟩)

theorem losesByteAt_iff {c} :
    losesByteAt (lead :: a :: b :: c :: rest) = true ↔
      IsLeadOfFour lead ∧ TableSequence [a, b] ∧
        (isASCII c = true ∨ c ≠ a ∧ ∃ t rest', rest = t :: rest' ∧ IsTail t) := by
  have htl : rest.head?.any isTail = true ↔ ∃ t rest', rest = t :: rest' ∧ IsTail t := by
    cases rest with
    | nil => simp
    | cons t rest' => simp [isTail_iff]
  have hpr : TableSequence [a, b] ↔ (0xC2 ≤ a.toNat ∧ a.toNat ≤ 0xDF) ∧ IsTail b :=
    ⟨fun h => by cases h with | two ha hb => exact ⟨ha, hb⟩, fun h => .two h.1 h.2⟩
  simp only [losesByteAt, Bool.and_eq_true, Bool.or_eq_true, decide_eq_true_eq, bne_iff_ne,
    UInt8.le_iff_toNat_le, UInt8.reduceToNat, isTail_iff, htl, hpr, IsLeadOfFour, and_assoc]

theorem exists_of_losesByteAt (h : losesByteAt bs = true) :
    ∃ lead a b c rest, bs = lead :: a :: b :: c :: rest := by
  match bs, h with
  | lead :: a :: b :: c :: rest, _ => exact ⟨lead, a, b, c, rest, rfl⟩

theorem losesByte_cons {b0} (h0 : ¬ IsLeadOfFour b0)
    (h : losesByte rest = false) : losesByte (b0 :: rest) = false := by
  rw [← Bool.not_eq_true, losesByte_iff] at h ⊢
  rintro ⟨pre, after, heq, hls⟩
  cases pre with
  | nil =>
    obtain ⟨lead, a, b, c, rest', rfl⟩ := exists_of_losesByteAt hls
    obtain ⟨rfl, -⟩ := cons.inj heq
    exact h0 (losesByteAt_iff.mp hls).1
  | cons byte pre => exact h ⟨pre, after, (cons.inj heq).2, hls⟩

/-! ### Steps along a stream -/

/-- A step of either way of reading. -/
def CodecStep (bytes : List UInt8) (out : List (Option ScalarValue)) (rest : List UInt8) : Prop :=
  utf8Code.Step bytes out rest ∨ BufferStep bytes out rest

/-- Nothing starts at a byte that is not ASCII if no continuation byte follows. -/
theorem not_starts_of_no_tail {b0} (h0 : ¬ isASCII b0 = true)
    (h : ¬ ∃ t rest', rest = t :: rest' ∧ IsTail t) : ¬ utf8Code.Starts (b0 :: rest) := by
  rintro ⟨c, more, heq⟩
  have htb := tableSequence_utf8 c
  change b0 :: rest = utf8 c.val ++ more at heq
  generalize utf8 c.val = sequence at heq htb
  cases htb with
  | one ha =>
    obtain ⟨rfl, -⟩ := cons.inj heq
    exact h0 ((isASCII_iff _).mpr ha)
  | two _ hb => exact h ⟨_, _, (cons.inj heq).2, hb⟩
  | three _ hb => exact h ⟨_, _, (cons.inj heq).2, hb⟩
  | four _ hb => exact h ⟨_, _, (cons.inj heq).2, hb⟩

theorem not_isASCII_of_pair (h : TableSequence [a, b]) : ¬ isASCII a = true :=
  not_isASCII_of_length_ne (by rw [tableSequence_pair_length h]; decide)

theorem not_isLeadOfFour_of_pair (h : TableSequence [a, b]) : ¬ IsLeadOfFour a :=
  not_isLeadOfFour_of_length_lt (by rw [tableSequence_pair_length h]; decide)

/-- The decoding does not depend on which of the two bytes is read if no loss shows. -/
theorem Decodes.of_slip {c} (hld : IsLeadOfFour lead)
    (hpr : TableSequence [a, b]) (h : losesByteAt (lead :: a :: b :: c :: rest) = false)
    (hi : utf8Code.Decodes (a :: rest) items) : utf8Code.Decodes (c :: rest) items := by
  rw [← Bool.not_eq_true, losesByteAt_iff] at h
  by_cases hc : c = a
  · rwa [hc]
  · have htl : ¬ ∃ t rest', rest = t :: rest' ∧ IsTail t :=
      fun htl => h ⟨hld, hpr, .inr ⟨hc, htl⟩⟩
    have has : ¬ isASCII c = true := fun has => h ⟨hld, hpr, .inl has⟩
    obtain ⟨items', rfl, hr⟩ := hi.of_step
      (.replaced (not_starts_of_no_tail (not_isASCII_of_pair hpr) htl))
    exact .head (.replaced (not_starts_of_no_tail has htl)) hr

/-- The bytes of a slip, read from left to right. -/
theorem run_of_slip {character : ScalarValue} (hld : IsLeadOfFour lead)
    (hpr : utf8 character.val = [a, b]) (c : UInt8) (rest : List UInt8) :
    Run utf8Code.Step (lead :: a :: b :: c :: rest) [none, some character] (c :: rest) := by
  have hsl : Slips (lead :: a :: b :: c :: rest) :=
    .intro hld (hpr ▸ tableSequence_utf8 character)
  have hen : utf8Code.encode character = [a, b] := hpr
  have hrd : utf8Code.Step (utf8Code.encode character ++ (c :: rest)) _ _ :=
    .character character (c :: rest)
  rw [hen] at hrd
  exact (Run.single (.replaced hsl.not_starts)).trans (.single hrd)

/-- Where no loss shows, a stream is decoded from left to right. -/
theorem decodes_of_run (run : Run CodecStep bs items []) (h : losesByte bs = false) :
    utf8Code.Decodes bs items := by
  generalize he : ([] : List UInt8) = last at run
  induction run with
  | refl s =>
    subst he
    exact .refl _
  | head hs tail ih =>
    rcases hs with hs | hs
    · exact .head hs (ih (losesByte_eq_false_of_suffix h hs.suffix) he)
    · cases hs with
      | read hs _ =>
        exact .head hs (ih (losesByte_eq_false_of_suffix h hs.suffix) he)
      | @slip lead a b c rest character hld hutf8 =>
        have hpr := hutf8 ▸ tableSequence_utf8 character
        have hr : losesByte (a :: rest) = false := by
          apply losesByte_cons (not_isLeadOfFour_of_pair hpr)
          exact losesByte_eq_false_of_suffix h (suffix_append [lead, a, b, c] rest)
        have hdc := Decodes.of_slip hld hpr
          (losesByteAt_eq_false_of_suffix h (suffix_refl _)) (ih hr he)
        exact (run_of_slip hld hutf8 c rest).trans hdc

/-! ### Successive calls -/

/-- All the bytes of successive calls. -/
def streamBytes (chunks : List Chunk) (last : Chunk) : List UInt8 :=
  chunks.flatMap Chunk.bytes ++ last.bytes

theorem ReadsThrough.run {fl src left} (h : ReadsThrough fl src part items left)
    (fut : List UInt8) (hft : fl = true → fut = []) :
    Run CodecStep (part ++ (src ++ fut)) items (left ++ fut) := by
  obtain ⟨first, snd, middle, rfl, -, -, hf, hsn⟩ := h.splits
  exact ((hf fut hft).mono .inr).trans ((hsn fut hft).mono .inl)

/-- The output and the error flag of a call belong to the items it has read. -/
def CallItems (call : Decoded) (items : List (Option ScalarValue)) : Prop :=
  call.output = text items ∧ call.sawError = replaces items

/-- Successive calls read the whole stream by steps of the codec. -/
theorem decodeChunks_run (chunks : List Chunk) (last : Chunk) (h : part = [] ∨ Incomplete part) :
    ∃ itemss, List.Forall₂ CallItems (decodeChunks part chunks last) itemss ∧
      Run CodecStep (part ++ streamBytes chunks last) itemss.flatten [] := by
  induction chunks generalizing part with
  | nil =>
    obtain ⟨hw, ⟨items, ho, hsw, hrs⟩, -⟩ := call_decode true false last h
    have hem := hw.resolve_right (fun hwt => by cases hwt.1)
    refine ⟨[items], .cons ⟨ho, hsw⟩ .nil, ?_⟩
    have hu := hrs.run [] (fun _ => rfl)
    rw [hem, append_nil] at hu
    rwa [flatten_singleton]
  | cons chunk chunks ih =>
    obtain ⟨hw, ⟨items, ho, hsw, hrs⟩, -⟩ := call_decode false false chunk h
    obtain ⟨itemss, hcl, hu⟩ := ih (hw.imp_right And.right)
    refine ⟨items :: itemss, .cons ⟨ho, hsw⟩ hcl, ?_⟩
    rw [flatten_cons, streamBytes, flatMap_cons, append_assoc]
    exact (hrs.run (streamBytes chunks last) (fun hfl => by cases hfl)).trans hu

theorem fits_decodeChunks (chunks : List Chunk) (last : Chunk) (h : part = [] ∨ Incomplete part)
    (hsz : part.length + (streamBytes chunks last).length + 3 < 2 ^ 32) :
    ∀ call ∈ decodeChunks part chunks last, ∀ buffer ∈ call.buffers, buffer.Fits := by
  induction chunks generalizing part with
  | nil =>
    intro call hca
    rw [decodeChunks, mem_singleton] at hca
    rw [hca]
    exact (call_decode true false last h).buffers hsz
  | cons chunk chunks ih =>
    obtain ⟨hw, ⟨items, -, -, hrs⟩, hbr⟩ := call_decode false false chunk h
    have hn := hrs.length_le
    rw [streamBytes, flatMap_cons, append_assoc, length_append] at hsz
    change _ + (_ + (streamBytes chunks last).length) + 3 < _ at hsz
    intro call hca
    rcases mem_cons.mp hca with rfl | hca
    · exact hbr (by omega)
    · exact ih (hw.imp_right And.right) (by omega) call hca

/-! ### A cut behind a byte that announces four -/

theorem isTail_of_mem_tail {b0 tail} (h : TableSequence (b0 :: tail))
    {byte} (hby : byte ∈ tail) : IsTail byte := by
  cases h with
  | one => cases hby
  | two _ hb =>
    rw [mem_singleton.mp hby]
    exact hb
  | three _ hb hc =>
    simp only [mem_cons, not_mem_nil, or_false] at hby
    rcases hby with rfl | rfl
    · exact hb
    · exact hc
  | four _ hb hc hd =>
    simp only [mem_cons, not_mem_nil, or_false] at hby
    rcases hby with rfl | rfl | rfl
    · exact hb
    · exact hc
    · exact hd

theorem IsLeadOfFour.not_isTail (h : IsLeadOfFour lead) : ¬ IsTail lead :=
  fun htl => absurd htl.2 (by have := h.1; omega)

/-- A step from before a byte that continues nothing stops at the byte at the latest. -/
theorem step_before {after out} (hld : ¬ IsTail lead) (hbf : pre ≠ [])
    (h : utf8Code.Step (pre ++ lead :: after) out rest) :
    ∃ pre', rest = pre' ++ lead :: after ∧ pre'.length < pre.length := by
  generalize hbs : pre ++ lead :: after = bs at h
  cases h with
  | character c rest =>
    change pre ++ lead :: after = utf8 c.val ++ rest at hbs
    rcases append_eq_append_iff.mp hbs with ⟨middle, hc, hm⟩ | ⟨middle, hc, hr⟩
    · cases middle with
      | nil => exact ⟨[], hm.symm, length_pos_iff.mpr hbf⟩
      | cons byte middle =>
        obtain ⟨rfl, -⟩ := cons.inj hm
        cases pre with
        | nil => exact absurd rfl hbf
        | cons b0 pre =>
          have htb := tableSequence_utf8 c
          rw [hc, cons_append] at htb
          exact absurd (isTail_of_mem_tail htb (mem_append_cons_self)) hld
    · refine ⟨middle, hr, ?_⟩
      have hp := length_pos_iff.mpr (utf8Code.ne_nil c)
      change 0 < (utf8 c.val).length at hp
      rw [hc, length_append]
      omega
  | @replaced unit rest hstarts =>
    cases pre with
    | nil => exact absurd rfl hbf
    | cons b0 pre =>
      obtain ⟨-, rfl⟩ := cons.inj hbs
      exact ⟨pre, rfl, Nat.lt_succ_self _⟩

/-- A run over a byte that continues nothing stands at it once. -/
theorem run_reaches {step : List UInt8 → List (Option ScalarValue) → List UInt8 → Prop}
    {after : List UInt8} (bound : Nat) (hld : ¬ IsTail lead)
    (hs : ∀ {pre out rest}, pre ≠ [] → pre.length ≤ bound →
      step (pre ++ lead :: after) out rest → utf8Code.Step (pre ++ lead :: after) out rest)
    {last : List UInt8}
    (hbf : pre.length ≤ bound) (run : Run step (pre ++ lead :: after) items last)
    (hl : last.length ≤ after.length) :
    ∃ items₁ items₂, items = items₁ ++ items₂ ∧
      Run utf8Code.Step (pre ++ lead :: after) items₁ (lead :: after) ∧
      Run step (lead :: after) items₂ last := by
  generalize hbs : pre ++ lead :: after = bs at run
  induction run generalizing pre with
  | refl =>
    have hn := congrArg length hbs
    rw [length_append, length_cons] at hn
    omega
  | @head bs middle last out out' h tail ih =>
    subst hbs
    by_cases hnl : pre = []
    · subst hnl
      exact ⟨[], out ++ out', rfl, .refl _, .head h tail⟩
    · have hrd := hs hnl hbf h
      obtain ⟨pre', rfl, hsh⟩ := step_before hld hnl hrd
      obtain ⟨items₁, items₂, rfl, hu₁, hu₂⟩ := ih (hsh.le.trans hbf) hl rfl
      exact ⟨out ++ items₁, items₂, (append_assoc ..).symm, .head hrd hu₁, hu₂⟩

/-- A byte that announces four starts a character with the right bytes behind it. -/
theorem exists_starts_of_lead (h : IsLeadOfFour lead) :
    ∃ (c : ScalarValue) (byte : UInt8) (bs : List UInt8),
      utf8 c.val = lead :: byte :: bs := by
  obtain ⟨hlw, hh⟩ := h
  have htl : ∀ byte : UInt8, byte.toNat = 0x80 ∨ byte.toNat = 0x90 → IsTail byte :=
    fun byte hby => ⟨by omega, by omega⟩
  by_cases hl : lead.toNat = 0xF4
  · have htb : TableSequence [lead, 0x80, 0x80, 0x80] :=
      .four ⟨hlw, hh⟩ (htl _ (.inl rfl)) (htl _ (.inl rfl)) (htl _ (.inl rfl))
        (fun hf => by omega) (fun _ => by decide)
    obtain ⟨c, hc⟩ := (tableSequence_iff _).mp htb
    exact ⟨c, _, _, hc.symm⟩
  · have htb : TableSequence [lead, 0x90, 0x80, 0x80] :=
      .four ⟨hlw, hh⟩ (htl _ (.inr rfl)) (htl _ (.inl rfl)) (htl _ (.inl rfl))
        (fun _ => by decide) (fun hl' => absurd hl' hl)
    obtain ⟨c, hc⟩ := (tableSequence_iff _).mp htb
    exact ⟨c, _, _, hc.symm⟩

/-- A call that ends with a byte that announces four keeps the byte. -/
theorem left_of_lead {left} (hld : IsLeadOfFour lead)
    (h : Reads false (pre ++ [lead]) items left) (hlf : left = [] ∨ Incomplete left) :
    ∃ pre', left = pre' ++ [lead] ∧ pre'.length ≤ 2 := by
  have hsf : left <:+ pre ++ [lead] := by
    have hu := PrefixCode.run_suffix (h [] (fun hfl => by cases hfl))
    rwa [append_nil, append_nil] at hu
  rcases hlf with rfl | hwt
  · -- With the rest of a character behind it, the byte would start that character.
    exfalso
    obtain ⟨c, byte, bs, hc⟩ := exists_starts_of_lead hld
    have hu : Run utf8Code.Step (pre ++ lead :: byte :: bs) items (byte :: bs) := by
      have hu := h (byte :: bs) (fun hfl => by cases hfl)
      rwa [append_assoc] at hu
    obtain ⟨items₁, items₂, -, -, hu₂⟩ := run_reaches pre.length hld.not_isTail
      (fun _ _ hs => hs) le_rfl hu le_rfl
    have hen : utf8Code.encode c = lead :: byte :: bs := hc
    have hrd : utf8Code.Step (utf8Code.encode c ++ []) _ _ := .character c []
    rw [hen, append_nil] at hrd
    generalize hf : lead :: byte :: bs = first at hrd hu₂
    generalize hl : byte :: bs = last at hu₂
    cases hu₂ with
    | refl =>
      have hn := congrArg length (hf.trans hl.symm)
      simp only [length_cons] at hn
      omega
    | head hs tail =>
      obtain ⟨-, rfl⟩ := hrd.deterministic hs
      have hnl := suffix_nil.mp (PrefixCode.run_suffix tail)
      rw [← hl] at hnl
      cases hnl
  · obtain ⟨middle, hm⟩ := hsf
    have hn := hwt.length_lt
    obtain ⟨pre', byte, rfl⟩ := (eq_nil_or_concat' left).resolve_left hwt.ne_nil
    obtain rfl : byte = lead := by
      rw [← append_assoc] at hm
      exact (append_inj' hm rfl).2 |> singleton_inj.mp
    rw [length_append, length_singleton] at hn
    exact ⟨pre', rfl, by omega⟩

/-- No slip starts within two bytes before a byte that announces four. -/
theorem bufferStep_before {after out} (hld : IsLeadOfFour lead) (hbf : pre ≠ [])
    (hn : pre.length ≤ 2) (h : BufferStep (pre ++ lead :: after) out rest) :
    utf8Code.Step (pre ++ lead :: after) out rest := by
  generalize hbs : pre ++ lead :: after = bs at h ⊢
  cases h with
  | read h => exact h
  | @slip lead' a b c rest character hld' hutf8 =>
    have hpr := hutf8 ▸ tableSequence_utf8 character
    match pre, hbf, hn with
    | [x], _, _ =>
      obtain ⟨rfl, -⟩ := cons.inj (cons.inj hbs).2
      exact absurd hld (not_isLeadOfFour_of_pair hpr)
    | [x, y], _, _ =>
      obtain ⟨rfl, -⟩ := cons.inj (cons.inj (cons.inj hbs).2).2
      exact absurd (isTail_of_mem_tail hpr mem_cons_self) hld.not_isTail

/-- A run of the handler through such bytes slips. -/
theorem run_slips {c} {last : List UInt8} (hld : IsLeadOfFour lead) (hpr : TableSequence [a, b])
    (run : Run BufferStep (lead :: a :: b :: c :: rest) items last)
    (hl : last.length ≤ (a :: b :: c :: rest).length) :
    ∃ character items', utf8 character.val = [a, b] ∧ items = [none, some character] ++ items' ∧
      Run BufferStep (a :: rest) items' last := by
  generalize hbs : lead :: a :: b :: c :: rest = bs at run
  cases run with
  | refl =>
    subst hbs
    exact absurd hl (by simp only [length_cons]; omega)
  | head h tail =>
    cases h with
    | slip hld' hutf8 =>
      cases hbs
      exact ⟨_, _, hutf8, rfl, tail⟩
    | read _ hsl => exact absurd (hbs ▸ Slips.intro hld hpr) hsl

/-! ### The first code unit that shows the loss -/

/-- A character below U+0800 is told from every other item by its first code unit. -/
theorem item_eq_of_text_eq {x : ScalarValue} {item items'} (hx : x.val < 0x800)
    (h : text (some x :: items) = text (item :: items')) : item = some x := by
  have hhd := congrArg head? h
  change (utf16 x.val ++ text items).head? = _ at hhd
  rw [utf16, if_pos (by omega)] at hhd
  cases item with
  | none =>
    have hun := Option.some.inj hhd
    rw [← UInt16.toNat_inj, toNat_ofNat_unit (by omega)] at hun
    exact absurd hun (by rw [toNat_ofNat_unit (by decide)]; unfold replacementCharacter; omega)
  | some y =>
    obtain ⟨y, hy⟩ := y
    unfold IsScalarValue at hy
    change _ = (utf16 y ++ text items').head? at hhd
    unfold utf16 at hhd
    split_ifs at hhd with hbmp
    · have hun := Option.some.inj hhd
      rw [← UInt16.toNat_inj, toNat_ofNat_unit (by omega), toNat_ofNat_unit (by omega)] at hun
      exact congrArg some (Subtype.ext hun.symm)
    · have hun := Option.some.inj hhd
      rw [← UInt16.toNat_inj, toNat_ofNat_unit (by omega), toNat_ofNat_unit (by omega)] at hun
      omega

theorem lt_of_utf8_eq_pair {x : ScalarValue} (h : utf8 x.val = [a, b]) : x.val < 0x800 := by
  by_contra hx
  have hn := congrArg length h
  rw [utf8, if_neg (by omega), if_neg (by omega)] at hn
  split_ifs at hn <;> cases hn

/-- The front byte of a step that yields a character is the first byte of its code. -/
theorem head_of_step {b0 byte tail more} {x : ScalarValue}
    (h : utf8Code.Step (b0 :: tail) [some x] rest) (hx : utf8 x.val = byte :: more) :
    b0 = byte := by
  generalize hbs : b0 :: tail = bs at h
  cases h with
  | character x rest =>
    change _ = utf8 x.val ++ rest at hbs
    rw [hx] at hbs
    exact (cons.inj hbs).1

/-- A run from a byte that does not announce four starts with a step from left to right. -/
theorem exists_step_of_run {b0 tail}
    (h0 : ¬ IsLeadOfFour b0) (run : Run CodecStep (b0 :: tail) items []) :
    ∃ out rest items', utf8Code.Step (b0 :: tail) out rest ∧ items = out ++ items' := by
  generalize hbs : b0 :: tail = bs at run ⊢
  generalize hl : ([] : List UInt8) = last at run
  cases run with
  | refl => cases hl.trans hbs.symm
  | head hs tail =>
    rcases hs with hs | hs
    · exact ⟨_, _, _, hs, rfl⟩
    · cases hs with
      | read hs => exact ⟨_, _, _, hs, rfl⟩
      | slip hld =>
        obtain ⟨rfl, -⟩ := cons.inj hbs
        exact absurd hld h0

theorem text_ne_of_losesByteAt {c right wrong}
    (h : losesByteAt (lead :: a :: b :: c :: rest) = true)
    (hrg : utf8Code.Decodes (c :: rest) right) (hwr : Run CodecStep (a :: rest) wrong []) :
    text wrong ≠ text right := by
  obtain ⟨-, hpr, hss⟩ := losesByteAt_iff.mp h
  obtain ⟨out, left, wrong, hs, rfl⟩ :=
    exists_step_of_run (not_isLeadOfFour_of_pair hpr) hwr
  intro htx
  rcases hss with has | ⟨hne, t, rest, rfl, ht⟩
  · -- The lost byte is a character of its own.
    obtain ⟨right, rfl, -⟩ := hrg.of_step (step_ascii has rest)
    obtain ⟨item, rfl⟩ := hs.exists_item
    have hby := (isASCII_iff c).mp has
    obtain rfl := item_eq_of_text_eq (show (asciiCharacter has).val < 0x800 from by
      change c.toNat < 0x800
      omega) htx.symm
    have heq := head_of_step hs (utf8_one hby)
    exact not_isASCII_of_pair hpr (heq ▸ has)
  · -- The byte read in its place makes another character with the continuation byte.
    obtain ⟨x, hx⟩ : ∃ x : ScalarValue, utf8 x.val = [a, t] := by
      cases hpr with
      | two ha =>
        obtain ⟨x, hx⟩ := (tableSequence_iff _).mp (.two ha ht)
        exact ⟨x, hx.symm⟩
    have hen : utf8Code.encode x = [a, t] := hx
    have hrd : utf8Code.Step (utf8Code.encode x ++ rest) _ _ := .character x rest
    rw [hen] at hrd
    obtain ⟨rfl, -⟩ := hrd.deterministic hs
    obtain ⟨out, left', hs'⟩ := PrefixCode.exists_step utf8Code (c :: t :: rest) (by simp)
    obtain ⟨right, rfl, -⟩ := hrg.of_step hs'
    obtain ⟨item, rfl⟩ := hs'.exists_item
    obtain rfl := item_eq_of_text_eq (lt_of_utf8_eq_pair hx) htx
    exact hne (head_of_step hs' hx)

/-- Cut behind the byte that announces four, such bytes are decoded wrongly. -/
theorem output_ne_of_losesByteAt (pre : List UInt8) {c}
    (h : losesByteAt (lead :: a :: b :: c :: rest) = true)
    (hi : utf8Code.Decodes (pre ++ lead :: a :: b :: c :: rest) items) :
    (decodeChunks [] [⟨0, pre ++ [lead]⟩] ⟨0, a :: b :: c :: rest⟩).flatMap Decoded.output ≠
      text items := by
  obtain ⟨hld, hpr, -⟩ := losesByteAt_iff.mp h
  obtain ⟨hw, ⟨items₁, ho₁, -, hrs₁⟩, -⟩ :=
    call_decode_nil false false ⟨0, pre ++ [lead]⟩
  have hlf := hw.imp_right And.right
  obtain ⟨pre', hbf', hn⟩ := left_of_lead hld hrs₁.reads hlf
  obtain ⟨hw₂, ⟨items₂, ho₂, -, hrs₂⟩, -⟩ :=
    call_decode true false ⟨0, a :: b :: c :: rest⟩ hlf
  rw [hw₂.resolve_right (fun hwt => by cases hwt.1), hbf'] at hrs₂
  obtain ⟨first, snd, middle, rfl, -, hm, hf, hsn⟩ := hrs₂.splits
  have hu : Run BufferStep (pre' ++ lead :: a :: b :: c :: rest) first middle := by
    have hu := hf [] (fun _ => rfl)
    simpa only [append_nil, append_assoc, singleton_append] using hu
  obtain ⟨items₃, items₄, rfl, hu₃, hu₄⟩ := run_reaches 2 hld.not_isTail
    (bufferStep_before hld) hn hu (hm rfl).length_le
  obtain ⟨character, items₅, hutf8, rfl, hu₅⟩ :=
    run_slips hld hpr hu₄ (hm rfl).length_le
  have hcm : Run utf8Code.Step (pre ++ lead :: a :: b :: c :: rest)
      (items₁ ++ (items₃ ++ [none, some character])) (c :: rest) := by
    have hu₁ := hrs₁.reads (a :: b :: c :: rest) (fun hfl => by cases hfl)
    rw [hbf', append_assoc, append_assoc] at hu₁
    exact hu₁.trans (hu₃.trans (run_of_slip hld hutf8 c rest))
  obtain ⟨right, rfl, hrg⟩ := hi.of_run hcm
  have hwr : Run CodecStep (a :: rest) (items₅ ++ snd) [] := by
    have hl := hsn [] (fun _ => rfl)
    rw [append_nil] at hl
    exact (hu₅.mono .inr).trans (hl.mono .inl)
  have hcl : (decodeChunks [] [⟨0, pre ++ [lead]⟩] ⟨0, a :: b :: c :: rest⟩).flatMap
      Decoded.output = text (items₁ ++ (items₃ ++ [none, some character])) ++
        text (items₅ ++ snd) := by
    rw [decodeChunks, flatMap_cons, ho₁, decodeChunks, flatMap_singleton, ho₂]
    simp only [text_append, append_assoc]
  rw [hcl, text_append _ right]
  intro htx
  exact text_ne_of_losesByteAt h hrg hwr (append_cancel_left htx)

/-! ### Every way of cutting the bytes -/

/-- The calls for these chunks decode their bytes from left to right, as one call does, set the
error flag with the replacements, and keep to their buffers. -/
structure DecodesInChunks (chunks : List Chunk) (last : Chunk) : Prop where
  output : ∀ address, (decodeChunks [] chunks last).flatMap Decoded.output =
    (decode true false false [] ⟨address, streamBytes chunks last⟩).output
  decodes : ∃ itemss, utf8Code.Decodes (streamBytes chunks last) itemss.flatten ∧
    List.Forall₂ CallItems (decodeChunks [] chunks last) itemss
  oneCall : ∀ address, ∃ items, utf8Code.Decodes (streamBytes chunks last) items ∧
    CallItems (decode true false false [] ⟨address, streamBytes chunks last⟩) items
  buffers : ∀ call ∈ decodeChunks [] chunks last, ∀ buffer ∈ call.buffers, buffer.Fits
  oneCallBuffers : ∀ address, ∀ buffer ∈
    (decode true false false [] ⟨address, streamBytes chunks last⟩).buffers, buffer.Fits

/-- A single call that flushes decodes from left to right. -/
theorem decodes_oneCall (addr : Nat) (bs : List UInt8) :
    ∃ items, utf8Code.Decodes bs items ∧
      CallItems (decode true false false [] ⟨addr, bs⟩) items := by
  obtain ⟨hw, ⟨items, ho, hsw, hrs⟩, -⟩ := call_decode_nil true false ⟨addr, bs⟩
  refine ⟨items, ?_, ho, hsw⟩
  have hu := hrs.reads [] (fun _ => rfl)
  rwa [hw.resolve_right (fun hwt => by cases hwt.1), append_nil, append_nil] at hu

theorem flatMap_output_of_callItems {calls : List Decoded}
    {itemss : List (List (Option ScalarValue))} (h : List.Forall₂ CallItems calls itemss) :
    calls.flatMap Decoded.output = text itemss.flatten := by
  induction h with
  | nil => rfl
  | cons hca _ ih => rw [flatMap_cons, flatten_cons, text_append, hca.1, ih]

/-- Every way of cutting the bytes is decoded right exactly if no byte is lost that shows. The
lengths of the buffers are 32-bit numbers. -/
theorem decodesInChunks_iff (bytes : List UInt8) (hsize : bytes.length + 3 < 2 ^ 32) :
    (∀ chunks last, streamBytes chunks last = bytes → DecodesInChunks chunks last) ↔
      losesByte bytes = false := by
  constructor
  · intro h
    by_contra hloses
    rw [Bool.not_eq_false, losesByte_iff] at hloses
    obtain ⟨before, after, rfl, hloses⟩ := hloses
    obtain ⟨lead, a, b, c, rest, rfl⟩ := exists_of_losesByteAt hloses
    have hbytes : streamBytes [⟨0, before ++ [lead]⟩] ⟨0, a :: b :: c :: rest⟩ =
        before ++ lead :: a :: b :: c :: rest := by
      simp [streamBytes]
    obtain ⟨itemss, hitems, hcalls⟩ := (h _ _ hbytes).decodes
    rw [hbytes] at hitems
    exact output_ne_of_losesByteAt before hloses hitems (flatMap_output_of_callItems hcalls)
  · rintro hloses chunks last rfl
    obtain ⟨itemss, hcalls, hrun⟩ := decodeChunks_run chunks last (.inl rfl)
    have hdecodes := decodes_of_run hrun hloses
    refine ⟨?_, ⟨itemss, hdecodes, hcalls⟩, fun address => decodes_oneCall address _, ?_, ?_⟩
    · intro address
      obtain ⟨items, hitems, houtput, -⟩ := decodes_oneCall address (streamBytes chunks last)
      rw [flatMap_output_of_callItems hcalls, houtput, hdecodes.unique hitems]
    · exact fits_decodeChunks chunks last (.inl rfl) (by rw [List.length_nil]; omega)
    · intro address
      apply (call_decode_nil true false ⟨address, _⟩).buffers
      change 0 + (streamBytes chunks last).length + 3 < _
      omega

/-- A slip that nobody sees: the byte that is lost is the one that is read in its place. -/
theorem decodesInChunks_repeated_byte :
    ([0xF0, 0xC3, 0xA9, 0xC3, 0xA9] : List UInt8).length + 3 < 2 ^ 32 ∧
      ∀ chunks last, streamBytes chunks last = [0xF0, 0xC3, 0xA9, 0xC3, 0xA9] →
        DecodesInChunks chunks last :=
  ⟨by decide, (decodesInChunks_iff _ (by decide)).mpr (by decide)⟩

/-- The letter of the second chunk is lost, and the byte before it is replaced in its place. -/
theorem not_decodesInChunks_letter :
    (decodeChunks [] [⟨0, [0xF0]⟩] ⟨0, [0xC3, 0xA9, 0x41]⟩).flatMap Decoded.output =
        [0xFFFD, 0xE9, 0xFFFD] ∧
      ¬ DecodesInChunks [⟨0, [0xF0]⟩] ⟨0, [0xC3, 0xA9, 0x41]⟩ := by
  refine ⟨by decide +kernel, ?_⟩
  intro h
  obtain ⟨itemss, hitems, hcalls⟩ := h.decodes
  exact output_ne_of_losesByteAt [] (by decide) hitems
    (flatMap_output_of_callItems hcalls)

end QtWebKit.TextCodecUTF8
