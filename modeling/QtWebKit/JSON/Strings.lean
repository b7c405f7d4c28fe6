import QtWebKit.JSON.Lexer
import Mathlib.Data.List.TakeWhile

/-!
# The strings the lexer reads

The string routine reads exactly the strings of the grammar, and the token it
leaves carries the code units they stand for.
-/

namespace QtWebKit.JSON

open List

/-- A scan that ended in an error, somewhere in the text it started from. -/
structure Fails (start : List UInt16) (lexed : Lexed) : Prop where
  token : lexed.token = .tokError
  suffix : lexed.ptr <:+ start

theorem fails_error {start ptr} (message : String) (h : ptr <:+ start) :
    Fails start (.error ptr message) := ⟨rfl, h⟩

theorem Fails.mono {start start' lexed} (h : Fails start lexed)
    (hst : start <:+ start') : Fails start' lexed := ⟨h.token, h.suffix.trans hst⟩

/-- A run of characters ends here: the next one, if any, does not belong to it. -/
def Stops (p : UInt16 → Bool) (rest : List UInt16) : Prop :=
  ∀ c, rest.head? = some c → p c = false

theorem stops_nil (p : UInt16 → Bool) : Stops p [] := by
  intro c h
  cases h

theorem stops_cons {p c} (rest : List UInt16) (h : p c = false) : Stops p (c :: rest) := by
  intro d hd
  rwa [← Option.some.inj hd]

theorem stops_dropWhile (p : UInt16 → Bool) (text : List UInt16) : Stops p (text.dropWhile p) := by
  intro c hc
  have h := head?_dropWhile_not p text
  rw [hc] at h
  simpa using h

variable {run rest text : List UInt16}

theorem takeWhile_run {p} (hu : ∀ c ∈ run, p c = true)
    (hr : Stops p rest) : (run ++ rest).takeWhile p = run := by
  rw [takeWhile_append_of_pos hu]
  cases rest with
  | nil => simp
  | cons c rest => simp [hr c rfl]

theorem dropWhile_run {p} (hu : ∀ c ∈ run, p c = true)
    (hr : Stops p rest) : (run ++ rest).dropWhile p = rest := by
  rw [dropWhile_append_of_pos hu]
  cases rest with
  | nil => simp
  | cons c rest => simp [hr c rfl]

theorem between_append (text rest : List UInt16) : between (text ++ rest) rest = text := by
  simp [between]

/-! ### Escapes -/

theorem hexDigit_table : ∀ n < 128,
    (((0x30 ≤ n ∧ n ≤ 0x39) ∨ (n ||| 0x20 ≥ 0x61 ∧ n ||| 0x20 ≤ 0x66)) ↔
      ((0x30 ≤ n ∧ n ≤ 0x39) ∨ (0x41 ≤ n ∧ n ≤ 0x46)) ∨ (0x61 ≤ n ∧ n ≤ 0x66)) := by
  decide

/-- Setting the lower case bit finds the hexadecimal digits. -/
theorem isASCIIHexDigit_eq (c : UInt16) : isASCIIHexDigit c = isHexDigit c := by
  rw [Bool.eq_iff_iff]
  simp only [isASCIIHexDigit, isHexDigit, isASCIIDigit, Bool.or_eq_true, Bool.and_eq_true,
    decide_eq_true_eq, ge_iff_le, UInt16.le_iff_toNat_le, UInt16.toNat_or, UInt16.reduceToNat]
  by_cases h : c.toNat < 128
  · exact hexDigit_table c.toNat h
  · have hle : c.toNat ≤ c.toNat ||| 0x20 := Nat.left_le_or
    omega

theorem hexValue_table : ∀ n < 128,
    ((0x30 ≤ n ∧ n ≤ 0x39) ∨ (0x41 ≤ n ∧ n ≤ 0x46)) ∨ (0x61 ≤ n ∧ n ≤ 0x66) →
      (if n < 0x41 then n - 0x30 else (n - 0x41 + 10) &&& 0xF) =
        (if 0x30 ≤ n ∧ n ≤ 0x39 then n - 0x30 else if n ≤ 0x46 then n - 0x37 else n - 0x57) ∧
      (if n < 0x41 then n - 0x30 else (n - 0x41 + 10) &&& 0xF) < 16 := by
  decide

theorem toASCIIHexValue_eq {c} (h : isHexDigit c = true) :
    toASCIIHexValue c = hexValue c ∧ toASCIIHexValue c < 16 := by
  simp only [isHexDigit, isASCIIDigit, Bool.or_eq_true, Bool.and_eq_true,
    decide_eq_true_eq, ge_iff_le, UInt16.le_iff_toNat_le, UInt16.reduceToNat] at h
  have hlt : c.toNat < 128 := by omega
  have htb := hexValue_table c.toNat hlt h
  simpa only [toASCIIHexValue, hexValue, isASCIIDigit, Bool.and_eq_true, decide_eq_true_eq,
    ge_iff_le, UInt16.le_iff_toNat_le, UInt16.lt_iff_toNat_lt, UInt16.reduceToNat] using htb

theorem convertUnicode_eq {a b c d} (ha : isHexDigit a = true) (hb : isHexDigit b = true)
    (hc : isHexDigit c = true) (hd : isHexDigit d = true) :
    convertUnicode a b c d =
      .ofNat (((hexValue a * 16 + hexValue b) * 16 + hexValue c) * 16 + hexValue d) := by
  obtain ⟨ha, _⟩ := toASCIIHexValue_eq ha
  obtain ⟨hb, hbl⟩ := toASCIIHexValue_eq hb
  obtain ⟨hc, hcl⟩ := toASCIIHexValue_eq hc
  obtain ⟨hd, hdl⟩ := toASCIIHexValue_eq hd
  have hh : convertHex a b = hexValue a * 16 + hexValue b := by
    rw [convertHex, ← Nat.shiftLeft_add_eq_or_of_lt (by omega), Nat.shiftLeft_eq, ha, hb]
  have hlw : convertHex c d = hexValue c * 16 + hexValue d := by
    rw [convertHex, ← Nat.shiftLeft_add_eq_or_of_lt (by omega), Nat.shiftLeft_eq, hc, hd]
  have hbd : convertHex c d < 2 ^ 8 := by omega
  rw [convertUnicode, ← Nat.shiftLeft_add_eq_or_of_lt hbd, Nat.shiftLeft_eq, hh, hlw]
  congr 1
  omega

/-- What can follow a backslash, with the unit the escape stands for. -/
inductive EscapeText : List UInt16 → UInt16 → Prop
  | character {c decoded : UInt16} (h : EscapedCharacter c decoded) : EscapeText [c] decoded
  | hexadecimal {a b c d : UInt16} (ha : isHexDigit a = true) (hb : isHexDigit b = true)
      (hc : isHexDigit c = true) (hd : isHexDigit d = true) :
      EscapeText [0x75, a, b, c, d] (convertUnicode a b c d)

/-- An escape in front of the text of some characters is one more of them. -/
theorem EscapeText.characters {escape cs decoded}
    (h : EscapeText escape decoded) (tail : CharactersText text cs) :
    CharactersText (backslash :: (escape ++ text)) (decoded :: cs) := by
  cases h with
  | character h => exact .escaped h tail
  | hexadecimal ha hb hc hd =>
    rw [convertUnicode_eq ha hb hc hd]
    exact .hexadecimal ha hb hc hd tail

/-- What reading an escape can give: the unit it stands for, or an error. -/
inductive Escaped (text : List UInt16) : Except Lexed (UInt16 × List UInt16) → Prop
  | decoded {escape rest : List UInt16} {unit : UInt16} (htext : text = escape ++ rest)
      (h : EscapeText escape unit) : Escaped text (.ok (unit, rest))
  | fails {lexed : Lexed} (h : Fails text lexed) : Escaped text (.error lexed)

theorem escaped_ite {p : Prop} [Decidable p] {a b} (hp : p → Escaped text a)
    (hng : Escaped text b) : Escaped text (if p then a else b) := by
  by_cases h : p
  · rw [if_pos h]
    exact hp h
  · rw [if_neg h]
    exact hng

theorem escaped_character {c d unit} (h : EscapedCharacter d unit) (hc : c = d)
    (rest : List UInt16) : Escaped (c :: rest) (.ok (unit, rest)) := by
  subst hc
  exact .decoded rfl (.character h)

theorem lexUnicodeEscape_escaped (text : List UInt16) :
    Escaped (0x75 :: text) (lexUnicodeEscape text) := by
  unfold lexUnicodeEscape
  split
  · next a b c d rest =>
    split_ifs with hhx
    · simp only [isASCIIHexDigit_eq, Bool.and_eq_true] at hhx
      obtain ⟨⟨⟨ha, hb⟩, hc⟩, hd⟩ := hhx
      exact .decoded rfl (.hexadecimal ha hb hc hd)
    · exact .fails (fails_error _ (suffix_refl _))
  · exact .fails (fails_error _ (suffix_refl _))

theorem lexEscape_escaped (text : List UInt16) : Escaped text (lexEscape .strictJSON text) := by
  cases text with
  | nil => exact .fails (fails_error _ (suffix_refl _))
  | cons c rest =>
    unfold lexEscape
    apply escaped_ite fun h => escaped_character .quotationMark h rest
    apply escaped_ite fun h => escaped_character .backslash h rest
    apply escaped_ite fun h => escaped_character .slash h rest
    apply escaped_ite fun h => escaped_character .backspace h rest
    apply escaped_ite fun h => escaped_character .formFeed h rest
    apply escaped_ite fun h => escaped_character .lineFeed h rest
    apply escaped_ite fun h => escaped_character .carriageReturn h rest
    apply escaped_ite fun h => escaped_character .tab h rest
    apply escaped_ite fun h => h ▸ lexUnicodeEscape_escaped rest
    apply escaped_ite fun h => absurd rfl h.2
    exact .fails (fails_error _ (suffix_refl _))

theorem lexEscape_complete {escape decoded} (h : EscapeText escape decoded) (rest : List UInt16) :
    lexEscape .strictJSON (escape ++ rest) = .ok (decoded, rest) := by
  cases h with
  | character h => cases h <;> rfl
  | hexadecimal ha hb hc hd =>
    simp [lexEscape, lexUnicodeEscape, isASCIIHexDigit_eq, ha, hb, hc, hd]

/-! ### Runs of plain characters -/

theorem isSafeStringCharacter_iff (c : UInt16) :
    isSafeStringCharacter .strictJSON quotationMark c = true ↔
      0x20 ≤ c ∧ c ≠ quotationMark ∧ c ≠ backslash := by
  simp [isSafeStringCharacter, and_assoc, and_comm, and_left_comm]

/-- The plain characters of a string. -/
def IsPlain (text : List UInt16) : Prop :=
  ∀ c ∈ text, isSafeStringCharacter .strictJSON quotationMark c = true

theorem IsPlain.characters {cs} (hu : IsPlain run)
    (h : CharactersText text cs) : CharactersText (run ++ text) (run ++ cs) := by
  induction run with
  | nil => exact h
  | cons c run ih =>
    obtain ⟨hcn, hq, hbc⟩ :=
      (isSafeStringCharacter_iff c).mp (hu c mem_cons_self)
    exact .unescaped hcn hq hbc
      (ih fun d hd => hu d (mem_cons_of_mem c hd))

/-- The text of some characters is plain up to its end or up to an escape. -/
theorem CharactersText.split {cs} (h : CharactersText text cs) :
    ∃ run, IsPlain run ∧ ((text = run ∧ cs = run) ∨
      ∃ escape decoded text' cs', EscapeText escape decoded ∧
        CharactersText text' cs' ∧ text = run ++ backslash :: (escape ++ text') ∧
        cs = run ++ decoded :: cs') := by
  have hnl : IsPlain [] := fun c hc => absurd hc not_mem_nil
  induction h with
  | nil => exact ⟨[], hnl, .inl ⟨rfl, rfl⟩⟩
  | @unescaped c text cs hcn hq hbc tail ih =>
    obtain ⟨run, hu, h⟩ := ih
    have hpl : IsPlain (c :: run) := by
      intro d hd
      rcases mem_cons.mp hd with rfl | hd
      · exact (isSafeStringCharacter_iff d).mpr ⟨hcn, hq, hbc⟩
      · exact hu d hd
    refine ⟨c :: run, hpl, ?_⟩
    rcases h with ⟨rfl, rfl⟩ | ⟨escape, decoded, text', cs', he, ht, rfl, rfl⟩
    · exact .inl ⟨rfl, rfl⟩
    · exact .inr ⟨escape, decoded, text', cs', he, ht, rfl, rfl⟩
  | @escaped c decoded text cs h tail _ =>
    exact ⟨[], hnl, .inr ⟨[c], decoded, text, cs, .character h, tail, rfl, rfl⟩⟩
  | @hexadecimal a b c d text cs ha hb hc hd tail _ =>
    refine ⟨[], hnl, .inr ⟨_, _, text, cs, .hexadecimal ha hb hc hd, tail, rfl, ?_⟩⟩
    rw [convertUnicode_eq ha hb hc hd]
    rfl

/-! ### The loop -/

/-- The characters read so far when the loop has ended. -/
def decodedCharacters (builder runStart ptr : List UInt16) : List UInt16 :=
  if builder.isEmpty then between runStart ptr else builder

theorem not_safe_backslash :
    isSafeStringCharacter .strictJSON quotationMark backslash = false := by decide

theorem not_safe_quotationMark :
    isSafeStringCharacter .strictJSON quotationMark quotationMark = false := by decide

/-- A turn that ends in an escape has the run and the escape in the buffer. -/
theorem lexRun_escape (hu : IsPlain run) (bld tail : List UInt16) :
    lexRun .strictJSON quotationMark bld (run ++ backslash :: tail) =
      (lexEscape .strictJSON tail).map fun escape => (bld ++ run ++ [escape.1], escape.2) := by
  have hs := stops_cons tail not_safe_backslash
  have hbr : (if (if bld.isEmpty then bld else bld ++ run).isEmpty ∧ run ≠ []
      then run else if bld.isEmpty then bld else bld ++ run) = bld ++ run := by
    cases bld with
    | nil => cases run <;> simp
    | cons c bld => simp
  unfold lexRun
  simp only [takeWhile_run hu hs, dropWhile_run hu hs, hbr]
  rw [if_pos ⟨by decide, trivial⟩]
  cases lexEscape .strictJSON tail with
  | error lexed => rfl
  | ok escape => rfl

/-- A turn without an escape adds its run to a buffer only if there is one. -/
theorem lexRun_plain (hu : IsPlain run)
    (hr : Stops (isSafeStringCharacter .strictJSON quotationMark) rest)
    (hbc : rest.head? ≠ some backslash) (bld : List UInt16) :
    lexRun .strictJSON quotationMark bld (run ++ rest) =
      .ok (if bld.isEmpty then bld else bld ++ run, rest) := by
  unfold lexRun
  rw [takeWhile_run hu hr, dropWhile_run hu hr]
  cases rest with
  | nil => rfl
  | cons c rest =>
    have hc : c ≠ backslash := fun h => hbc (congrArg some h)
    simp only [hc, and_false, if_false]
    rfl

/-- What a turn of the loop can do: fail in an escape, decode one, or stop at a
character that is neither plain nor a backslash. -/
inductive Turn (builder : List UInt16) :
    List UInt16 → Except Lexed (List UInt16 × List UInt16) → Prop
  | fails {run tail : List UInt16} {lexed : Lexed} (h : Fails tail lexed) :
      Turn builder (run ++ backslash :: tail) (.error lexed)
  | escape {run escape ptr : List UInt16} {decoded : UInt16} (hrun : IsPlain run)
      (h : EscapeText escape decoded) :
      Turn builder (run ++ backslash :: (escape ++ ptr)) (.ok (builder ++ run ++ [decoded], ptr))
  | plain {run ptr builder' : List UInt16} (hrun : IsPlain run)
      (hptr : Stops (isSafeStringCharacter .strictJSON quotationMark) ptr)
      (hbackslash : ptr.head? ≠ some backslash)
      (hbuilder : builder' = if builder.isEmpty then builder else builder ++ run) :
      Turn builder (run ++ ptr) (.ok (builder', ptr))

theorem lexRun_turn (bld runStart : List UInt16) :
    Turn bld runStart (lexRun .strictJSON quotationMark bld runStart) := by
  obtain ⟨run, rest, rfl, hu, hs⟩ : ∃ run rest, runStart = run ++ rest ∧ IsPlain run ∧
      Stops (isSafeStringCharacter .strictJSON quotationMark) rest :=
    ⟨_, _, takeWhile_append_dropWhile.symm, fun _ hc => mem_takeWhile_imp hc, stops_dropWhile _ _⟩
  by_cases hbc : rest.head? = some backslash
  · obtain ⟨tail, rfl⟩ : ∃ tail, rest = backslash :: tail := by
      cases rest with
      | nil => cases hbc
      | cons c tail => exact ⟨tail, by rw [Option.some.inj hbc]⟩
    rw [lexRun_escape hu]
    have hes := lexEscape_escaped tail
    generalize lexEscape .strictJSON tail = res at hes
    cases hes with
    | fails h => exact .fails h
    | decoded htx h =>
      subst htx
      exact .escape hu h
  · rw [lexRun_plain hu hs hbc]
    exact .plain hu hs hbc rfl

theorem CharactersText.head_safe {cs c}
    (h : CharactersText text cs) (hhd : (text ++ rest).head? = some c) (hne : text ≠ []) :
    isSafeStringCharacter .strictJSON quotationMark c = true ∨ c = backslash := by
  cases h with
  | nil => exact absurd rfl hne
  | unescaped hcn hq hbc tail =>
    cases hhd
    exact .inl ((isSafeStringCharacter_iff c).mpr ⟨hcn, hq, hbc⟩)
  | escaped h tail =>
    cases hhd
    exact .inr rfl
  | hexadecimal ha hb hc hd tail =>
    cases hhd
    exact .inr rfl

theorem lexStringLoop_sound {bld runStart bld' runStart'}
    (h : lexStringLoop .strictJSON quotationMark bld runStart =
      .ok (bld', runStart', quotationMark :: rest)) :
    ∃ text cs, runStart = text ++ quotationMark :: rest ∧ CharactersText text cs ∧
      decodedCharacters bld' runStart' (quotationMark :: rest) = bld ++ cs := by
  induction hn : runStart.length using Nat.strong_induction_on generalizing bld runStart with
  | _ n ih =>
  subst hn
  rw [lexStringLoop] at h
  have turn := lexRun_turn bld runStart
  generalize lexRun .strictJSON quotationMark bld runStart = res at h turn
  cases turn with
  | fails hf => cases h
  | @escape run escape ptr decoded hu he =>
    simp only at h
    split_ifs at h with hl
    · obtain ⟨text, cs, rfl, ht, hdc⟩ := ih _ hl.2.1 h rfl
      exact ⟨run ++ backslash :: (escape ++ text), run ++ decoded :: cs, by simp,
        hu.characters (he.characters ht), by simp [hdc]⟩
    · simp only [Except.ok.injEq, Prod.mk.injEq] at h
      obtain ⟨rfl, rfl, rfl⟩ := h
      refine ⟨run ++ backslash :: (escape ++ []), run ++ [decoded], by simp,
        hu.characters (he.characters .nil), ?_⟩
      simp [decodedCharacters]
  | @plain run ptr extended hu hpt hbc hbr =>
    simp only at h
    split_ifs at h with hl
    -- The turn stopped at a character that no string can hold.
    · obtain ⟨text, cs, rfl, ht, _⟩ := ih _ hl.2.1 h rfl
      cases htx : text with
      | nil =>
        subst htx
        exact absurd rfl hl.2.2.2
      | cons c text' =>
        have hhd : (text ++ quotationMark :: rest).head? = some c := by rw [htx]; rfl
        rcases ht.head_safe hhd (by rw [htx]; exact cons_ne_nil c text') with hc | hc
        · rw [hpt c hhd] at hc
          cases hc
        · exact absurd (hc ▸ hhd) hbc
    · simp only [Except.ok.injEq, Prod.mk.injEq] at h
      obtain ⟨rfl, rfl, rfl⟩ := h
      refine ⟨run, run, rfl, by simpa using hu.characters .nil, ?_⟩
      subst hbr
      cases bld with
      | nil => simp [decodedCharacters, between_append]
      | cons c bld => simp [decodedCharacters]

theorem lexStringLoop_complete {cs} (h : CharactersText text cs) (bld rest : List UInt16) :
    ∃ bld' runStart',
      lexStringLoop .strictJSON quotationMark bld (text ++ quotationMark :: rest) =
        .ok (bld', runStart', quotationMark :: rest) ∧
      decodedCharacters bld' runStart' (quotationMark :: rest) = bld ++ cs := by
  induction hn : text.length using Nat.strong_induction_on generalizing bld text cs with
  | _ n ih =>
  subst hn
  rw [lexStringLoop]
  obtain ⟨run, hu, ⟨rfl, rfl⟩ | ⟨escape, decoded, text, cs, he, ht, rfl, rfl⟩⟩ := h.split
  · rw [lexRun_plain hu (stops_cons rest not_safe_quotationMark) (by simp; decide)]
    refine ⟨_, _, by simp; exact ⟨rfl, rfl⟩, ?_⟩
    cases bld with
    | nil => simp [decodedCharacters, between_append]
    | cons c bld => simp [decodedCharacters]
  · have hap : run ++ backslash :: (escape ++ text) ++ quotationMark :: rest =
        run ++ backslash :: (escape ++ (text ++ quotationMark :: rest)) := by simp
    rw [hap, lexRun_escape hu, lexEscape_complete he]
    simp only [Except.map]
    by_cases htx : text = []
    · subst htx
      cases ht
      refine ⟨_, _, by simp; exact ⟨rfl, rfl⟩, ?_⟩
      simp [decodedCharacters]
    · have hct : (text ++ quotationMark :: rest).head? ≠ some quotationMark := by
        intro hhd
        rcases ht.head_safe hhd htx with hsf | hsf
        · rw [not_safe_quotationMark] at hsf
          cases hsf
        · exact absurd hsf (by decide)
      have hm : (text ++ quotationMark :: rest).length <
          (run ++ backslash :: (escape ++ (text ++ quotationMark :: rest))).length := by
        simp only [length_append, length_cons]
        omega
      rw [if_pos ⟨by decide, hm, by simp, hct⟩]
      have hln : text.length < (run ++ backslash :: (escape ++ text)).length := by
        simp only [length_append, length_cons]
        omega
      obtain ⟨bld', runStart', hl, hdc⟩ :=
        ih _ hln ht (bld ++ run ++ [decoded]) rfl
      exact ⟨bld', runStart', hl, by simp [hdc]⟩

/-- The loop ended in the text it started from, with or without an error. -/
def EndsIn (start : List UInt16) : Except Lexed (List UInt16 × List UInt16 × List UInt16) → Prop
  | .error lexed => Fails start lexed
  | .ok (_, _, ptr) => ptr <:+ start

theorem EndsIn.mono {start start' res} (h : EndsIn start res)
    (hst : start <:+ start') : EndsIn start' res := by
  cases res with
  | error lexed => exact Fails.mono h hst
  | ok res => exact List.IsSuffix.trans h hst

theorem lexStringLoop_endsIn (bld runStart : List UInt16) :
    EndsIn runStart (lexStringLoop .strictJSON quotationMark bld runStart) := by
  induction hn : runStart.length using Nat.strong_induction_on generalizing bld runStart with
  | _ n ih =>
  subst hn
  rw [lexStringLoop]
  have turn := lexRun_turn bld runStart
  generalize lexRun .strictJSON quotationMark bld runStart = res at turn
  cases turn with
  | @fails run tail lexed hf =>
    exact hf.mono ((suffix_cons backslash tail).trans (suffix_append run _))
  | @escape run escape ptr decoded hu he =>
    have hsu := ((suffix_append escape ptr).trans (suffix_cons backslash _)).trans
        (suffix_append run _)
    simp only
    split_ifs with hl
    · exact (ih _ hl.2.1 _ ptr rfl).mono hsu
    · exact hsu
  | @plain run ptr extended hu hpt hbc hbr =>
    simp only
    split_ifs with hl
    · exact (ih _ hl.2.1 _ ptr rfl).mono (suffix_append run ptr)
    · exact suffix_append run ptr

/-! ### Whole strings -/

/-- The string routine fails, or reads the characters up to a quotation mark. -/
theorem lexString_sound (start : List UInt16) :
    Fails start (lexString .strictJSON quotationMark start) ∨
      ∃ text cs rest,
        lexString .strictJSON quotationMark start =
          ⟨.tokString (tokenCharacters cs), rest, none⟩ ∧
        start = text ++ quotationMark :: rest ∧ CharactersText text cs := by
  have hen := lexStringLoop_endsIn [] start
  unfold lexString
  cases hl : lexStringLoop .strictJSON quotationMark [] start with
  | error lexed =>
    rw [hl] at hen
    exact .inl hen
  | ok res =>
    obtain ⟨bld, runStart, ptr⟩ := res
    rw [hl] at hen
    cases ptr with
    | nil => exact .inl (fails_error _ hen)
    | cons c rest =>
      by_cases hc : c = quotationMark
      · subst hc
        obtain ⟨text, cs, htx, hch, hdc⟩ := lexStringLoop_sound hl
        refine .inr ⟨text, cs, rest, ?_, htx, hch⟩
        rw [nil_append] at hdc
        subst hdc
        cases bld with
        | nil => rfl
        | cons d bld => rfl
      · left
        simp only [ne_eq, hc, not_false_eq_true, if_true]
        exact fails_error _ hen

theorem lexString_complete {cs} (h : CharactersText text cs) (rest : List UInt16) :
    lexString .strictJSON quotationMark (text ++ quotationMark :: rest) =
      ⟨.tokString (tokenCharacters cs), rest, none⟩ := by
  obtain ⟨bld, runStart, hl, hdc⟩ := lexStringLoop_complete h [] rest
  rw [nil_append] at hdc
  rw [lexString, hl, ← hdc, decodedCharacters]
  cases bld with
  | nil => rfl
  | cons c bld => rfl

/-- An escape takes more text than the unit it stands for. -/
theorem CharactersText.length_le {cs : List UInt16}
    (h : CharactersText text cs) : cs.length ≤ text.length := by
  induction h with
  | nil => exact Nat.le_refl 0
  | unescaped _ _ _ _ ih => simpa using ih
  | escaped _ _ ih =>
    simp only [length_cons]
    omega
  | hexadecimal _ _ _ _ _ ih =>
    simp only [length_cons]
    omega

theorem tokenCharacters_eq {cs : List UInt16} (h : cs.length < 2147483648) :
    tokenCharacters cs = cs := by
  rw [tokenCharacters, Nat.mod_eq_of_lt h, take_length]

end QtWebKit.JSON
