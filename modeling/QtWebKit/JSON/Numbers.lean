import QtWebKit.JSON.Strings

/-!
# The numbers the lexer reads

The number routine reads exactly the numbers of the grammar, as far as they go.
A short integer read digit by digit and a number given to the double parser
denote the decimal the grammar gives their text.
-/

namespace QtWebKit.JSON

open List Bool

/-- The characters that would continue a number. -/
def continuesNumber (c : UInt16) : Bool := isASCIIDigit c || c == point || c == 0x65 || c == 0x45

variable {rest digits ptr integer sign exponent : List UInt16} {power : Int}

theorem Stops.digit (h : Stops continuesNumber rest) : Stops isASCIIDigit rest := by
  intro c hc
  have hp := h c hc
  simp only [continuesNumber, or_eq_false_iff] at hp
  exact hp.1.1.1

/-! ### Digits -/

theorem skipDigits_sound (ptr : List UInt16) :
    ∃ digits, ptr = digits ++ skipDigits ptr ∧ IsDigits digits :=
  ⟨_, takeWhile_append_dropWhile.symm, fun _ hc => mem_takeWhile_imp hc⟩

theorem skipDigits_complete (h : IsDigits digits)
    (hr : Stops isASCIIDigit rest) : skipDigits (digits ++ rest) = rest :=
  dropWhile_run h hr

theorem skipDigitsOrFail_sound {message} (h : skipDigitsOrFail message ptr = .ok rest) :
    ∃ digits, ptr = digits ++ rest ∧ IsDigits digits ∧ digits ≠ [] := by
  cases ptr with
  | nil => cases h
  | cons c ptr =>
    rw [skipDigitsOrFail] at h
    split_ifs at h with hc
    obtain ⟨digits, hdg, ha⟩ := skipDigits_sound ptr
    rw [Except.ok.inj h] at hdg
    refine ⟨c :: digits, by rw [hdg]; rfl, ?_, cons_ne_nil c digits⟩
    intro d hd
    rcases mem_cons.mp hd with rfl | hd
    · exact hc
    · exact ha d hd

theorem skipDigitsOrFail_complete {message}
    (h : IsDigits digits) (hne : digits ≠ []) (hr : Stops isASCIIDigit rest) :
    skipDigitsOrFail message (digits ++ rest) = .ok rest := by
  cases digits with
  | nil => exact absurd rfl hne
  | cons c digits =>
    rw [cons_append, skipDigitsOrFail, if_pos (h c mem_cons_self),
      skipDigits_complete (fun d hd => h d (mem_cons_of_mem c hd)) hr]

theorem skipDigitsOrFail_fails {message lexed}
    (h : skipDigitsOrFail message ptr = .error lexed) : Fails ptr lexed := by
  cases ptr with
  | nil =>
    cases h
    exact fails_error _ (suffix_refl _)
  | cons c ptr =>
    rw [skipDigitsOrFail] at h
    split_ifs at h
    cases h
    exact fails_error _ (suffix_refl _)

/-! ### Integers -/

theorem IntegerText.isDigits (h : IntegerText integer) : IsDigits integer := by
  cases h with
  | zero =>
    intro c hc
    rw [mem_singleton.mp hc]
    rfl
  | digits hf hz hr =>
    intro c hc
    rcases mem_cons.mp hc with rfl | hc
    · exact hf
    · exact hr c hc

theorem IntegerText.ne_nil (h : IntegerText integer) : integer ≠ [] := by
  cases h with
  | zero => exact cons_ne_nil _ _
  | digits hf hz hr => exact cons_ne_nil _ _

/-- An integer starts with a digit, which is no sign. -/
theorem IntegerText.head_ne_minus (h : IntegerText integer)
    (rest : List UInt16) : (integer ++ rest).head? ≠ some minus := by
  cases integer with
  | nil => exact absurd rfl h.ne_nil
  | cons c integer =>
    intro hhd
    have hc := h.isDigits c mem_cons_self
    rw [show c = minus from Option.some.inj hhd] at hc
    exact absurd hc (by decide)

theorem skipInteger_sound (h : skipInteger ptr = .ok rest) :
    ∃ integer, ptr = integer ++ rest ∧ IntegerText integer := by
  cases ptr with
  | nil => cases h
  | cons c ptr =>
    rw [skipInteger] at h
    split_ifs at h with hz hdt
    · subst hz
      rw [← Except.ok.inj h]
      exact ⟨[0x30], rfl, .zero⟩
    · obtain ⟨digits, hdg, ha⟩ := skipDigits_sound ptr
      rw [Except.ok.inj h] at hdg
      have hc : isASCIIDigit c = true := by
        simp only [isASCIIDigit, and_eq_true, decide_eq_true_eq, ge_iff_le,
          UInt16.le_iff_toNat_le, UInt16.reduceToNat] at hdt ⊢
        omega
      exact ⟨c :: digits, by rw [hdg]; rfl, .digits hc hz ha⟩

theorem skipInteger_complete (h : IntegerText integer)
    (hr : Stops isASCIIDigit rest) : skipInteger (integer ++ rest) = .ok rest := by
  cases h with
  | zero => rfl
  | @digits first digits hf hz ha =>
    have hdt : (decide (first ≥ 0x31) && decide (first ≤ 0x39)) = true := by
      have hne : first.toNat ≠ 0x30 := fun h => hz (UInt16.toNat_inj.mp h)
      simp only [isASCIIDigit, and_eq_true, decide_eq_true_eq, ge_iff_le,
        UInt16.le_iff_toNat_le, UInt16.reduceToNat] at hf ⊢
      omega
    rw [cons_append, skipInteger, if_neg hz, if_pos hdt, skipDigits_complete ha hr]

theorem skipInteger_fails {lexed} (h : skipInteger ptr = .error lexed) : Fails ptr lexed := by
  cases ptr with
  | nil =>
    cases h
    exact fails_error _ (suffix_refl _)
  | cons c ptr =>
    rw [skipInteger] at h
    split_ifs at h
    cases h
    exact fails_error _ (suffix_refl _)

/-! ### Exponents -/

theorem skipSign_sound (ptr : List UInt16) :
    ∃ sign negative, ptr = sign ++ skipSign ptr ∧ SignText sign negative := by
  cases ptr with
  | nil => exact ⟨[], false, rfl, .none⟩
  | cons c ptr =>
    by_cases hm : c = minus
    · subst hm
      exact ⟨[minus], true, rfl, .minus⟩
    · by_cases hpl : c = plus
      · subst hpl
        exact ⟨[plus], false, rfl, .plus⟩
      · refine ⟨[], false, ?_, .none⟩
        simp [skipSign, hm, hpl]

theorem skipSign_complete {negative}
    (hs : SignText sign negative) (h : IsDigits digits) (hne : digits ≠ [])
    (rest : List UInt16) : skipSign (sign ++ (digits ++ rest)) = digits ++ rest := by
  cases hs with
  | none =>
    cases digits with
    | nil => exact absurd rfl hne
    | cons c digits =>
      have hc := h c mem_cons_self
      have hno : ¬(c = minus ∨ c = plus) := by
        rintro (rfl | rfl) <;> exact absurd hc (by decide)
      simp [skipSign, hno]
  | plus => rfl
  | minus => rfl

theorem skipExponent_sound (h : skipExponent ptr = .ok rest) :
    ∃ exponent power, ptr = exponent ++ rest ∧ ExponentText exponent power := by
  cases ptr with
  | nil =>
    rw [← Except.ok.inj h]
    exact ⟨[], 0, rfl, .none⟩
  | cons c ptr =>
    rw [skipExponent] at h
    split_ifs at h with hc
    · obtain ⟨sign, negative, hs, hsg⟩ := skipSign_sound ptr
      obtain ⟨digits, hdg, ha, hne⟩ := skipDigitsOrFail_sound h
      refine ⟨c :: sign ++ digits, _, ?_, .some hc hsg ha hne⟩
      rw [hs, hdg]
      simp
    · rw [← Except.ok.inj h]
      exact ⟨[], 0, rfl, .none⟩

theorem skipExponent_complete (h : ExponentText exponent power) (hr : Stops continuesNumber rest) :
    skipExponent (exponent ++ rest) = .ok rest := by
  cases h with
  | none =>
    cases rest with
    | nil => rfl
    | cons c rest =>
      have hp := hr c rfl
      simp only [continuesNumber, or_eq_false_iff, beq_eq_false_iff_ne] at hp
      have hno : ¬(c = 0x65 ∨ c = 0x45) := by
        rintro (hc | hc)
        · exact hp.1.2 hc
        · exact hp.2 hc
      simp [skipExponent, hno]
  | @some e sign digits negative he hs ha hne =>
    have hap : e :: sign ++ digits ++ rest = e :: (sign ++ (digits ++ rest)) := by simp
    rw [hap, skipExponent, if_pos he, skipSign_complete hs ha hne rest,
      skipDigitsOrFail_complete ha hne hr.digit]

theorem skipExponent_fails {lexed} (h : skipExponent ptr = .error lexed) : Fails ptr lexed := by
  cases ptr with
  | nil => cases h
  | cons c ptr =>
    rw [skipExponent] at h
    split_ifs at h
    obtain ⟨sign, _, hs, _⟩ := skipSign_sound ptr
    apply (skipDigitsOrFail_fails h).mono
    apply List.IsSuffix.trans _ (suffix_cons c ptr)
    exact ⟨sign, hs.symm⟩

theorem exponentValue_eq (h : ExponentText exponent power) : exponentValue exponent = power := by
  cases h with
  | none => rfl
  | @some e sign digits negative he hs ha hne =>
    have hsk : skipSign (sign ++ digits) = digits := by
      simpa using skipSign_complete hs ha hne []
    rw [cons_append, exponentValue, hsk]
    cases hs with
    | none =>
      have hhd : digits.head? ≠ some minus := by
        intro hhd
        have hc := ha minus (mem_of_mem_head? hhd)
        exact absurd hc (by decide)
      simp [hhd]
    | plus => rfl
    | minus => rfl

/-! ### What the texts denote -/

theorem skipMinus_sign (hs : sign = [] ∨ sign = [minus])
    (h : IntegerText integer) (rest : List UInt16) :
    skipMinus (sign ++ (integer ++ rest)) = integer ++ rest := by
  rcases hs with rfl | rfl
  · have hhd := h.head_ne_minus rest
    rw [nil_append]
    cases htx : integer ++ rest with
    | nil => rfl
    | cons c text =>
      rw [htx] at hhd
      have hc : c ≠ minus := fun hc => hhd (congrArg some hc)
      simp [skipMinus, hc]
  · rfl

theorem head_sign (hs : sign = [] ∨ sign = [minus]) (h : IntegerText integer) (rest : List UInt16) :
    ((sign ++ (integer ++ rest)).head? == some minus) = !sign.isEmpty := by
  rcases hs with rfl | rfl
  · simpa using h.head_ne_minus rest
  · rfl

theorem shortInteger_eq (hs : sign = [] ∨ sign = [minus]) (h : IntegerText integer) :
    shortInteger (sign ++ integer) = ⟨!sign.isEmpty, digitsValue integer, 0⟩ := by
  have hsk := skipMinus_sign hs h []
  have hhd := head_sign hs h []
  rw [append_nil] at hsk hhd
  rw [shortInteger, hsk, hhd]

theorem ExponentText.stops (h : ExponentText exponent power) : Stops isASCIIDigit exponent := by
  cases h with
  | none => exact stops_nil _
  | some he hs ha hne =>
    apply stops_cons
    rcases he with rfl | rfl <;> rfl

theorem parseDouble_eq {fraction} (hs : sign = [] ∨ sign = [minus]) (hi : IntegerText integer)
    (hfr : FractionText fraction digits) (hex : ExponentText exponent power) :
    parseDouble (sign ++ (integer ++ (fraction ++ exponent))) =
      ⟨!sign.isEmpty, digitsValue (integer ++ digits), power - digits.length⟩ := by
  have hv := exponentValue_eq hex
  unfold parseDouble
  rw [skipMinus_sign hs hi, head_sign hs hi]
  dsimp only
  cases hfr with
  | none =>
    rw [nil_append, takeWhile_run hi.isDigits hex.stops, dropWhile_run hi.isDigits hex.stops]
    cases hex with
    | none => simp
    | @some e exponentSign exponentDigits negative he hep ha hne =>
      have hpn : e ≠ point := by rcases he with rfl | rfl <;> decide
      simp only [cons_append, if_neg hpn]
      rw [cons_append] at hv
      simp [hv]
  | some hdg hne =>
    have hpn : Stops isASCIIDigit (point :: digits ++ exponent) := stops_cons _ rfl
    rw [takeWhile_run hi.isDigits hpn, dropWhile_run hi.isDigits hpn]
    simp [takeWhile_run hdg hex.stops, dropWhile_run hdg hex.stops, hv]

/-! ### Whole numbers -/

theorem skipMinus_sound (start : List UInt16) :
    ∃ sign, start = sign ++ skipMinus start ∧ (sign = [] ∨ sign = [minus]) := by
  cases start with
  | nil => exact ⟨[], rfl, .inl rfl⟩
  | cons c rest =>
    by_cases hc : c = minus
    · subst hc
      exact ⟨[minus], rfl, .inr rfl⟩
    · exact ⟨[], by simp [skipMinus, hc], .inl rfl⟩

theorem lexExponent_of_ok {start} (h : skipExponent ptr = .ok rest) :
    lexExponent start ptr = .ok ⟨.tokNumber (parseDouble (between start rest)), rest, none⟩ := by
  rw [lexExponent, h]
  rfl

/-- The result of the number routine: an error in the text, or a number of the
grammar at its front. -/
inductive Numbered (start : List UInt16) : Except Lexed Lexed → Prop
  | fails {lexed : Lexed} (h : Fails start lexed) : Numbered start (.error lexed)
  | number {text rest : List UInt16} {value : Decimal} (hstart : start = text ++ rest)
      (h : NumberText text value) : Numbered start (.ok ⟨.tokNumber value, rest, none⟩)

theorem lexExponent_numbered {fraction} (hs : sign = [] ∨ sign = [minus]) (hi : IntegerText integer)
    (hfr : FractionText fraction digits) (ptr : List UInt16) :
    Numbered (sign ++ (integer ++ (fraction ++ ptr)))
      (lexExponent (sign ++ (integer ++ (fraction ++ ptr))) ptr) := by
  cases h : skipExponent ptr with
  | error lexed =>
    have hsf : ptr <:+ sign ++ (integer ++ (fraction ++ ptr)) :=
      ⟨sign ++ (integer ++ fraction), by simp⟩
    rw [lexExponent, h]
    exact .fails ((skipExponent_fails h).mono hsf)
  | ok rest =>
    obtain ⟨exponent, power, rfl, hex⟩ := skipExponent_sound h
    have hap : sign ++ (integer ++ (fraction ++ (exponent ++ rest))) =
        sign ++ (integer ++ (fraction ++ exponent)) ++ rest := by simp
    rw [lexExponent_of_ok h, hap, between_append, parseDouble_eq hs hi hfr hex]
    exact .number rfl (.intro hs hi hfr hex)

theorem lexFraction_numbered (hs : sign = [] ∨ sign = [minus])
    (hi : IntegerText integer) (ptr : List UInt16) :
    Numbered (sign ++ (integer ++ ptr)) (lexFraction (sign ++ (integer ++ ptr)) ptr) := by
  cases ptr with
  | nil => exact lexExponent_numbered hs hi .none []
  | cons c rest =>
    rw [lexFraction]
    split_ifs with hpn hshort
    · subst hpn
      cases h : skipDigitsOrFail "Invalid digits after decimal point" rest with
      | error lexed =>
        have hsf : rest <:+ sign ++ (integer ++ point :: rest) :=
          ⟨sign ++ (integer ++ [point]), by simp⟩
        exact .fails ((skipDigitsOrFail_fails h).mono hsf)
      | ok ptr =>
        obtain ⟨digits, rfl, hdg, hne⟩ := skipDigitsOrFail_sound h
        exact lexExponent_numbered hs hi (.some hdg hne) ptr
    · have hap : sign ++ (integer ++ c :: rest) = sign ++ integer ++ c :: rest := by simp
      rw [hap, between_append, shortInteger_eq hs hi]
      exact .number rfl (by simpa using NumberText.intro hs hi .none .none)
    · exact lexExponent_numbered hs hi .none (c :: rest)

theorem lexNumber_numbered (start : List UInt16) : Numbered start (lexNumber start) := by
  obtain ⟨sign, hst, hs⟩ := skipMinus_sound start
  cases h : skipInteger (skipMinus start) with
  | error lexed =>
    rw [lexNumber, h]
    exact .fails ((skipInteger_fails h).mono ⟨sign, hst.symm⟩)
  | ok ptr =>
    obtain ⟨integer, hpt, hi⟩ := skipInteger_sound h
    rw [hpt] at hst
    rw [lexNumber, h, hst]
    exact lexFraction_numbered hs hi ptr

theorem ExponentText.stops_append
    (h : ExponentText exponent power) (hr : Stops continuesNumber rest) :
    Stops isASCIIDigit (exponent ++ rest) := by
  cases h with
  | none => exact hr.digit
  | some he hs ha hne =>
    apply stops_cons
    rcases he with rfl | rfl <;> rfl

theorem lexFraction_complete {fraction} (hs : sign = [] ∨ sign = [minus]) (hi : IntegerText integer)
    (hfr : FractionText fraction digits) (hex : ExponentText exponent power)
    (hr : Stops continuesNumber rest) :
    lexFraction (sign ++ (integer ++ (fraction ++ exponent)) ++ rest)
        (fraction ++ (exponent ++ rest)) =
      .ok ⟨.tokNumber ⟨!sign.isEmpty, digitsValue (integer ++ digits), power - digits.length⟩,
        rest, none⟩ := by
  have hl : lexExponent (sign ++ (integer ++ (fraction ++ exponent)) ++ rest)
      (exponent ++ rest) = .ok ⟨.tokNumber ⟨!sign.isEmpty, digitsValue (integer ++ digits),
        power - digits.length⟩, rest, none⟩ := by
    rw [lexExponent_of_ok (skipExponent_complete hex hr), between_append,
      parseDouble_eq hs hi hfr hex]
  cases hfr with
  | some hdg hne =>
    change lexFraction _ (point :: (digits ++ (exponent ++ rest))) = _
    rw [lexFraction, if_pos rfl, skipDigitsOrFail_complete hdg hne (hex.stops_append hr)]
    exact hl
  | none =>
    rw [nil_append (exponent ++ rest)]
    cases hex with
    | @some e _ _ _ he hep ha hne =>
      have hpn : e ≠ point := by rcases he with rfl | rfl <;> decide
      refine Eq.trans ?_ hl
      exact (if_neg hpn).trans (if_neg fun h => he.elim h.1 h.2.1)
    | none =>
      rw [nil_append rest] at hl ⊢
      cases rest with
      | nil => exact hl
      | cons c rest =>
        have hp := hr c rfl
        simp only [continuesNumber, or_eq_false_iff, beq_eq_false_iff_ne] at hp
        rw [lexFraction, if_neg hp.1.1.2]
        split_ifs
        · rw [between_append, append_nil, append_nil, shortInteger_eq hs hi]
          rfl
        · exact hl

theorem lexNumber_complete {text val} (h : NumberText text val) (hr : Stops continuesNumber rest) :
    lexNumber (text ++ rest) = .ok ⟨.tokNumber val, rest, none⟩ := by
  cases h with
  | @intro sign integer fraction digits exponent power hs hi hfr hex =>
    have hsp : Stops isASCIIDigit (fraction ++ (exponent ++ rest)) := by
      cases hfr with
      | none => exact hex.stops_append hr
      | some hdg hne => exact stops_cons _ rfl
    have hsk : skipInteger (skipMinus (sign ++ (integer ++ (fraction ++ exponent)) ++ rest)) =
        .ok (fraction ++ (exponent ++ rest)) := by
      have hap : sign ++ (integer ++ (fraction ++ exponent)) ++ rest =
          sign ++ (integer ++ (fraction ++ (exponent ++ rest))) := by simp
      rw [hap, skipMinus_sign hs hi, skipInteger_complete hi hsp]
    rw [lexNumber, hsk]
    exact lexFraction_complete hs hi hfr hex hr

end QtWebKit.JSON
