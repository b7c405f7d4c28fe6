import QtWebKit.JSON.Numbers

/-!
# The tokens the lexer reads

One call of `lex` skips white space and reads a token of JSON, a token that is
in no JSON text, or nothing. On the text of a token it reads exactly that token,
provided that no character after a number continues it.
-/

namespace QtWebKit.JSON

open List Bool

/-- The tokens of JSON texts, and the semicolon, with their texts. -/
inductive Lexeme : Token → List UInt16 → Prop
  | lBracket : Lexeme .tokLBracket [leftBracket]
  | rBracket : Lexeme .tokRBracket [rightBracket]
  | lBrace : Lexeme .tokLBrace [leftBrace]
  | rBrace : Lexeme .tokRBrace [rightBrace]
  | comma : Lexeme .tokComma [comma]
  | colon : Lexeme .tokColon [colon]
  | semi : Lexeme .tokSemi [semicolon]
  | true : Lexeme .tokTrue trueText
  | false : Lexeme .tokFalse falseText
  | null : Lexeme .tokNull nullText
  | string {text characters : List UInt16} (h : StringText text characters) :
      Lexeme (.tokString (tokenCharacters characters)) text
  | number {text : List UInt16} {value : Decimal} (h : NumberText text value) :
      Lexeme (.tokNumber value) text

/-- The tokens of the other modes. -/
def Token.isForeign : Token → Bool
  | .tokIdentifier _ | .tokLParen | .tokRParen | .tokDot | .tokAssign => true
  | _ => false

/-- What `lex` can read from a text that does not start with white space. -/
inductive Reads (start : List UInt16) : Lexed → Prop
  | lexeme {token : Token} {text rest : List UInt16} (hstart : start = text ++ rest)
      (h : Lexeme token text) : Reads start ⟨token, rest, none⟩
  | foreign {token : Token} (text : List UInt16) {rest : List UInt16}
      (hstart : start = text ++ rest) (hne : text ≠ []) (h : token.isForeign = Bool.true) :
      Reads start ⟨token, rest, none⟩
  | fails {lexed : Lexed} (h : Fails start lexed) : Reads start lexed
  | atEnd (hstart : start = []) : Reads start ⟨.tokEnd, [], none⟩

/-! ### Soundness -/

theorem lexOther_reads (c : UInt16) (rest : List UInt16) :
    Reads (c :: rest) (lexOther .strictJSON c rest) := by
  unfold lexOther
  split_ifs with hpoint hasg hsm hid hquote
  · exact .foreign [c] rfl (cons_ne_nil _ _) rfl
  · exact .foreign [c] rfl (cons_ne_nil _ _) rfl
  · subst hsm
    exact .lexeme rfl .semi
  · have hpr : isIdentifierPart c = true := by
      simp only [isIdentifierPart, isASCIIAlphanumeric, or_eq_true] at hid ⊢
      tauto
    refine .foreign ((c :: rest).takeWhile isIdentifierPart) ?_ ?_ rfl
    · exact takeWhile_append_dropWhile.symm
    · rw [takeWhile_cons_of_pos hpr]
      exact cons_ne_nil _ _
  · exact .fails (fails_error _ (suffix_refl _))
  · exact absurd rfl ‹¬_›
  · exact .fails (fails_error _ (suffix_refl _))

variable {token : Token} {text : List UInt16}

/-- A word at the front of the text is a token. -/
theorem reads_word {word start : List UInt16} (h : Lexeme token word)
    (hwd : word.isPrefixOf start = true) : Reads start ⟨token, start.drop word.length, none⟩ := by
  obtain ⟨rest, rfl⟩ := isPrefixOf_iff_prefix.mp hwd
  rw [drop_left]
  exact .lexeme rfl h

theorem reads_ite {p : Prop} [Decidable p] {start a b}
    (hp : p → Reads start a) (hng : Reads start b) : Reads start (if p then a else b) := by
  by_cases h : p
  · rw [if_pos h]
    exact hp h
  · rw [if_neg h]
    exact hng

/-- A token that is one character. -/
theorem reads_character {c d} (h : Lexeme token [d]) (hc : c = d)
    (rest : List UInt16) : Reads (c :: rest) ⟨token, rest, none⟩ := by
  subst hc
  exact .lexeme rfl h

theorem lexString_reads (rest : List UInt16) :
    Reads (quotationMark :: rest) (lexString .strictJSON quotationMark rest) := by
  rcases lexString_sound rest with hf | ⟨text, cs, tail, hl, hr, hch⟩
  · exact .fails (hf.mono (suffix_cons _ _))
  · rw [hl]
    exact .lexeme (by simp [hr]) (.string (.intro hch))

theorem lexNumber_reads (start : List UInt16) : Reads start (.ofExcept (lexNumber start)) := by
  have hnm := lexNumber_numbered start
  generalize lexNumber start = res at hnm
  cases hnm with
  | fails h => exact .fails h
  | number hst h => exact .lexeme hst (.number h)

theorem lexToken_reads (c : UInt16) (rest : List UInt16) :
    Reads (c :: rest) (lexToken .strictJSON c rest) := by
  unfold lexToken
  apply reads_ite fun h => reads_character .lBracket h rest
  apply reads_ite fun h => reads_character .rBracket h rest
  apply reads_ite fun _ => .foreign [c] rfl (cons_ne_nil _ _) rfl
  apply reads_ite fun _ => .foreign [c] rfl (cons_ne_nil _ _) rfl
  apply reads_ite fun h => reads_character .lBrace h rest
  apply reads_ite fun h => reads_character .rBrace h rest
  apply reads_ite fun h => reads_character .comma h rest
  apply reads_ite fun h => reads_character .colon h rest
  apply reads_ite fun h => h ▸ lexString_reads rest
  apply reads_ite fun h => reads_word .true h
  apply reads_ite fun h => reads_word .false h
  apply reads_ite fun h => reads_word .null h
  apply reads_ite fun _ => lexNumber_reads (c :: rest)
  exact lexOther_reads c rest

/-- Every call of `lex` skips white space and reads from what is left. -/
theorem lex_reads (ptr : List UInt16) :
    ∃ blank start, ptr = blank ++ start ∧ IsWhiteSpace blank ∧
      Reads start (lex .strictJSON ptr) := by
  refine ⟨_, _, takeWhile_append_dropWhile.symm, fun _ hc => mem_takeWhile_imp hc, ?_⟩
  unfold lex
  cases ptr.dropWhile isJSONWhiteSpace with
  | nil => exact .atEnd rfl
  | cons c rest => exact lexToken_reads c rest

/-! ### Completeness -/

theorem NumberText.head {val} (h : NumberText text val) :
    ∃ c rest, text = c :: rest ∧ (c = minus ∨ isASCIIDigit c = true) := by
  cases h with
  | @intro sign integer fraction digs exponent power hsg hi hfrac hexp =>
    rcases hsg with rfl | rfl
    · cases integer with
      | nil => exact absurd rfl hi.ne_nil
      | cons c integer => exact ⟨c, _, rfl, .inr (hi.isDigits c mem_cons_self)⟩
    · exact ⟨minus, _, rfl, .inl rfl⟩

theorem isJSONWhiteSpace_digit {c} (h : isASCIIDigit c = true) : isJSONWhiteSpace c = false := by
  rw [eq_false_iff]
  intro hsp
  simp only [isJSONWhiteSpace, or_eq_true, beq_iff_eq] at hsp
  rcases hsp with ((rfl | rfl) | rfl) | rfl <;> exact absurd h (by decide)

/-- A sign or digit leads to the number routine. -/
theorem lexToken_number {c} (hc : c = minus ∨ isASCIIDigit c = true) (rest : List UInt16) :
    lexToken .strictJSON c rest = .ofExcept (lexNumber (c :: rest)) := by
  have hne : ∀ d : UInt16, ¬(d = minus ∨ isASCIIDigit d = true) → c ≠ d := by
    rintro d hd rfl
    exact hd hc
  have hwd : ∀ (d : UInt16) (word : List UInt16), ¬(d = minus ∨ isASCIIDigit d = true) →
      (d :: word).isPrefixOf (c :: rest) = false := by
    intro d word hd
    rw [List.isPrefixOf_cons_cons, beq_false_of_ne (hne d hd).symm, Bool.false_and]
  unfold lexToken
  iterate 9 rw [if_neg (hne _ (by decide))]
  rw [trueText, falseText, nullText]
  iterate 3 rw [hwd _ _ (by decide), if_neg Bool.false_ne_true]
  exact if_pos hc

/-- The text after a token does not continue it. -/
def Follows (token : Token) (rest : List UInt16) : Prop :=
  ∀ value, token = .tokNumber value → Stops continuesNumber rest

/-- The lexer reads the token whose text is at the front. -/
theorem lexToken_lexeme (h : Lexeme token text) {rest} (hr : Follows token rest) :
    ∃ c tail, text ++ rest = c :: tail ∧ isJSONWhiteSpace c = false ∧
      lexToken .strictJSON c tail = ⟨token, rest, none⟩ := by
  cases h with
  | string h =>
    obtain @⟨text, cs, h⟩ := h
    refine ⟨quotationMark, text ++ quotationMark :: rest, by simp, rfl, ?_⟩
    exact lexString_complete h rest
  | number h =>
    obtain ⟨c, tail, rfl, hc⟩ := h.head
    refine ⟨c, tail ++ rest, rfl, ?_, ?_⟩
    · rcases hc with rfl | hc
      · rfl
      · exact isJSONWhiteSpace_digit hc
    · rw [lexToken_number hc, ← cons_append, lexNumber_complete h (hr _ rfl)]
      rfl
  | _ => exact ⟨_, _, rfl, rfl, rfl⟩

theorem lex_lexeme {blank rest} (h : Lexeme token text)
    (hb : IsWhiteSpace blank) (hr : Follows token rest) :
    lex .strictJSON (blank ++ (text ++ rest)) = ⟨token, rest, none⟩ := by
  obtain ⟨c, tail, htx, hc, hl⟩ := lexToken_lexeme h hr
  rw [lex, htx, dropWhile_run hb (stops_cons tail hc)]
  exact hl

theorem lex_blank {blank} (hb : IsWhiteSpace blank) :
    lex .strictJSON blank = ⟨.tokEnd, [], none⟩ := by
  have hdr := dropWhile_eq_nil_iff.mpr hb
  rw [lex, hdr]

/-! ### Progress -/

/-- The tokens that need not take anything from the text. -/
def Token.isStuck : Token → Bool
  | .tokEnd | .tokError => true
  | _ => false

theorem Lexeme.ne_nil (h : Lexeme token text) : text ≠ [] := by
  cases h with
  | string h =>
    cases h
    exact cons_ne_nil _ _
  | number h =>
    obtain ⟨c, tail, rfl, _⟩ := h.head
    exact cons_ne_nil _ _
  | _ => exact cons_ne_nil _ _

theorem lex_ptr_length (ptr : List UInt16) :
    (lex .strictJSON ptr).ptr.length ≤ ptr.length ∧
      ((lex .strictJSON ptr).token.isStuck = true ∨
        (lex .strictJSON ptr).ptr.length < ptr.length) := by
  obtain ⟨blank, start, hpt, _, hrd⟩ := lex_reads ptr
  have hn : ptr.length = blank.length + start.length := by rw [hpt, length_append]
  generalize lex .strictJSON ptr = lexed at hrd
  cases hrd with
  | lexeme hst h =>
    have hp := length_pos_of_ne_nil h.ne_nil
    rw [hst, length_append] at hn
    dsimp only
    omega
  | foreign text hst hne h =>
    have hp := length_pos_of_ne_nil hne
    rw [hst, length_append] at hn
    dsimp only
    omega
  | fails h =>
    have hsuf := h.suffix.length_le
    rw [h.token]
    exact ⟨by omega, .inl rfl⟩
  | atEnd hst => exact ⟨Nat.zero_le _, .inl rfl⟩

end QtWebKit.JSON
