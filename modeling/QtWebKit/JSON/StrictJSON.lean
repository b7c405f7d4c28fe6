import QtWebKit.JSON.Completeness

/-!
# The strict mode accepts JSON and one semicolon more

`tryLiteralParse` skips a semicolon after the value in every mode, so that the
strict mode accepts a JSON text followed by a semicolon and white space. On all
other texts it returns a value exactly when the text is a JSON text, and the
value is one that the text denotes.
-/

namespace QtWebKit.JSON

open List

/-- The lexer is at the end only if white space is left. -/
theorem Lexer.At.isWhiteSpace {lexer : Lexer} {text} (h : lexer.At text)
    (ht : lexer.currentToken = .tokEnd) : IsWhiteSpace text := by
  obtain ⟨blank, start, htx, hbl, hrd⟩ := lex_reads text
  have hl := h.token.symm.trans ht
  generalize lex .strictJSON text = lexed at hrd hl
  cases hrd with
  | lexeme _ hlx =>
    obtain rfl : _ = Token.tokEnd := hl
    cases hlx
  | foreign _ _ _ hf =>
    obtain rfl : _ = Token.tokEnd := hl
    cases hf
  | fails hfl =>
    rw [hfl.token] at hl
    cases hl
  | atEnd hst =>
    rw [htx, hst, append_nil]
    exact hbl

theorem Lexer.At.atEnd {lexer : Lexer} {text} (h : lexer.At text)
    (htx : IsWhiteSpace text) : lexer.currentToken = .tokEnd := by
  rw [h.token, lex_blank htx]

/-- The text is a JSON text followed by a semicolon and white space. -/
def EndsInSemicolon (text : List UInt16) (value : JSValue) : Prop :=
  ∃ before after, text = before ++ semicolon :: after ∧ JSONText before value ∧
    IsWhiteSpace after

/-- What `tryLiteralParse` returns a value for. -/
theorem tryLiteralParse_sound {src : SourceText} (hlm : src.units.length < 2147483648)
    {val} (h : tryLiteralParse src = some val) :
    (JSONText src.units val ∨ EndsInSemicolon src.units val) ∧
      (parseSource src).1.stateStack = [] ∧ (parseSource src).1.objectStack = [] ∧
      (parseSource src).1.identifierStack = [] := by
  unfold tryLiteralParse at h
  rcases hp : parseSource src with ⟨final, res⟩
  rw [hp] at h
  simp only at h
  split_ifs at h with hsm he he
  all_goals subst h
  all_goals obtain ⟨blank, body, rest, htx, hbl, hd, hat, hsc⟩ :=
    parseSource_sound hlm hp
  · refine ⟨.inr ?_, hsc⟩
    obtain ⟨after, hr, ha⟩ := hat.character hsm rfl
    refine ⟨blank ++ (body ++ after), final.lexer.ptr, ?_, .element hbl hd ha,
      final.lexer.next_at.isWhiteSpace (not_not.mp he)⟩
    rw [htx, hr]
    simp
  · refine ⟨.inl ?_, hsc⟩
    rw [htx]
    exact .element hbl hd (hat.isWhiteSpace (not_not.mp he))

/-- After a value the parser stands at what follows it, and accepts an end or a semicolon there. -/
theorem tryLiteralParse_isSome {src} {final : Machine} {res}
    {after} (hp : parseSource src = (final, some res)) (ha : IsWhiteSpace after)
    (hat : final.lexer.At after ∨ final.lexer.At (semicolon :: after)) :
    (tryLiteralParse src).isSome = true := by
  unfold tryLiteralParse
  rw [hp]
  rcases hat with hat | hat
  · have he := hat.atEnd ha
    simp [he]
  · obtain ⟨hsm, hpt⟩ := hat.readCharacter .tokSemi rfl
    have he := (hpt ▸ final.lexer.next_at : final.lexer.next.At after).atEnd ha
    simp [hsm, he]

/-- `tryLiteralParse` accepts exactly the JSON texts, returns the value denoted
and leaves nothing on the stacks of `parse`. -/
structure ParsesExactly (source : SourceText) : Prop where
  accepts : (tryLiteralParse source).isSome = true ↔ ∃ value, JSONText source.units value
  denotes : ∀ value, tryLiteralParse source = some value → JSONText source.units value
  emptyStacks : ∀ value, tryLiteralParse source = some value →
    (parseSource source).1.stateStack = [] ∧ (parseSource source).1.objectStack = [] ∧
      (parseSource source).1.identifierStack = []

theorem nil_isDigits : IsDigits [] := fun _ h => absurd h not_mem_nil

theorem nil_isWhiteSpace : IsWhiteSpace [] := fun _ h => absurd h not_mem_nil

/-- A JSON text does not end in a semicolon: the parser would stand at two tokens. -/
theorem not_jsonText_of_endsInSemicolon (src : SourceText) {val other}
    (h : EndsInSemicolon src.units val) : ¬JSONText src.units other := by
  intro hj
  obtain ⟨pre, after, htx, hb, ha⟩ := h
  obtain ⟨final, res, hp, hat⟩ :=
    parseSource_complete (append_nil src.units).symm hj (stops_nil _)
  obtain ⟨final', res', hp', hat'⟩ :=
    parseSource_complete htx hb (stops_cons after rfl)
  rw [hp] at hp'
  obtain ⟨rfl, _⟩ := Prod.mk.inj hp'
  have he := hat.atEnd nil_isWhiteSpace
  rw [(hat'.readCharacter .tokSemi rfl).1] at he
  cases he

/-- Up to the limit of the length field, the strict mode is exact on the texts
that are not a JSON text with a semicolon behind it. -/
theorem parsesExactly_iff (source : SourceText) (hlimit : source.units.length < 2147483648) :
    ParsesExactly source ↔ ¬∃ value, EndsInSemicolon source.units value := by
  constructor
  · rintro hexact ⟨value, before, after, htext, hbef, hafter⟩
    obtain ⟨final, result, hparse, hat⟩ :=
      parseSource_complete htext hbef (stops_cons after rfl)
    obtain ⟨other, hoth⟩ :=
      hexact.accepts.mp (tryLiteralParse_isSome hparse hafter (.inr hat))
    exact not_jsonText_of_endsInSemicolon source ⟨before, after, htext, hbef, hafter⟩ hoth
  · intro hsemicolon
    have hdenotes : ∀ value, tryLiteralParse source = some value → JSONText source.units value := by
      intro value hval
      exact (tryLiteralParse_sound hlimit hval).1.resolve_right fun h => hsemicolon ⟨value, h⟩
    refine ⟨⟨?_, ?_⟩, hdenotes, fun value hval => (tryLiteralParse_sound hlimit hval).2⟩
    · intro hsome
      obtain ⟨value, hval⟩ := Option.isSome_iff_exists.mp hsome
      exact ⟨value, hdenotes value hval⟩
    · rintro ⟨value, hval⟩
      obtain ⟨final, result, hparse, hat⟩ :=
        parseSource_complete (List.append_nil source.units).symm hval (stops_nil _)
      exact tryLiteralParse_isSome hparse nil_isWhiteSpace (.inl hat)

/-- The text `{"a":[1,null]}`. -/
def nestedText : List UInt16 :=
  [0x7B, 0x22, 0x61, 0x22, 0x3A, 0x5B, 0x31, 0x2C, 0x6E, 0x75, 0x6C, 0x6C, 0x5D, 0x7D]

/-- A member whose value is an array is accepted, and exactly. -/
theorem parsesExactly_nestedText :
    (tryLiteralParse (.utf16 nestedText)).isSome ∧ ParsesExactly (.utf16 nestedText) := by
  refine ⟨by decide +kernel, (parsesExactly_iff (.utf16 nestedText) (by decide)).mpr ?_⟩
  rintro ⟨value, before, after, htext, _, _⟩
  have hmem : semicolon ∈ nestedText := by
    change nestedText = _ at htext
    rw [htext]
    simp
  exact absurd hmem (by decide)

/-- A number followed by a semicolon is accepted, but is no JSON text. -/
theorem not_parsesExactly_semicolon : ¬ParsesExactly (.utf16 [0x31, semicolon]) := by
  intro hexact
  have hnum : JSONText [0x31] (.number ⟨false, 1, 0⟩) := by
    have hone : NumberText [0x31] ⟨false, 1, 0⟩ :=
      .intro (.inl rfl) (.digits (by decide) (by decide) nil_isDigits) .none .none
    exact .element nil_isWhiteSpace (.number hone) nil_isWhiteSpace
  have hends : EndsInSemicolon [0x31, semicolon] (.number ⟨false, 1, 0⟩) :=
    ⟨[0x31], [], rfl, hnum, nil_isWhiteSpace⟩
  obtain ⟨value, hval⟩ := hexact.accepts.mp (by decide +kernel)
  exact not_jsonText_of_endsInSemicolon (.utf16 [0x31, semicolon]) hends hval

end QtWebKit.JSON
