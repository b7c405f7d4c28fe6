import QtWebKit.JSON.Soundness

/-!
# What the literal parser has to accept

On a phrase of the grammar the machine never fails: it reaches the `break`
after it, behind the phrase and with the stacks as before.

## Implementation notes

The induction is on the derivation of the phrase. A value has to be followed by
a character that does not continue a number, as all the characters that can
follow it in a JSON text are.
-/

namespace QtWebKit.JSON

open List

/-! ### Positions of the lexer -/

theorem lex_append_blank {blank} (h : IsWhiteSpace blank) (text : List UInt16) :
    lex .strictJSON (blank ++ text) = lex .strictJSON text := by
  rw [lex, lex, dropWhile_append_of_pos h]

variable {lexer : Lexer}

theorem Lexer.At.of_blank {blank text}
    (h : lexer.At (blank ++ text)) (hbl : IsWhiteSpace blank) : lexer.At text := by
  have hl := lex_append_blank hbl text
  exact ⟨h.token.trans (congrArg Lexed.token hl), h.ptr.trans (congrArg Lexed.ptr hl)⟩

theorem Lexer.At.read {token text rest}
    (h : lexer.At (text ++ rest)) (hlx : Lexeme token text) (hr : Follows token rest) :
    lexer.currentToken = token ∧ lexer.ptr = rest := by
  have hl := lex_lexeme hlx (fun _ hc => absurd hc not_mem_nil) hr
  rw [nil_append] at hl
  exact ⟨h.token.trans (congrArg Lexed.token hl), h.ptr.trans (congrArg Lexed.ptr hl)⟩

theorem lexeme_of_character {token : Token} {c} (h : token.character = some c) :
    Lexeme token [c] := by
  cases token <;> cases h <;> constructor

theorem Lexer.At.readCharacter {c rest}
    (h : lexer.At (c :: rest)) (token : Token) (hc : token.character = some c) :
    lexer.currentToken = token ∧ lexer.ptr = rest := by
  have hn : ∀ val, token ≠ .tokNumber val := by
    rintro val rfl
    cases hc
  exact h.read (lexeme_of_character hc) fun val heq => absurd heq (hn val)

theorem Lexer.At.readString {name key rest}
    (h : lexer.At (name ++ rest)) (hnm : StringText name key) :
    lexer.currentToken = .tokString (tokenCharacters key) ∧ lexer.ptr = rest := by
  apply h.read (.string hnm)
  intro val heq
  cases heq

theorem returnedToken_of_current {token}
    (h : lexer.currentToken = token) (hsm : token ≠ .tokSemi) : lexer.returnedToken = token := by
  rw [Lexer.returnedToken, h, if_neg hsm]

theorem stops_blank {blank rest} (hbl : IsWhiteSpace blank)
    (hr : Stops continuesNumber rest) : Stops continuesNumber (blank ++ rest) := by
  cases blank with
  | nil => exact hr
  | cons c blank =>
    have hc := hbl c mem_cons_self
    apply stops_cons
    simp only [isJSONWhiteSpace, Bool.or_eq_true, beq_iff_eq] at hc
    rcases hc with ((rfl | rfl) | rfl) | rfl <;> rfl

/-! ### The end of an element or member -/

section

variable {m : Machine} {object val : JSValue} {objectStack : List JSValue}
    {stateStack : List ParserState}
  {identifierStack : List (List UInt16)} {rest : List UInt16}

theorem end_comma (st : ParserState) (close : Token) (message : String)
    (hdn : Done (object :: objectStack) stateStack identifierStack m val (comma :: rest)) :
    (if m.lexer.currentToken = .tokComma then Outcome.goto { m with state := st }
      else if m.lexer.currentToken ≠ close then m.fail message
      else m.next.popObject.breaks).finish = parse { m with state := st } := by
  rw [if_pos (hdn.lexer.readCharacter .tokComma rfl).1]
  rfl

theorem end_close (st : ParserState) (close : Token) (message : String) {c}
    (hcl : close.character = some c) (hcm : close ≠ .tokComma)
    (hdn : Done (object :: objectStack) stateStack identifierStack m val (c :: rest)) :
    (if m.lexer.currentToken = .tokComma then Outcome.goto { m with state := st }
      else if m.lexer.currentToken ≠ close then m.fail message
      else m.next.popObject.breaks).finish = m.next.popObject.breaks.finish ∧
    Done objectStack stateStack identifierStack m.next.popObject object rest := by
  obtain ⟨ht, hpt⟩ := hdn.lexer.readCharacter close hcl
  constructor
  · rw [ht, if_neg hcm, if_neg (not_not.mpr rfl)]
  · refine ⟨hpt ▸ m.lexer.next_at, ?_, ?_, hdn.stateStack, hdn.identifierStack⟩
    · change m.objectStack.head? = _
      rw [hdn.objectStack]
      rfl
    · change m.objectStack.tail = _
      rw [hdn.objectStack]
      rfl

end

/-! ### Phrases -/

/-- The machine gets from the start of a value to its end. -/
def ValueCompletes (body : List UInt16) : Prop :=
  ∀ rest, Stops continuesNumber rest →
    (lex .strictJSON (body ++ rest)).token ≠ .tokRBracket ∧
    ∀ m : Machine, m.state = .startParseExpression → m.lexer.At (body ++ rest) →
      ∃ value m', parse m = m'.breaks.finish ∧
        Done m.objectStack m.stateStack m.identifierStack m' value rest

/-- The machine gets from the start of an element to the end of the array. -/
def ElementsComplete (body : List UInt16) : Prop :=
  ∀ (rest : List UInt16) (m : Machine) (object : JSValue) (objectStack : List JSValue),
    m.state = .doParseArrayStartExpression → m.lexer.ptr = body ++ rightBracket :: rest →
    m.objectStack = object :: objectStack →
    ∃ value m', parse m = m'.breaks.finish ∧
      Done objectStack m.stateStack m.identifierStack m' value rest

/-- The machine gets from the name of a member to the end of the object. -/
def MemberCompletes (body : List UInt16) : Prop :=
  ∀ (rest : List UInt16) (m : Machine) (object : JSValue) (objectStack : List JSValue)
    (key : List UInt16) (message : String), m.lexer.ptr = body ++ rightBrace :: rest →
    m.objectStack = object :: objectStack →
    ∃ value m', (m.parseMember key message).finish = m'.breaks.finish ∧
      Done objectStack m.stateStack m.identifierStack m' value rest

def Completes : Phrase → List UInt16 → Prop
  | .value _, body => ValueCompletes body
  | .element _, body => ValueCompletes body
  | .elements _, body => ElementsComplete body
  | .members _, body => ∃ before name key tail, body = before ++ (name ++ tail) ∧
      IsWhiteSpace before ∧ StringText name key ∧ MemberCompletes tail

variable {text : List UInt16}

/-- A value that is one token. -/
theorem literal_completes {token val} (hlx : Lexeme token text) (hbr : token ≠ .tokRBracket)
    (hlt : ∀ m : Machine, m.lexer.currentToken = token →
      m.startParseExpression = m.literal val) : ValueCompletes text := by
  intro rest hr
  have hfl : Follows token rest := fun _ _ => hr
  constructor
  · have hl := lex_lexeme hlx (fun _ hc => absurd hc not_mem_nil) hfl
    rw [nil_append] at hl
    rw [hl]
    exact hbr
  · intro m hst hat
    obtain ⟨ht, hpt⟩ := hat.read hlx hfl
    refine ⟨val, { m.next with lastValue := some val }, ?_,
      ⟨hpt ▸ m.lexer.next_at, rfl, rfl, rfl, rfl⟩⟩
    rw [parse_eq, Machine.step, hst]
    exact congrArg Outcome.finish (hlt m ht)

/-- A value that starts with a bracket or brace. -/
theorem bracket_completes (token : Token) {c inner}
    (hc : token.character = some c) (hbr : token ≠ .tokRBracket)
    (h : ∀ (rest : List UInt16) (m : Machine), m.lexer.currentToken = token →
      m.lexer.ptr = inner ++ rest → ∃ val m', m.startParseExpression.finish = m'.breaks.finish ∧
        Done m.objectStack m.stateStack m.identifierStack m' val rest) :
    ValueCompletes (c :: inner) := by
  intro rest _
  have hat := Lexer.next_at { ptr := c :: inner ++ rest }
  constructor
  · rw [← hat.token, (hat.readCharacter token hc).1]
    exact hbr
  · intro m hst hat
    obtain ⟨ht, hpt⟩ := hat.readCharacter token hc
    rw [parse_eq, Machine.step, hst]
    exact h rest m ht hpt

theorem array_completes (h : ElementsComplete text) :
    ValueCompletes (leftBracket :: (text ++ [rightBracket])) := by
  apply bracket_completes .tokLBracket rfl (by decide)
  intro rest m ht hpt
  have hs : m.startParseExpression.finish = parse { m with
      state := .doParseArrayStartExpression
      objectStack := .array [] :: m.objectStack } := by
    rw [Machine.startParseExpression, ht]
    exact parse_eq _
  rw [hs]
  apply h rest { m with
      state := .doParseArrayStartExpression
      objectStack := .array [] :: m.objectStack } (.array []) m.objectStack rfl _ rfl
  rw [hpt]
  simp

theorem emptyArray_completes {blank} (hbl : IsWhiteSpace blank) :
    ValueCompletes (leftBracket :: (blank ++ [rightBracket])) := by
  apply bracket_completes .tokLBracket rfl (by decide)
  intro rest m ht hpt
  have hat : m.lexer.next.At (blank ++ (rightBracket :: rest)) := by
    have ha : blank ++ [rightBracket] ++ rest = blank ++ rightBracket :: rest := by simp
    rw [← ha, ← hpt]
    exact m.lexer.next_at
  obtain ⟨hbr, hr⟩ := (hat.of_blank hbl).readCharacter .tokRBracket rfl
  refine ⟨.array [], { m with
      state := .doParseArrayStartExpression
      objectStack := .array [] :: m.objectStack }.next.next.popObject, ?_,
    ⟨hr ▸ m.lexer.next.next_at, rfl, rfl, rfl, rfl⟩⟩
  rw [Machine.startParseExpression, ht]
  change parse _ = _
  rw [parse_eq]
  change parse _ = _
  rw [parse_eq]
  have hrt := returnedToken_of_current hbr (by decide)
  have hcm : m.lexer.currentToken ≠ .tokComma := by
    rw [ht]
    decide
  exact congrArg Outcome.finish ((if_pos hrt).trans (if_neg hcm))

theorem element_completes {pre after} (hb : IsWhiteSpace pre)
    (h : ValueCompletes text) (haf : IsWhiteSpace after) :
    ValueCompletes (pre ++ (text ++ after)) := by
  intro rest hr
  have ha : pre ++ (text ++ after) ++ rest = pre ++ (text ++ (after ++ rest)) := by
    simp
  obtain ⟨ht, hu⟩ := h (after ++ rest) (stops_blank haf hr)
  rw [ha]
  constructor
  · rw [lex_append_blank hb]
    exact ht
  · intro m hst hat
    obtain ⟨val, m', hp, hdn⟩ := hu m hst (hat.of_blank hb)
    exact ⟨val, m', hp, { hdn with lexer := hdn.lexer.of_blank haf }⟩

/-- An element in an array leads to the end of the element. -/
theorem element_run {rest} (h : ValueCompletes text) (hr : Stops continuesNumber rest) {m : Machine}
    (hst : m.state = .doParseArrayStartExpression) (hpt : m.lexer.ptr = text ++ rest)
    {object objectStack} (hsk : m.objectStack = object :: objectStack) :
    ∃ (object' val : JSValue) (m' : Machine), parse m = m'.doParseArrayEndExpression.finish ∧
      Done (object' :: objectStack) m.stateStack m.identifierStack
        (m'.updateObject (Machine.appendElement m'.lastValue)) val rest := by
  obtain ⟨hbr, hu⟩ := h rest hr
  have hat := hpt ▸ m.lexer.next_at
  have hrt : m.next.lexer.returnedToken ≠ .tokRBracket := by
    intro hrt
    have ht := currentToken_of_returned hrt (by decide)
    exact hbr (hat.token.symm.trans ht)
  obtain ⟨val, m₁, hp, hdn⟩ :=
    hu (m.next.pushState .doParseArrayEndExpression .startParseExpression) rfl hat
  refine ⟨Machine.appendElement m₁.lastValue object, val, { m₁ with
      state := .doParseArrayEndExpression
      stateStack := m.stateStack }, ?_, ⟨hdn.lexer, hdn.lastValue, ?_, rfl, ?_⟩⟩
  · rw [parse_eq, Machine.step, hst]
    refine (congrArg Outcome.finish (if_neg hrt)).trans (hp.trans ?_)
    rw [hdn.finish_breaks, parse_eq]
    rfl
  · change modifyHead _ m₁.objectStack = _
    rw [hdn.objectStack]
    change modifyHead _ m.objectStack = _
    rw [hsk]
    rfl
  · exact hdn.identifierStack

theorem lastElement_completes (h : ValueCompletes text) : ElementsComplete text := by
  intro rest m object objectStack hst hpt hsk
  obtain ⟨object', val, m₁, hp, hdn⟩ :=
    element_run h (stops_cons rest rfl) hst hpt hsk
  obtain ⟨hf, hdn'⟩ := end_close .doParseArrayStartExpression .tokRBracket
    "Expected ']'" rfl (by decide) hdn
  exact ⟨object', _, hp.trans hf, hdn'⟩

theorem elements_complete {tail} (h : ValueCompletes text)
    (htl : ElementsComplete tail) : ElementsComplete (text ++ comma :: tail) := by
  intro rest m object objectStack hst hpt hsk
  have ha : text ++ comma :: tail ++ rightBracket :: rest =
      text ++ comma :: (tail ++ rightBracket :: rest) := by simp
  obtain ⟨object', val, m₁, hp, hdn⟩ :=
    element_run h (stops_cons _ rfl) hst (hpt.trans ha) hsk
  have hf := end_comma .doParseArrayStartExpression .tokRBracket "Expected ']'" hdn
  obtain ⟨val', m', hp', hdn'⟩ := htl rest
    { (m₁.updateObject (Machine.appendElement m₁.lastValue)) with
      state := .doParseArrayStartExpression }
    object' objectStack rfl (hdn.lexer.readCharacter .tokComma rfl).2 hdn.objectStack
  refine ⟨val', m', (hp.trans hf).trans hp', ?_⟩
  rw [← hdn.stateStack, ← hdn.identifierStack]
  exact hdn'

/-- The colon and the value of a member lead to the end of the member. -/
theorem member_run {between rest} (hbt : IsWhiteSpace between)
    (h : ValueCompletes text) (hr : Stops continuesNumber rest) {m : Machine}
    (hpt : m.lexer.ptr = between ++ colon :: (text ++ rest)) {object}
    {objectStack} (hsk : m.objectStack = object :: objectStack)
    (key : List UInt16) (message : String) :
    ∃ (object' val : JSValue) (m' : Machine),
      (m.parseMember key message).finish = m'.doParseObjectEndExpression.finish ∧
      Done (object' :: objectStack) m.stateStack m.identifierStack m'.putMember val rest := by
  have hat := hpt ▸ m.lexer.next_at
  obtain ⟨hcn, hv⟩ := (hat.of_blank hbt).readCharacter .tokColon rfl
  have hrt := not_not.mpr (returnedToken_of_current hcn (by decide))
  have hat' := hv ▸ m.next.lexer.next_at
  obtain ⟨val, m₁, hp, hdn⟩ := (h rest hr).2
    ({ m.next.next with identifierStack := key :: m.identifierStack }.pushState
      .doParseObjectEndExpression .startParseExpression) rfl hat'
  refine ⟨object.put key val, val, { m₁ with
      state := .doParseObjectEndExpression
      stateStack := m.stateStack }, ?_, ?_⟩
  · refine (congrArg Outcome.finish (if_neg hrt)).trans (hp.trans ?_)
    rw [hdn.finish_breaks, parse_eq]
    rfl
  · exact hdn.putMember hsk m.stateStack

theorem lastMember_completes {between} (hbt : IsWhiteSpace between)
    (h : ValueCompletes text) : MemberCompletes (between ++ colon :: text) := by
  intro rest m object objectStack key message hpt hsk
  have ha : between ++ colon :: text ++ rightBrace :: rest =
      between ++ colon :: (text ++ rightBrace :: rest) := by simp
  obtain ⟨object', val, m₁, hp, hdn⟩ := member_run hbt h (stops_cons rest rfl)
    (hpt.trans ha) hsk key message
  obtain ⟨hf, hdn'⟩ := end_close .doParseObjectStartExpression .tokRBrace
    "Expected '\x7d'" rfl (by decide) hdn
  exact ⟨object', _, hp.trans hf, hdn'⟩

theorem members_complete {between pre name key tail}
    (hbt : IsWhiteSpace between) (h : ValueCompletes text) (hb : IsWhiteSpace pre)
    (hnm : StringText name key) (htl : MemberCompletes tail) :
    MemberCompletes (between ++ colon :: (text ++ comma :: (pre ++ (name ++ tail)))) := by
  intro rest m object objectStack key' message hpt hsk
  have ha : between ++ colon :: (text ++ comma :: (pre ++ (name ++ tail))) ++
      rightBrace :: rest = between ++ colon :: (text ++
        (comma :: (pre ++ (name ++ (tail ++ rightBrace :: rest))))) := by simp
  obtain ⟨object', val, m₁, hp, hdn⟩ := member_run hbt h (stops_cons _ rfl)
    (hpt.trans ha) hsk key' message
  have hf := end_comma .doParseObjectStartExpression .tokRBrace "Expected '\x7d'" hdn
  obtain ⟨_, hcm⟩ := hdn.lexer.readCharacter .tokComma rfl
  have hat := hcm ▸ m₁.putMember.lexer.next_at
  obtain ⟨hsr, hpt'⟩ := (hat.of_blank hb).readString hnm
  obtain ⟨val', m', hp', hdn'⟩ := htl rest
    ({ m₁.putMember with state := .doParseObjectStartExpression } : Machine).next object'
    objectStack (tokenCharacters key) "Expected ':'" hpt' hdn.objectStack
  refine ⟨val', m', (hp.trans hf).trans (Eq.trans ?_ hp'), ?_⟩
  · rw [parse_eq]
    change (Machine.doParseObjectStartExpression _).finish = _
    rw [Machine.doParseObjectStartExpression]
    have hrt : ({ m₁.putMember with
        state := .doParseObjectStartExpression } : Machine).next.lexer.returnedToken =
        .tokString (tokenCharacters key) := returnedToken_of_current hsr (by simp)
    simp only [hrt]
  · rw [← hdn.stateStack, ← hdn.identifierStack]
    exact hdn'

theorem startParseObject_run {m : Machine} (ht : m.lexer.currentToken = .tokLBrace) :
    m.startParseExpression.finish =
      ({ m with state := .startParseObject } : Machine).startParseObject.finish := by
  rw [Machine.startParseExpression, ht]
  exact parse_eq _

theorem object_completes {pre name key tail} (hb : IsWhiteSpace pre)
    (hnm : StringText name key) (htl : MemberCompletes tail) :
    ValueCompletes (leftBrace :: (pre ++ (name ++ tail) ++ [rightBrace])) := by
  apply bracket_completes .tokLBrace rfl (by decide)
  intro rest m ht hpt
  have hat : m.lexer.next.At (pre ++ (name ++ (tail ++ rightBrace :: rest))) := by
    have ha : pre ++ (name ++ tail) ++ [rightBrace] ++ rest =
        pre ++ (name ++ (tail ++ rightBrace :: rest)) := by simp
    rw [← ha, ← hpt]
    exact m.lexer.next_at
  obtain ⟨hsr, hpt'⟩ := (hat.of_blank hb).readString hnm
  have hrt := returnedToken_of_current hsr (by simp)
  rw [startParseObject_run ht, Machine.startParseObject]
  simp only [Machine.next, hrt]
  exact htl rest _ (.object [] []) m.objectStack _ _ hpt' rfl

theorem emptyObject_completes {blank} (hbl : IsWhiteSpace blank) :
    ValueCompletes (leftBrace :: (blank ++ [rightBrace])) := by
  apply bracket_completes .tokLBrace rfl (by decide)
  intro rest m ht hpt
  have hat : m.lexer.next.At (blank ++ (rightBrace :: rest)) := by
    have ha : blank ++ [rightBrace] ++ rest = blank ++ rightBrace :: rest := by simp
    rw [← ha, ← hpt]
    exact m.lexer.next_at
  obtain ⟨hbc, hr⟩ := (hat.of_blank hbl).readCharacter .tokRBrace rfl
  have hrt := returnedToken_of_current hbc (by decide)
  rw [startParseObject_run ht, Machine.startParseObject]
  simp only [Machine.next, hrt]
  exact ⟨.object [] [], _, rfl, ⟨hr ▸ m.lexer.next.next_at, rfl, rfl, rfl, rfl⟩⟩

/-- On every phrase of the grammar the machine gets to its end. -/
theorem Derives.completes {phrase} (h : Derives phrase text) : Completes phrase text := by
  induction h with
  | null =>
    apply literal_completes .null (by decide)
    intro m ht
    rw [Machine.startParseExpression, ht]
  | true =>
    apply literal_completes .true (by decide)
    intro m ht
    rw [Machine.startParseExpression, ht]
  | false =>
    apply literal_completes .false (by decide)
    intro m ht
    rw [Machine.startParseExpression, ht]
  | number h =>
    apply literal_completes (.number h) (by simp)
    intro m ht
    rw [Machine.startParseExpression, ht]
  | string h =>
    apply literal_completes (.string h) (by simp)
    intro m ht
    rw [Machine.startParseExpression, ht]
  | emptyArray hbl => exact emptyArray_completes hbl
  | array _ ih => exact array_completes ih
  | emptyObject hbl => exact emptyObject_completes hbl
  | object _ _ ih =>
    obtain ⟨pre, name, key, tail, rfl, hb, hnm, htl⟩ := ih
    exact object_completes hb hnm htl
  | element hb _ haf ih => exact element_completes hb ih haf
  | lastElement _ ih => exact lastElement_completes ih
  | elements _ _ ih ihrest => exact elements_complete ih ihrest
  | @lastMember pre name between text key val hb hnm hbt _ ih =>
    exact ⟨pre, name, key, _, rfl, hb, hnm, lastMember_completes hbt ih⟩
  | @members pre name between text rest key val members hb hnm hbt _ _ ih ihrest =>
    obtain ⟨pre', name', key', tail, rfl, hb', hnm', htl⟩ := ihrest
    exact ⟨pre, name, key, _, rfl, hb, hnm, members_complete hbt ih hb' hnm' htl⟩

/-- A call of `parse` on a JSON text with something behind it that does not
continue a number returns a value and stands at what is behind. -/
theorem parseSource_complete {src : SourceText} {rest val}
    (hsc : src.units = text ++ rest) (h : JSONText text val) (hr : Stops continuesNumber rest) :
    ∃ final res, parseSource src = (final, some res) ∧ final.lexer.At rest := by
  have hat : (({ ptr := src.units } : Lexer).next).At (text ++ rest) :=
    hsc ▸ Lexer.next_at { ptr := src.units }
  obtain ⟨res, m', hp, hdn⟩ :=
    (h.completes rest hr).2 { lexer := ({ ptr := src.units } : Lexer).next } rfl hat
  refine ⟨m', res, ?_, hdn.lexer⟩
  rw [parseSource, hp, Machine.breaks, hdn.stateStack, ← hdn.lastValue]
  rfl

end QtWebKit.JSON
