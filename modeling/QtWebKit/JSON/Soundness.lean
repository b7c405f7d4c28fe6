import QtWebKit.JSON.LiteralParser

/-!
# What the literal parser accepts

A run of the machine that returns a value has read the text of that value.
Each lemma follows the machine from the start of a value, an array or a member
to the `break` after it: what was read there is a phrase of the grammar, the
stacks are as before, and the rest of the run goes on behind it.

## Implementation notes

The induction is on the length of the text that is left: an array or object is
read behind its opening bracket, the next element or member behind a comma.
-/

namespace QtWebKit.JSON

open List Option

/-! ### Positions of the lexer -/

/-- The lexer is at the first token of a text. -/
structure Lexer.At (lexer : Lexer) (text : List UInt16) : Prop where
  token : lexer.currentToken = (lex .strictJSON text).token
  ptr : lexer.ptr = (lex .strictJSON text).ptr

theorem Lexer.next_at (lexer : Lexer) : lexer.next.At lexer.ptr := ⟨rfl, rfl⟩

theorem Lexer.At.lexeme {lexer : Lexer} {text} {token : Token} (h : lexer.At text)
    (ht : lexer.currentToken = token) (hf : token.isForeign = false) (hsc : token.isStuck = false) :
    ∃ blank body, text = blank ++ (body ++ lexer.ptr) ∧ IsWhiteSpace blank ∧
      Lexeme token body := by
  obtain ⟨blank, start, htx, hbl, hrd⟩ := lex_reads text
  have hld := h.token.symm.trans ht
  have hp := h.ptr
  generalize lex .strictJSON text = lexed at hrd hld hp
  cases hrd with
  | lexeme hst hlx =>
    obtain rfl : _ = token := hld
    refine ⟨blank, _, ?_, hbl, hlx⟩
    rw [htx, hst, hp]
  | foreign _ _ _ ho =>
    rw [← hld, ho] at hf
    cases hf
  | fails hfl =>
    rw [← hld, hfl.token] at hsc
    cases hsc
  | atEnd _ =>
    rw [← hld] at hsc
    cases hsc

/-- The tokens that are one character. -/
def Token.character : Token → Option UInt16
  | .tokLBracket => some leftBracket
  | .tokRBracket => some rightBracket
  | .tokLBrace => some leftBrace
  | .tokRBrace => some rightBrace
  | .tokComma => some comma
  | .tokColon => some colon
  | .tokSemi => some semicolon
  | _ => none

theorem Lexer.At.character {lexer : Lexer} {text} {token : Token} {c}
    (h : lexer.At text) (ht : lexer.currentToken = token) (hc : token.character = some c) :
    ∃ blank, text = blank ++ c :: lexer.ptr ∧ IsWhiteSpace blank := by
  have hf : token.isForeign = false := by cases token <;> first | rfl | cases hc
  have hsc : token.isStuck = false := by cases token <;> first | rfl | cases hc
  obtain ⟨blank, body, htx, hbl, hlx⟩ := h.lexeme ht hf hsc
  have hbd : body = [c] := by
    cases hlx <;> first | exact congrArg (fun d => [d]) (some.inj hc) | cases hc
  rw [hbd] at htx
  exact ⟨blank, htx, hbl⟩

/-- Only the type returned for a semicolon is not the token's. -/
theorem currentToken_of_returned {lexer : Lexer} {token}
    (h : lexer.returnedToken = token) (ht : token ≠ .tokAssign) : lexer.currentToken = token := by
  rw [Lexer.returnedToken] at h
  split_ifs at h with hsemi
  · exact absurd h.symm ht
  · exact h

/-- In a text below the limit of the length field a string token has all its characters. -/
theorem stringText_of_lexeme {body cs : List UInt16}
    (h : Lexeme (.tokString cs) body) (hln : body.length < 2147483648) : StringText body cs := by
  generalize ht : Token.tokString cs = token at h
  cases h with
  | @string text decoded h =>
    have hch := Token.tokString.inj ht
    rw [hch]
    obtain @⟨inner, decoded, hi⟩ := h
    have hle := hi.length_le
    rw [length_append, length_cons] at hln
    rw [tokenCharacters_eq (by omega)]
    exact .intro hi
  | _ => cases ht

theorem Lexer.At.string {lexer : Lexer} {text cs : List UInt16} (h : lexer.At text)
    (ht : lexer.currentToken = .tokString cs) (hl : text.length < 2147483648) :
    ∃ blank body, text = blank ++ (body ++ lexer.ptr) ∧ IsWhiteSpace blank ∧
      StringText body cs := by
  obtain ⟨blank, body, htx, hbl, hlx⟩ := h.lexeme ht rfl rfl
  refine ⟨blank, body, htx, hbl, stringText_of_lexeme hlx ?_⟩
  simp only [htx, length_append] at hl
  omega

/-! ### The end of a value -/

/-- The machine has read a value: it is at the rest of the text, with the given stacks. -/
structure Done (objectStack : List JSValue) (stateStack : List ParserState)
    (identifierStack : List (List UInt16)) (m : Machine) (value : JSValue)
    (rest : List UInt16) : Prop where
  lexer : m.lexer.At rest
  lastValue : m.lastValue = some value
  objectStack : m.objectStack = objectStack
  stateStack : m.stateStack = stateStack
  identifierStack : m.identifierStack = identifierStack

theorem Done.finish_breaks {objectStack st stateStack identifierStack} {m : Machine}
    {value rest} (h : Done objectStack (st :: stateStack) identifierStack m value rest) :
    m.breaks.finish = parse { m with state := st, stateStack := stateStack } := by
  rw [Machine.breaks, h.stateStack]
  rfl

theorem fail_finish_ne {m final : Machine} {message value} :
    (m.fail message).finish ≠ (final, some value) := by
  intro h
  cases h

section

variable {final : Machine} {res value : JSValue}

variable {m : Machine} {text : List UInt16}

/-- The end of an element or member: a comma leads to the next one, the closing
bracket or brace ends the array or object on top of the stack. -/
theorem end_sound {st} {close : Token} {c message object objectStack}
    {stateStack identifierStack rest}
    (h : (if m.lexer.currentToken = .tokComma then Outcome.goto { m with state := st }
      else if m.lexer.currentToken ≠ close then m.fail message
      else m.next.popObject.breaks).finish = (final, some res))
    (hdn : Done (object :: objectStack) stateStack identifierStack m value rest)
    (hcl : close.character = some c) :
    (∃ after m', rest = after ++ comma :: m'.lexer.ptr ∧ IsWhiteSpace after ∧ m'.state = st ∧
      m'.lexer.currentToken = .tokComma ∧ m'.objectStack = object :: objectStack ∧ m'.stateStack =
      stateStack ∧ m'.identifierStack = identifierStack ∧ parse m' = (final, some res)) ∨
    ∃ after rest' m', rest = after ++ c :: rest' ∧ IsWhiteSpace after ∧
      Done objectStack stateStack identifierStack m' object rest' ∧
      m'.breaks.finish = (final, some res) := by
  split_ifs at h with hcm ht
  · obtain ⟨after, hr, ha⟩ := hdn.lexer.character hcm rfl
    exact .inl ⟨after, { m with state := st }, hr, ha, rfl, hcm, hdn.objectStack,
      hdn.stateStack, hdn.identifierStack, h⟩
  · exact absurd h fail_finish_ne
  · obtain ⟨after, hr, ha⟩ := hdn.lexer.character (not_not.mp ht) hcl
    refine .inr ⟨after, m.lexer.ptr, m.next.popObject, hr, ha,
      ⟨m.lexer.next_at, ?_, ?_, hdn.stateStack, hdn.identifierStack⟩, h⟩
    · change m.objectStack.head? = _
      rw [hdn.objectStack]
      rfl
    · change m.objectStack.tail = _
      rw [hdn.objectStack]
      rfl

/-- The run has read a value at the front of the text, and goes on behind it. -/
def ReadsValue (final : Machine) (result : JSValue) (m : Machine) (text : List UInt16) : Prop :=
  ∃ blank body rest value m', text = blank ++ (body ++ rest) ∧ IsWhiteSpace blank ∧
    Derives (.value value) body ∧
    Done m.objectStack m.stateStack m.identifierStack m' value rest ∧
    m'.breaks.finish = (final, some result)

/-- Every run from the start of a value in a text of at most `n` characters has read it. -/
def ValueSound (final : Machine) (result : JSValue) (n : Nat) : Prop :=
  ∀ (m : Machine) (text : List UInt16), text.length ≤ n → m.state = .startParseExpression →
    m.lexer.At text → parse m = (final, some result) →
    ReadsValue final result m text

/-- What a run from the start of an element has read: the elements up to the
bracket, or a bracket at once if no comma came before. -/
theorem array_sound {n} (hv : ValueSound final res n) {elements objectStack} (hn : text.length ≤ n)
    (hs : m.state = .doParseArrayStartExpression) (hp : m.lexer.ptr = text)
    (hsk : m.objectStack = JSValue.array elements :: objectStack)
    (h : parse m = (final, some res)) :
    ∃ values body rest m', text = body ++ rightBracket :: rest ∧
      (Derives (.elements values) body ∨
        values = [] ∧ IsWhiteSpace body ∧ m.lexer.currentToken ≠ .tokComma) ∧
      Done objectStack m.stateStack m.identifierStack m' (.array (elements ++ values)) rest ∧
      m'.breaks.finish = (final, some res) := by
  induction hln : text.length using Nat.strong_induction_on generalizing m text elements with
  | _ k ih =>
  subst hln
  have hat := hp ▸ m.lexer.next_at
  rw [parse_eq, Machine.step, hs] at h
  simp only [Machine.doParseArrayStartExpression] at h
  split_ifs at h with hbk hcm
  · exact absurd h fail_finish_ne
  · obtain ⟨blank, htx, hbl⟩ :=
      hat.character (currentToken_of_returned hbk (by decide)) rfl
    refine ⟨[], blank, m.next.lexer.ptr, m.next.next.popObject, htx,
      .inr ⟨rfl, hbl, hcm⟩, ⟨m.next.lexer.next_at, ?_, ?_, rfl, rfl⟩, h⟩
    · rw [append_nil]
      change m.objectStack.head? = _
      rw [hsk]
      rfl
    · change m.objectStack.tail = _
      rw [hsk]
      rfl
  · obtain ⟨blank, body, rest, value, m₁, htx, hbl, hd, hdn, hu⟩ :=
      hv (m.next.pushState .doParseArrayEndExpression .startParseExpression) text hn rfl hat h
    have hel : ∀ after, IsWhiteSpace after →
        Derives (.element value) (blank ++ (body ++ after)) :=
      fun after ha => .element hbl hd ha
    have he : Done (.array (elements ++ [value]) :: objectStack) m.stateStack
        m.identifierStack ({ m₁ with
          state := .doParseArrayEndExpression
          stateStack := m.stateStack }.updateObject (Machine.appendElement m₁.lastValue))
        value rest := by
      refine ⟨hdn.lexer, hdn.lastValue, ?_, rfl, hdn.identifierStack⟩
      change modifyHead _ m₁.objectStack = _
      rw [hdn.objectStack, hdn.lastValue]
      change modifyHead _ m.objectStack = _
      rw [hsk]
      rfl
    rw [hdn.finish_breaks, parse_eq] at hu
    rcases end_sound hu he rfl with
      ⟨after, m₂, hr, ha, hs₂, hcm₂, hob, hss, hid, hu⟩ |
      ⟨after, rest', m', hr, ha, hdn', hu⟩
    · have hsh : m₂.lexer.ptr.length < text.length := by
        simp only [htx, hr, length_append, length_cons]
        omega
      obtain ⟨values, body', rest', m', htx', hvl, hdn', hu'⟩ :=
        ih _ hsh (le_trans hsh.le hn) hs₂ rfl hob hu rfl
      rw [append_assoc, singleton_append, hss, hid] at hdn'
      have hmr := hvl.resolve_right fun h => h.2.2 hcm₂
      refine ⟨value :: values, blank ++ (body ++ after) ++ comma :: body', rest', m', ?_,
        .inl (.elements (hel after ha) hmr), hdn', hu'⟩
      rw [htx, hr, htx']
      simp
    · refine ⟨[value], blank ++ (body ++ after), rest', m', ?_,
        .inl (.lastElement (hel after ha)), hdn', hu⟩
      rw [htx, hr]
      simp

/-- Writes members into an object, one after the other. -/
def putMembers (object : JSValue) (members : List (List UInt16 × JSValue)) : JSValue :=
  members.foldl (fun object member => object.put member.1 member.2) object

theorem putMember_eq {key identifierStack}
    {value} (hid : m.identifierStack = key :: identifierStack) (hv : m.lastValue = some value) :
    m.putMember = { m.updateObject (·.put key value) with identifierStack := identifierStack } := by
  simp only [Machine.putMember, hid, hv]

/-- The value that was read becomes a member of the object it stands in. -/
theorem Done.putMember {objects states key identifierStack value rest object objectStack}
    (h : Done objects states (key :: identifierStack) m value rest)
    (hsk : objects = object :: objectStack) (stateStack : List ParserState) :
    Done (object.put key value :: objectStack) stateStack identifierStack
      ({ m with
        state := .doParseObjectEndExpression
        stateStack := stateStack } : Machine).putMember value rest := by
  rw [putMember_eq (m := { m with
    state := .doParseObjectEndExpression
    stateStack := stateStack }) h.identifierStack h.lastValue]
  refine ⟨h.lexer, h.lastValue, ?_, rfl, rfl⟩
  change modifyHead _ m.objectStack = _
  rw [h.objectStack, hsk]
  rfl

/-- After a comma a member has to follow. -/
theorem objectStart_sound (hs : m.state = .doParseObjectStartExpression)
    (h : parse m = (final, some res)) :
    ∃ cs, m.lexer.next.currentToken = .tokString cs ∧
      (m.next.parseMember cs "Expected ':'").finish = (final, some res) := by
  rw [parse_eq, Machine.step, hs] at h
  simp only [Machine.doParseObjectStartExpression] at h
  split at h
  · next cs ht =>
    exact ⟨cs, currentToken_of_returned ht (by simp), h⟩
  · exact absurd h fail_finish_ne

/-- What a run has read behind the name of a member. -/
theorem member_sound {n} (hl : n < 2147483648) (hv : ValueSound final res n)
    {key message object objectStack} (hn : text.length ≤ n) (hp : m.lexer.ptr = text)
    (hsk : m.objectStack = object :: objectStack)
    (h : (m.parseMember key message).finish = (final, some res)) :
    ∃ members body rest m', text = body ++ rightBrace :: rest ∧
      (∀ pre name, IsWhiteSpace pre → StringText name key →
        Derives (.members members) (pre ++ (name ++ body))) ∧
      Done objectStack m.stateStack m.identifierStack m' (putMembers object members) rest ∧
      m'.breaks.finish = (final, some res) := by
  induction hln : text.length using Nat.strong_induction_on
    generalizing m text key message object with
  | _ k ih =>
  subst hln
  have hat : m.next.lexer.At text := hp ▸ m.lexer.next_at
  simp only [Machine.parseMember] at h
  split_ifs at h with hcn
  · exact absurd h fail_finish_ne
  · obtain ⟨between, htx, hbt⟩ :=
      hat.character (currentToken_of_returned (not_not.mp hcn) (by decide)) rfl
    have haf : m.next.lexer.ptr.length < text.length := by
      rw [htx, length_append, length_cons]
      omega
    obtain ⟨blank, body, rest, value, m₁, htx₁, hbl, hd, hdn, hu⟩ :=
      hv _ m.next.lexer.ptr (le_trans haf.le hn) rfl m.next.lexer.next_at h
    have hel : ∀ after, IsWhiteSpace after →
        Derives (.element value) (blank ++ (body ++ after)) :=
      fun after ha => .element hbl hd ha
    rw [hdn.finish_breaks, parse_eq] at hu
    rcases end_sound hu (hdn.putMember hsk m.stateStack) rfl with
      ⟨after, m₂, hr, ha, hs₂, hcm₂, hob, hss, hid, hu⟩ |
      ⟨after, rest', m', hr, ha, hdn', hu⟩
    · obtain ⟨cs, ht, hu⟩ := objectStart_sound hs₂ hu
      have hsh : m₂.lexer.ptr.length < text.length := by
        simp only [htx, htx₁, hr, length_append, length_cons]
        omega
      obtain ⟨pre, name, htx₂, hb, hnm⟩ :=
        m₂.lexer.next_at.string ht (by omega)
      have hsr := (m₂.next_length).1
      have hob' : m₂.next.objectStack = object.put key value :: objectStack := hob
      obtain ⟨members, body', rest', m', htx', hm, hdn', hu'⟩ :=
        ih _ (lt_of_le_of_lt hsr hsh) (by omega) rfl hob' hu rfl
      change Done _ m₂.stateStack m₂.identifierStack _ _ _ at hdn'
      rw [hss, hid] at hdn'
      refine ⟨(key, value) :: members, between ++ colon :: (blank ++ (body ++ after) ++ comma ::
        (pre ++ (name ++ body'))), rest', m', ?_, ?_, hdn', hu'⟩
      · rw [htx, htx₁, hr, htx₂]
        change _ ++ colon :: (_ ++ (_ ++ (_ ++ comma :: (_ ++ (_ ++ m₂.next.lexer.ptr))))) = _
        rw [htx']
        simp
      · intro pre' name' hb' hnm'
        exact .members hb' hnm' hbt (hel after ha)
          (hm pre name hb hnm)
    · refine ⟨[(key, value)], between ++ colon :: (blank ++ (body ++ after)), rest', m', ?_, ?_,
        hdn', hu⟩
      · rw [htx, htx₁, hr]
        simp
      · intro pre name hb hnm
        exact .lastMember hb hnm hbt (hel after ha)

/-- The members written into an object are found in it, the last one of a name first. -/
theorem get_putMembers (members : List (List UInt16 × JSValue)) (indexed : List (Nat × JSValue))
    (named : List (List UInt16 × JSValue)) :
    ∃ indexed' named', putMembers (.object indexed named) members = .object indexed' named' ∧
      ∀ key, (JSValue.object indexed' named').get key =
        (lastValue members key).or ((JSValue.object indexed named).get key) := by
  induction members generalizing indexed named with
  | nil => exact ⟨indexed, named, rfl, fun key => by simp [lastValue]⟩
  | cons member members ih =>
    obtain ⟨name, value⟩ := member
    obtain ⟨indexed₁, named₁, hpt⟩ := put_object indexed named name value
    obtain ⟨indexed', named', hm, hg⟩ := ih indexed₁ named₁
    refine ⟨indexed', named', ?_, ?_⟩
    · rw [← hm, ← hpt]
      rfl
    · intro key
      rw [hg, ← hpt, get_put, lastValue, Option.or_assoc]
      by_cases hky : key = name
      · rw [if_pos hky, if_pos hky.symm]
        rfl
      · rw [if_neg hky, if_neg (Ne.symm hky)]
        rfl

/-- A value that is one token. -/
theorem literal_sound {token : Token} (hat : m.lexer.At text) (ht : m.lexer.currentToken = token)
    (hf : token.isForeign = false) (hsc : token.isStuck = false)
    (hd : ∀ body, Lexeme token body → body.length ≤ text.length →
      Derives (.value value) body) (h : (m.literal value).finish = (final, some res)) :
    ReadsValue final res m text := by
  obtain ⟨blank, body, htx, hbl, hlx⟩ := hat.lexeme ht hf hsc
  have hln : body.length ≤ text.length := by
    simp only [htx, length_append]
    omega
  exact ⟨blank, body, m.lexer.ptr, value, { m.next with lastValue := some value }, htx, hbl,
    hd body hlx hln, ⟨m.lexer.next_at, rfl, rfl, rfl, rfl⟩, h⟩

/-- What a run has read from an opening bracket on. -/
theorem arrayValue_sound {n} (ih : ∀ k < n, ValueSound final res k) (hn : text.length ≤ n)
    (hat : m.lexer.At text) (ht : m.lexer.currentToken = .tokLBracket)
    (h : parse { m with state := .startParseArray } = (final, some res)) :
    ReadsValue final res m text := by
  obtain ⟨blank, htx, hbl⟩ := hat.character ht rfl
  have hsh : m.lexer.ptr.length < n := by
    rw [htx, length_append, length_cons] at hn
    omega
  rw [parse_eq] at h
  obtain ⟨values, body, rest, m', hp, hvl, hdn, hu⟩ :=
    array_sound (m := { m with
      state := .doParseArrayStartExpression
      objectStack := .array [] :: m.objectStack }) (ih _ hsh) le_rfl rfl rfl rfl h
  refine ⟨blank, leftBracket :: (body ++ [rightBracket]), rest, .array values, m', ?_, hbl, ?_,
    hdn, hu⟩
  · rw [htx, hp]
    simp
  · rcases hvl with hvl | ⟨rfl, hbd, _⟩
    · exact .array hvl
    · exact .emptyArray hbd

/-- What a run has read from an opening brace on. -/
theorem objectValue_sound {n} (hl : n < 2147483648)
    (ih : ∀ k < n, ValueSound final res k) (hn : text.length ≤ n) (hat : m.lexer.At text)
    (ht : m.lexer.currentToken = .tokLBrace)
    (h : parse { m with state := .startParseObject } = (final, some res)) :
    ReadsValue final res m text := by
  obtain ⟨blank, htx, hbl⟩ := hat.character ht rfl
  have hsh : m.lexer.ptr.length < n := by
    rw [htx, length_append, length_cons] at hn
    omega
  have hat' := m.lexer.next_at
  rw [parse_eq] at h
  change (Machine.startParseObject _).finish = _ at h
  simp only [Machine.startParseObject] at h
  split at h
  · next cs hstr =>
    obtain ⟨pre, name, hp, hb, hnm⟩ :=
      hat'.string (currentToken_of_returned hstr (by simp)) (by omega)
    have hle : m.lexer.next.ptr.length ≤ m.lexer.ptr.length := m.next_length.1
    obtain ⟨members, body, rest, m', hr, hm, hdn, hu⟩ :=
      member_sound (lt_trans hsh hl) (ih _ hsh) hle rfl rfl h
    change m.lexer.next.ptr = _ at hr
    obtain ⟨indexed, named, hoj, hg⟩ := get_putMembers members [] []
    rw [hoj] at hdn
    refine ⟨blank, leftBrace :: (pre ++ (name ++ body) ++ [rightBrace]), rest, .object indexed
      named, m', ?_, hbl, .object (hm pre name hb hnm) ?_, hdn, hu⟩
    · rw [htx, hp, hr]
      simp
    · intro key
      rw [hg]
      have hem : (JSValue.object [] []).get key = none := by
        simp only [JSValue.get]
        split <;> rfl
      rw [hem, or_none]
  · next hbr =>
    obtain ⟨inner, hp, hi⟩ :=
      hat'.character (currentToken_of_returned hbr (by decide)) rfl
    refine ⟨blank, leftBrace :: (inner ++ [rightBrace]), m.lexer.next.ptr, .object [] [], { m with
        state := .startParseObject
        objectStack := .object [] [] :: m.objectStack }.next.next.popObject, ?_, hbl,
      .emptyObject hi, ⟨m.lexer.next.next_at, rfl, rfl, rfl, rfl⟩, h⟩
    rw [htx, hp]
    simp
  · exact absurd h fail_finish_ne

theorem valueSound_step {n} (hl : n < 2147483648)
    (ih : ∀ k < n, ValueSound final res k) : ValueSound final res n := by
  intro m text hn hs hat h
  rw [parse_eq, Machine.step, hs] at h
  simp only [Machine.startParseExpression] at h
  cases ht : m.lexer.currentToken with
  | tokLBracket =>
    rw [ht] at h
    exact arrayValue_sound ih hn hat ht h
  | tokLBrace =>
    rw [ht] at h
    exact objectValue_sound hl ih hn hat ht h
  | tokString cs =>
    rw [ht] at h
    apply literal_sound hat ht rfl rfl _ h
    intro body hlx hln
    exact .string (stringText_of_lexeme hlx (by omega))
  | tokNumber number =>
    rw [ht] at h
    apply literal_sound hat ht rfl rfl _ h
    intro body hlx _
    cases hlx with
    | number hnu => exact .number hnu
  | tokNull =>
    rw [ht] at h
    apply literal_sound hat ht rfl rfl _ h
    intro body hlx _
    cases hlx
    exact .null
  | tokTrue =>
    rw [ht] at h
    apply literal_sound hat ht rfl rfl _ h
    intro body hlx _
    cases hlx
    exact .true
  | tokFalse =>
    rw [ht] at h
    apply literal_sound hat ht rfl rfl _ h
    intro body hlx _
    cases hlx
    exact .false
  | _ =>
    rw [ht] at h
    exact absurd h fail_finish_ne

theorem valueSound {n} (hl : n < 2147483648) : ValueSound final res n := by
  induction n using Nat.strong_induction_on with
  | _ n ih =>
  exact valueSound_step hl fun k hk => ih k hk (lt_trans hk hl)

end

/-! ### Whole texts -/

/-- A call of `parse` that returns a value has read one, with white space before
it, and has emptied its stacks. -/
theorem parseSource_sound {src : SourceText} (hl : src.units.length < 2147483648)
    {final : Machine} {res} (h : parseSource src = (final, some res)) :
    ∃ blank body rest, src.units = blank ++ (body ++ rest) ∧ IsWhiteSpace blank ∧
      Derives (.value res) body ∧ final.lexer.At rest ∧ final.stateStack = [] ∧
      final.objectStack = [] ∧ final.identifierStack = [] := by
  obtain ⟨blank, body, rest, value, m', htx, hbl, hd, hdn, hu⟩ :=
    valueSound hl _ _ le_rfl rfl (Lexer.next_at { ptr := src.units }) h
  rw [Machine.breaks, hdn.stateStack] at hu
  obtain ⟨rfl, hrs⟩ := Prod.mk.inj hu
  rw [hdn.lastValue] at hrs
  obtain rfl := some.inj hrs
  exact ⟨blank, body, rest, htx, hbl, hd, hdn.lexer, hdn.stateStack,
    hdn.objectStack, hdn.identifierStack⟩

end QtWebKit.JSON
