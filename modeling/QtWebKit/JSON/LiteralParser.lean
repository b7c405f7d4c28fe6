import QtWebKit.JSON.Lexemes

/-!
# The literal parser

`LiteralParser::parse` in the strict mode: a machine that keeps the arrays and
objects under construction, the names of the members it is reading and the
states it will go on in on three stacks. One step is one block of the source
between two labels; a block ends in a jump to another one, in a `break`, which
takes the next state from the stack, or in a return.

## Implementation notes

The states for statements are entered from the other modes only and are left
out. The object stack holds the values themselves: an array or object is
changed only while it is on top, and nothing refers to it before it is popped.
-/

namespace QtWebKit.JSON

inductive ParserState
  | startParseObject
  | startParseArray
  | startParseExpression
  | doParseObjectStartExpression
  | doParseObjectEndExpression
  | doParseArrayStartExpression
  | doParseArrayEndExpression
  deriving DecidableEq, Repr

/-- The lexer and the local variables of `parse`, with the last element of a stack first. -/
structure Machine where
  lexer : Lexer
  state : ParserState := .startParseExpression
  objectStack : List JSValue := []
  lastValue : Option JSValue := none
  stateStack : List ParserState := []
  identifierStack : List (List UInt16) := []
  parseErrorMessage : String := ""

/-- How a block ends. -/
inductive Outcome
  | goto (machine : Machine)
  | returns (machine : Machine) (result : Option JSValue)

namespace Machine

variable (m : Machine)

def next : Machine := { m with lexer := m.lexer.next }

/-- Returns the empty value after setting the error message. -/
def fail (message : String) : Outcome :=
  .returns { m with parseErrorMessage := message } none

/-- `break`: back to the head of the loop with the state on top of the stack. -/
def breaks : Outcome :=
  match m.stateStack with
  | [] => .returns m m.lastValue
  | state :: stateStack => .goto { m with state := state, stateStack := stateStack }

/-- The array or object on top of the stack is complete. -/
def popObject : Machine :=
  { m with lastValue := m.objectStack.head?, objectStack := m.objectStack.tail }

def pushState (after state : ParserState) : Machine :=
  { m with state := state, stateStack := after :: m.stateStack }

/-- Replaces the array or object on top of the stack. -/
def updateObject (f : JSValue → JSValue) : Machine :=
  { m with objectStack := m.objectStack.modifyHead f }

/-- `putDirectIndex` at the length of an array. -/
def appendElement (value : Option JSValue) : JSValue → JSValue
  | .array elements => .array (elements ++ value.toList)
  | other => other

/-- Reads the colon after a name and goes on to the value of the member. -/
def parseMember (characters : List UInt16) (message : String) : Outcome :=
  let m := m.next
  if m.lexer.returnedToken ≠ .tokColon then m.fail message
  else
    let m := m.next
    .goto ({ m with identifierStack := characters :: m.identifierStack }.pushState
      .doParseObjectEndExpression .startParseExpression)

/-- The end of a value that is one token. -/
def literal (value : JSValue) : Outcome :=
  { m.next with lastValue := some value }.breaks

def startParseExpression : Outcome :=
  match m.lexer.currentToken with
  | .tokLBracket => .goto { m with state := .startParseArray }
  | .tokLBrace => .goto { m with state := .startParseObject }
  | .tokString characters => m.literal (.string characters)
  | .tokNumber value => m.literal (.number value)
  | .tokNull => m.literal .null
  | .tokTrue => m.literal (.boolean true)
  | .tokFalse => m.literal (.boolean false)
  | .tokRBracket => m.fail "Unexpected token ']'"
  | .tokRBrace => m.fail "Unexpected token '\x7d'"
  | .tokIdentifier characters => m.fail ("Unexpected identifier \"" ++ ascii characters ++ "\"")
  | .tokColon => m.fail "Unexpected token ':'"
  | .tokLParen => m.fail "Unexpected token '('"
  | .tokRParen => m.fail "Unexpected token ')'"
  | .tokComma => m.fail "Unexpected token ','"
  | .tokDot => m.fail "Unexpected token '.'"
  | .tokAssign => m.fail "Unexpected token '='"
  | .tokSemi => m.fail "Unexpected token ';'"
  | .tokEnd => m.fail "Unexpected EOF"
  | .tokError => m.fail "Could not parse value expression"

def startParseArray : Outcome :=
  .goto { m with state := .doParseArrayStartExpression, objectStack := .array [] :: m.objectStack }

def doParseArrayStartExpression : Outcome :=
  let lastToken := m.lexer.currentToken
  let m := m.next
  if m.lexer.returnedToken = .tokRBracket then
    if lastToken = .tokComma then m.fail "Unexpected comma at the end of array expression"
    else m.next.popObject.breaks
  else .goto (m.pushState .doParseArrayEndExpression .startParseExpression)

def doParseArrayEndExpression : Outcome :=
  let m := m.updateObject (appendElement m.lastValue)
  if m.lexer.currentToken = .tokComma then .goto { m with state := .doParseArrayStartExpression }
  else if m.lexer.currentToken ≠ .tokRBracket then m.fail "Expected ']'"
  else m.next.popObject.breaks

def startParseObject : Outcome :=
  let m := { m with objectStack := .object [] [] :: m.objectStack }.next
  match m.lexer.returnedToken with
  | .tokString characters =>
    m.parseMember characters "Expected ':' before value in object property definition"
  | .tokRBrace => m.next.popObject.breaks
  | _ => m.fail "Expected '\x7d'"

def doParseObjectStartExpression : Outcome :=
  let m := m.next
  match m.lexer.returnedToken with
  | .tokString characters => m.parseMember characters "Expected ':'"
  | _ => m.fail "Property name must be a string literal"

/-- Writes the member whose name is on top of the stack and removes the name. -/
def putMember : Machine :=
  match m.identifierStack, m.lastValue with
  | key :: identifierStack, some value =>
    { m.updateObject (·.put key value) with identifierStack := identifierStack }
  | _, _ => m

def doParseObjectEndExpression : Outcome :=
  let m := m.putMember
  if m.lexer.currentToken = .tokComma then .goto { m with state := .doParseObjectStartExpression }
  else if m.lexer.currentToken ≠ .tokRBrace then m.fail "Expected '\x7d'"
  else m.next.popObject.breaks

def step : Outcome :=
  match m.state with
  | .startParseObject => m.startParseObject
  | .startParseArray => m.startParseArray
  | .startParseExpression => m.startParseExpression
  | .doParseObjectStartExpression => m.doParseObjectStartExpression
  | .doParseObjectEndExpression => m.doParseObjectEndExpression
  | .doParseArrayStartExpression => m.doParseArrayStartExpression
  | .doParseArrayEndExpression => m.doParseArrayEndExpression

/-! ### Termination -/

/-- How far a state is from the next call of the lexer that has to read something. -/
def rank : Nat :=
  match m.state with
  | .startParseExpression | .doParseArrayEndExpression | .doParseObjectEndExpression =>
    if m.lexer.currentToken.isStuck then 0 else 4
  | .startParseArray | .startParseObject => 2
  | .doParseArrayStartExpression | .doParseObjectStartExpression => 1

/-- What every step makes smaller. -/
def weight : Nat := 5 * m.lexer.ptr.length + m.rank

/-- The machine that an outcome goes on with, if any, is below a bound. -/
def Below (bound : Nat) : Outcome → Prop
  | .goto m => m.weight < bound
  | .returns _ _ => True

theorem next_length :
    m.next.lexer.ptr.length ≤ m.lexer.ptr.length ∧
      (m.next.lexer.currentToken.isStuck = true ∨ m.next.lexer.ptr.length < m.lexer.ptr.length) :=
  lex_ptr_length m.lexer.ptr

variable {m}

/-- A call that returned a certain type has read that token. -/
theorem next_length_of_returned {token : Token}
    (h : m.next.lexer.returnedToken = token) (ht : token.isStuck = false) :
    m.next.lexer.ptr.length < m.lexer.ptr.length := by
  rcases (next_length m).2 with hs | hlt
  · rw [Lexer.returnedToken] at h
    split_ifs at h with hsm
    · rw [hsm] at hs
      cases hs
    · rw [← h, hs] at ht
      cases ht
  · exact hlt

theorem rank_le (m : Machine) : m.rank ≤ if m.lexer.currentToken.isStuck then 2 else 4 := by
  unfold rank
  split <;> split_ifs <;> omega

theorem fail_below (bound : Nat) (m : Machine) (message : String) :
    Below bound (m.fail message) := trivial

theorem breaks_below {bound}
    (h : 5 * m.lexer.ptr.length + (if m.lexer.currentToken.isStuck then 2 else 4) < bound) :
    Below bound m.breaks := by
  unfold breaks
  split
  · trivial
  · next st stateStack _ =>
    have hr := rank_le { m with state := st, stateStack := stateStack }
    exact lt_of_le_of_lt (Nat.add_le_add_left hr _) h

/-- The end of a value uses up the token that the machine was at. -/
theorem next_breaks_below {m' : Machine} (hl : m'.lexer = m.lexer.next)
    (hr : m.rank = 4) : Below m.weight m'.breaks := by
  apply breaks_below
  obtain ⟨hle, hlt⟩ := next_length m
  rw [hl, weight, hr]
  split_ifs with hs
  · have : m.next.lexer.ptr.length = m.lexer.next.ptr.length := rfl
    omega
  · rcases hlt with hlt | hlt
    · exact absurd hlt hs
    · have : m.next.lexer.ptr.length = m.lexer.next.ptr.length := rfl
      omega

/-- Going on to a value after reading something. -/
theorem expression_below {bound} (hst : m.state = .startParseExpression)
    (h : 5 * m.lexer.ptr.length + (if m.lexer.currentToken.isStuck then 0 else 4) < bound) :
    Below bound (.goto m) := by
  change m.weight < bound
  rw [weight, rank, hst]
  exact h

theorem parseMember_below {bound} (h : 5 * m.lexer.ptr.length ≤ bound)
    (cs : List UInt16) (message : String) : Below bound (m.parseMember cs message) := by
  unfold parseMember
  dsimp only
  split_ifs with hcl
  · trivial
  · have hrd := next_length_of_returned (not_not.mp hcl) rfl
    apply expression_below rfl
    have hle := (next_length m.next).1
    change 5 * m.next.next.lexer.ptr.length + _ < bound
    split_ifs <;> omega

theorem startParseExpression_below (hst : m.state = .startParseExpression) :
    Below m.weight m.startParseExpression := by
  have hr : m.lexer.currentToken.isStuck = false → m.rank = 4 := by
    intro h
    rw [rank, hst, h]
    rfl
  have hg : ∀ st, m.lexer.currentToken.isStuck = false →
      ({ m with state := st } : Machine).rank ≤ 2 →
      Below m.weight (.goto { m with state := st }) := by
    intro st hs hle
    change weight _ < weight m
    rw [weight, weight, hr hs]
    change 5 * m.lexer.ptr.length + _ < _
    omega
  unfold startParseExpression
  split
  all_goals rename_i ht
  all_goals first
    | exact fail_below _ _ _
    | exact next_breaks_below rfl (hr (by rw [ht]; rfl))
    | exact hg _ (by rw [ht]; rfl) (le_refl 2)

theorem doParseArrayStartExpression_below (hst : m.state = .doParseArrayStartExpression) :
    Below m.weight m.doParseArrayStartExpression := by
  have hw : m.weight = 5 * m.lexer.ptr.length + 1 := by rw [weight, rank, hst]
  have hnx := next_length m
  unfold doParseArrayStartExpression
  dsimp only
  split_ifs with hbk hc
  · trivial
  · have hrd := next_length_of_returned hbk rfl
    have hle := (next_length m.next).1
    apply breaks_below
    change 5 * m.next.next.lexer.ptr.length + _ < _
    split_ifs <;> omega
  · apply expression_below rfl
    change 5 * m.next.lexer.ptr.length + (if m.next.lexer.currentToken.isStuck then 0 else 4) < _
    split_ifs with hs
    · omega
    · have hrd := hnx.2.resolve_left hs
      omega

theorem startParseObject_below (hst : m.state = .startParseObject) :
    Below m.weight m.startParseObject := by
  have hw : m.weight = 5 * m.lexer.ptr.length + 2 := by rw [weight, rank, hst]
  have hnx := (next_length m).1
  unfold startParseObject
  dsimp only
  split
  · apply parseMember_below
    change 5 * m.next.lexer.ptr.length ≤ _
    omega
  · next hbr =>
    have hrd := next_length_of_returned (m := m) hbr rfl
    have hle := (next_length m.next).1
    apply breaks_below
    change 5 * m.next.next.lexer.ptr.length + _ < _
    split_ifs <;> omega
  · trivial

theorem doParseObjectStartExpression_below (hst : m.state = .doParseObjectStartExpression) :
    Below m.weight m.doParseObjectStartExpression := by
  have hw : m.weight = 5 * m.lexer.ptr.length + 1 := by rw [weight, rank, hst]
  have hnx := (next_length m).1
  unfold doParseObjectStartExpression
  dsimp only
  split
  · apply parseMember_below
    omega
  · trivial

/-- The end of an element or member: a comma leads back to the next one, the
closing bracket or brace ends the value. -/
theorem end_below {m' : Machine} {st} {close : Token} {message} (hl : m'.lexer = m.lexer)
    (hst : m.state = .doParseArrayEndExpression ∨ m.state = .doParseObjectEndExpression)
    (hr : ({ m' with state := st } : Machine).rank = 1) (hcs : close.isStuck = false) :
    Below m.weight (if m'.lexer.currentToken = .tokComma then .goto { m' with state := st }
      else if m'.lexer.currentToken ≠ close then m'.fail message
      else m'.next.popObject.breaks) := by
  have hf : m.lexer.currentToken.isStuck = false → m.rank = 4 := by
    intro h
    rcases hst with hst | hst
    · rw [rank, hst, h]
      rfl
    · rw [rank, hst, h]
      rfl
  split_ifs with hc ht
  · have hm := hf (by rw [← hl, hc]; rfl)
    change weight _ < weight m
    rw [weight, weight, hm, hr]
    change 5 * m'.lexer.ptr.length + 1 < _
    rw [hl]
    omega
  · trivial
  · have hm := hf (by rw [← hl, not_not.mp ht, hcs])
    exact next_breaks_below (by rw [← hl]; rfl) hm

theorem putMember_lexer (m : Machine) : m.putMember.lexer = m.lexer := by
  unfold putMember
  split <;> rfl

theorem step_below (m : Machine) : Below m.weight m.step := by
  unfold step
  cases hst : m.state with
  | startParseObject => exact startParseObject_below hst
  | startParseArray =>
    change weight _ < weight m
    rw [weight, weight, rank, rank, hst]
    change 5 * m.lexer.ptr.length + 1 < 5 * m.lexer.ptr.length + 2
    omega
  | startParseExpression => exact startParseExpression_below hst
  | doParseObjectStartExpression => exact doParseObjectStartExpression_below hst
  | doParseObjectEndExpression => exact end_below (putMember_lexer m) (.inr hst) rfl rfl
  | doParseArrayStartExpression => exact doParseArrayStartExpression_below hst
  | doParseArrayEndExpression => exact end_below rfl (.inl hst) rfl rfl

theorem weight_lt_of_step {m' : Machine} (h : m.step = .goto m') : m'.weight < m.weight := by
  have hb := step_below m
  rw [h] at hb
  exact hb

end Machine

/-! ### The parser -/

/-- The loop of `parse`, with the lexer, the stacks and the message it leaves. -/
def parse (m : Machine) : Machine × Option JSValue :=
  match _h : m.step with
  | .goto m' => parse m'
  | .returns m' result => (m', result)
termination_by m.weight
decreasing_by exact Machine.weight_lt_of_step _h

/-- What the rest of the loop makes of the end of a block. -/
def Outcome.finish : Outcome → Machine × Option JSValue
  | .goto m => parse m
  | .returns m result => (m, result)

theorem parse_eq (m : Machine) : parse m = m.step.finish := by
  rw [parse]
  split
  · next m' h => rw [h, Outcome.finish]
  · next m' res h => rw [h, Outcome.finish]

/-- The characters of a text in one of the two representations of strings. -/
inductive SourceText
  | latin1 (characters : List UInt8)
  | utf16 (characters : List UInt16)

def SourceText.units : SourceText → List UInt16
  | .latin1 characters => characters.map UInt8.toUInt16
  | .utf16 characters => characters

/-- The call of `parse` in `tryLiteralParse`, after the first token is read. -/
def parseSource (source : SourceText) : Machine × Option JSValue :=
  parse { lexer := ({ ptr := source.units } : Lexer).next }

def tryLiteralParse (source : SourceText) : Option JSValue :=
  let (m, result) := parseSource source
  let lexer := if m.lexer.currentToken = .tokSemi then m.lexer.next else m.lexer
  if lexer.currentToken ≠ .tokEnd then none else result

end QtWebKit.JSON
