import QtWebKit.JSON.Grammar

/-!
# The lexer of the literal parser

`Lexer::lex` reads one token from the front of the characters that are left.
Its string routine copies runs of plain characters and decodes escapes between
them; it starts a buffer only when it meets an escape. Its number routine reads
short integers directly and hands every other number to the double parser.

## Implementation notes

A position in the text is the list of the characters from there to the end. The
lexer works on code units: the instance for Latin-1 text reads the same units,
and its tests of a character differ only where no Latin-1 character can be.
-/

namespace QtWebKit.JSON

inductive ParserMode
  | strictJSON
  | nonStrictJSON
  | jsonp
  deriving DecidableEq, Repr

/-- `TokenType` together with what the token carries. -/
inductive Token
  | tokLBracket
  | tokRBracket
  | tokLBrace
  | tokRBrace
  | tokString (characters : List UInt16)
  | tokIdentifier (characters : List UInt16)
  | tokNumber (value : Decimal)
  | tokColon
  | tokLParen
  | tokRParen
  | tokComma
  | tokTrue
  | tokFalse
  | tokNull
  | tokEnd
  | tokDot
  | tokAssign
  | tokSemi
  | tokError
  deriving DecidableEq, Repr

/-- What one call of `lex` leaves: the token, the rest of the text and the error message it set. -/
structure Lexed where
  token : Token
  ptr : List UInt16
  lexErrorMessage : Option String := none
  deriving DecidableEq, Repr

def Lexed.error (ptr : List UInt16) (message : String) : Lexed :=
  ⟨.tokError, ptr, some message⟩

/-- A routine leaves a token in any case. -/
def Lexed.ofExcept : Except Lexed Lexed → Lexed
  | .ok lexed => lexed
  | .error lexed => lexed

/-- The characters from one position up to a later one. -/
def between (start ptr : List UInt16) : List UInt16 := start.take (start.length - ptr.length)

/-! ### Characters -/

def isASCIIAlpha (c : UInt16) : Bool := c ||| 0x20 ≥ 0x61 && c ||| 0x20 ≤ 0x7A

def isASCIIAlphanumeric (c : UInt16) : Bool := isASCIIDigit c || isASCIIAlpha c

def isASCIIHexDigit (c : UInt16) : Bool :=
  isASCIIDigit c || (c ||| 0x20 ≥ 0x61 && c ||| 0x20 ≤ 0x66)

def toASCIIHexValue (c : UInt16) : Nat :=
  if c < 0x41 then c.toNat - 0x30 else (c.toNat - 0x41 + 10) &&& 0xF

def convertHex (c₁ c₂ : UInt16) : Nat := toASCIIHexValue c₁ <<< 4 ||| toASCIIHexValue c₂

def convertUnicode (c₁ c₂ c₃ c₄ : UInt16) : UInt16 :=
  .ofNat (convertHex c₁ c₂ <<< 8 ||| convertHex c₃ c₄)

/-- `String::ascii`, up to the null character at which the formatting of a message stops. -/
def ascii (characters : List UInt16) : String :=
  .ofList ((characters.takeWhile (· ≠ 0)).map fun c =>
    if c < 0x20 || c > 0x7F then '?' else .ofNat c.toNat)

/-- A character in an error message: the format takes its low byte. -/
def formatCharacter (c : UInt16) : String := .ofList [.ofNat (c.toNat % 256)]

/-! ### Strings -/

variable (mode : ParserMode)

def isSafeStringCharacter (terminator c : UInt16) : Bool :=
  (c ≥ 0x20 && (mode == .strictJSON || c ≤ 0xFF) && c != backslash && c != terminator) ||
    (c == 0x9 && mode != .strictJSON)

/-- The four hexadecimal digits after `\u`. An error leaves the position at the `u`. -/
def lexUnicodeEscape (rest : List UInt16) : Except Lexed (UInt16 × List UInt16) :=
  match rest with
  | c₁ :: c₂ :: c₃ :: c₄ :: rest' =>
    if isASCIIHexDigit c₁ && isASCIIHexDigit c₂ && isASCIIHexDigit c₃ && isASCIIHexDigit c₄ then
      .ok (convertUnicode c₁ c₂ c₃ c₄, rest')
    else
      .error (.error (0x75 :: rest)
        ("\"\\" ++ ascii [0x75, c₁, c₂, c₃, c₄] ++ "\" is not a valid unicode escape"))
  | _ => .error (.error (0x75 :: rest) "\\u must be followed by 4 hex digits")

/-- The escape after a backslash: the unit it stands for and the position after it. -/
def lexEscape : List UInt16 → Except Lexed (UInt16 × List UInt16)
  | [] => .error (.error [] "Unterminated string")
  | c :: rest =>
    if c = 0x22 then .ok (0x22, rest)
    else if c = 0x5C then .ok (0x5C, rest)
    else if c = 0x2F then .ok (0x2F, rest)
    else if c = 0x62 then .ok (0x08, rest)
    else if c = 0x66 then .ok (0x0C, rest)
    else if c = 0x6E then .ok (0x0A, rest)
    else if c = 0x72 then .ok (0x0D, rest)
    else if c = 0x74 then .ok (0x09, rest)
    else if c = 0x75 then lexUnicodeEscape rest
    else if c = 0x27 ∧ mode ≠ .strictJSON then .ok (0x27, rest)
    else .error (.error (c :: rest) ("Invalid escape character " ++ formatCharacter c))

/-- One turn of the loop of `lexString`: a run of safe characters and the escape
after it. The result is the buffer and the position. -/
def lexRun (terminator : UInt16) (builder runStart : List UInt16) :
    Except Lexed (List UInt16 × List UInt16) :=
  let run := runStart.takeWhile (isSafeStringCharacter mode terminator)
  let ptr := runStart.dropWhile (isSafeStringCharacter mode terminator)
  let builder := if builder.isEmpty then builder else builder ++ run
  match ptr with
  | c :: rest =>
    if mode ≠ .nonStrictJSON ∧ c = backslash then do
      let builder := if builder.isEmpty ∧ run ≠ [] then run else builder
      let (unit, ptr) ← lexEscape mode rest
      pure (builder ++ [unit], ptr)
    else pure (builder, ptr)
  | [] => pure (builder, ptr)

/-- The loop of `lexString`. The result is the buffer, the start of the last run
and the position; `m_ptr != runStart` says that the turn has moved the position. -/
def lexStringLoop (mode : ParserMode) (terminator : UInt16) (builder runStart : List UInt16) :
    Except Lexed (List UInt16 × List UInt16 × List UInt16) :=
  match lexRun mode terminator builder runStart with
  | .error lexed => .error lexed
  | .ok (builder', ptr) =>
    if mode ≠ .nonStrictJSON ∧ ptr.length < runStart.length ∧ ptr ≠ [] ∧
        ptr.head? ≠ some terminator then
      lexStringLoop mode terminator builder' ptr
    else .ok (builder', runStart, ptr)
termination_by runStart.length

/-- The characters of a token: its length is kept in 31 bits. -/
def tokenCharacters (characters : List UInt16) : List UInt16 :=
  characters.take (characters.length % 2147483648)

/-- `lexString`, from the position after the opening quotation mark. -/
def lexString (terminator : UInt16) (start : List UInt16) : Lexed :=
  match lexStringLoop mode terminator [] start with
  | .error lexed => lexed
  | .ok (builder, runStart, ptr) =>
    match ptr with
    | [] => .error ptr "Unterminated string"
    | c :: rest =>
      if c ≠ terminator then .error ptr "Unterminated string"
      else if builder.isEmpty then ⟨.tokString (tokenCharacters (between runStart ptr)), rest, none⟩
      else ⟨.tokString (tokenCharacters builder), rest, none⟩

/-! ### Numbers -/

def skipDigits (ptr : List UInt16) : List UInt16 := ptr.dropWhile isASCIIDigit

/-- `-?` -/
def skipMinus : List UInt16 → List UInt16
  | [] => []
  | c :: rest => if c = minus then rest else c :: rest

/-- `(0 | [1-9][0-9]*)` -/
def skipInteger : List UInt16 → Except Lexed (List UInt16)
  | [] => .error (.error [] "Invalid number")
  | c :: rest =>
    if c = 0x30 then .ok rest
    else if c ≥ 0x31 && c ≤ 0x39 then .ok (skipDigits rest)
    else .error (.error (c :: rest) "Invalid number")

/-- `[0-9]+` -/
def skipDigitsOrFail (message : String) : List UInt16 → Except Lexed (List UInt16)
  | [] => .error (.error [] message)
  | c :: rest =>
    if isASCIIDigit c then .ok (skipDigits rest) else .error (.error (c :: rest) message)

/-- `[-+]?` -/
def skipSign : List UInt16 → List UInt16
  | [] => []
  | c :: rest => if c = minus ∨ c = plus then rest else c :: rest

/-- `([eE][+-]? [0-9]+)?` -/
def skipExponent : List UInt16 → Except Lexed (List UInt16)
  | [] => .ok []
  | c :: rest =>
    if c = 0x65 ∨ c = 0x45 then
      skipDigitsOrFail
        "Exponent symbols should be followed by an optional '+' or '-' and then by at least one number"
        (skipSign rest)
    else .ok (c :: rest)

/-- The digits of a short integer, with the sign kept for zero. -/
def shortInteger (characters : List UInt16) : Decimal :=
  ⟨characters.head? == some minus, digitsValue (skipMinus characters), 0⟩

/-- The power of ten an exponent is written for. -/
def exponentValue : List UInt16 → Int
  | [] => 0
  | _ :: rest =>
    if rest.head? = some minus then -(digitsValue (skipSign rest) : Int)
    else digitsValue (skipSign rest)

/-- The number that the double parser is given, before it is rounded. -/
def parseDouble (characters : List UInt16) : Decimal :=
  let unsigned := skipMinus characters
  let integer := unsigned.takeWhile isASCIIDigit
  match unsigned.dropWhile isASCIIDigit with
  | [] => ⟨characters.head? == some minus, digitsValue integer, 0⟩
  | c :: rest =>
    if c = point then
      let fraction := rest.takeWhile isASCIIDigit
      ⟨characters.head? == some minus, digitsValue (integer ++ fraction),
        exponentValue (rest.dropWhile isASCIIDigit) - fraction.length⟩
    else ⟨characters.head? == some minus, digitsValue integer, exponentValue (c :: rest)⟩

/-- A number that is not a short integer, from the position after its fraction. -/
def lexExponent (start ptr : List UInt16) : Except Lexed Lexed := do
  let ptr ← skipExponent ptr
  pure ⟨.tokNumber (parseDouble (between start ptr)), ptr, none⟩

/-- The number from the position after its integer part. -/
def lexFraction (start : List UInt16) : List UInt16 → Except Lexed Lexed
  | [] => lexExponent start []
  | c :: rest =>
    if c = point then do
      let ptr ← skipDigitsOrFail "Invalid digits after decimal point" rest
      lexExponent start ptr
    else if c ≠ 0x65 ∧ c ≠ 0x45 ∧ start.length - (c :: rest).length < 10 then
      pure ⟨.tokNumber (shortInteger (between start (c :: rest))), c :: rest, none⟩
    else lexExponent start (c :: rest)

def lexNumber (start : List UInt16) : Except Lexed Lexed := do
  let ptr ← skipInteger (skipMinus start)
  lexFraction start ptr

/-! ### Tokens -/

def isIdentifierPart (c : UInt16) : Bool :=
  isASCIIAlphanumeric c || c == 0x5F || c == 0x24 || c == 0x200C || c == 0x200D

def lexIdentifier (start : List UInt16) : Lexed :=
  ⟨.tokIdentifier (tokenCharacters (start.takeWhile isIdentifierPart)),
    start.dropWhile isIdentifierPart, none⟩

/-- The tokens tried when the first character starts none of the JSON tokens. -/
def lexOther (c : UInt16) (rest : List UInt16) : Lexed :=
  if c = point then ⟨.tokDot, rest, none⟩
  else if c = 0x3D then ⟨.tokAssign, rest, none⟩
  else if c = semicolon then ⟨.tokSemi, rest, none⟩
  else if isASCIIAlpha c || c == 0x5F || c == 0x24 then lexIdentifier (c :: rest)
  else if c = 0x27 then
    if mode = .strictJSON then .error (c :: rest) "Single quotes (') are not allowed in JSON"
    else lexString mode 0x27 rest
  else .error (c :: rest) ("Unrecognized token '" ++ formatCharacter c ++ "'")

/-- `lex` at a character that is not white space. -/
def lexToken (c : UInt16) (rest : List UInt16) : Lexed :=
  if c = leftBracket then ⟨.tokLBracket, rest, none⟩
  else if c = rightBracket then ⟨.tokRBracket, rest, none⟩
  else if c = 0x28 then ⟨.tokLParen, rest, none⟩
  else if c = 0x29 then ⟨.tokRParen, rest, none⟩
  else if c = leftBrace then ⟨.tokLBrace, rest, none⟩
  else if c = rightBrace then ⟨.tokRBrace, rest, none⟩
  else if c = comma then ⟨.tokComma, rest, none⟩
  else if c = colon then ⟨.tokColon, rest, none⟩
  else if c = quotationMark then lexString mode quotationMark rest
  else if trueText.isPrefixOf (c :: rest) then ⟨.tokTrue, (c :: rest).drop 4, none⟩
  else if falseText.isPrefixOf (c :: rest) then ⟨.tokFalse, (c :: rest).drop 5, none⟩
  else if nullText.isPrefixOf (c :: rest) then ⟨.tokNull, (c :: rest).drop 4, none⟩
  else if c = minus ∨ isASCIIDigit c then Lexed.ofExcept (lexNumber (c :: rest))
  else lexOther mode c rest

def lex (ptr : List UInt16) : Lexed :=
  match ptr.dropWhile isJSONWhiteSpace with
  | [] => ⟨.tokEnd, [], none⟩
  | c :: rest => lexToken mode c rest

/-! ### The lexer's state -/

structure Lexer where
  ptr : List UInt16
  currentToken : Token := .tokError
  lexErrorMessage : String := ""
  deriving DecidableEq, Repr

/-- `next()` of a lexer in the strict mode. -/
def Lexer.next (lexer : Lexer) : Lexer :=
  let lexed := lex .strictJSON lexer.ptr
  { ptr := lexed.ptr
    currentToken := lexed.token
    lexErrorMessage := lexed.lexErrorMessage.getD lexer.lexErrorMessage }

/-- The type that the call of `next` returned: for a semicolon it is not the token's. -/
def Lexer.returnedToken (lexer : Lexer) : Token :=
  if lexer.currentToken = .tokSemi then .tokAssign else lexer.currentToken

end QtWebKit.JSON
