import QtWebKit.JSON.JSValue

/-!
# The JSON grammar

The grammar of JSON texts over UTF-16 code units, together with the value each
text denotes. A number denotes the decimal it is written as, a string its code
units with the escapes decoded, an array its elements in order, and an object
the last of the values written for each key.
-/

namespace QtWebKit.JSON

/-! ### Characters -/

def quotationMark : UInt16 := 0x22
def backslash : UInt16 := 0x5C
def leftBracket : UInt16 := 0x5B
def rightBracket : UInt16 := 0x5D
def leftBrace : UInt16 := 0x7B
def rightBrace : UInt16 := 0x7D
def comma : UInt16 := 0x2C
def colon : UInt16 := 0x3A
def semicolon : UInt16 := 0x3B
def minus : UInt16 := 0x2D
def plus : UInt16 := 0x2B
def point : UInt16 := 0x2E

def isJSONWhiteSpace (c : UInt16) : Bool := c == 0x20 || c == 0x9 || c == 0xA || c == 0xD

/-! ### Numbers -/

/-- A zero, or digits that do not start with one. -/
inductive IntegerText : List UInt16 → Prop
  | zero : IntegerText [0x30]
  | digits {first : UInt16} {rest : List UInt16} (hfirst : isASCIIDigit first = true)
      (hzero : first ≠ 0x30) (hrest : IsDigits rest) : IntegerText (first :: rest)

/-- A fraction with its digits. -/
inductive FractionText : List UInt16 → List UInt16 → Prop
  | none : FractionText [] []
  | some {digits : List UInt16} (h : IsDigits digits) (hne : digits ≠ []) :
      FractionText (point :: digits) digits

/-- The sign of an exponent with the number it is written for. -/
inductive SignText : List UInt16 → Bool → Prop
  | none : SignText [] false
  | plus : SignText [plus] false
  | minus : SignText [minus] true

inductive ExponentText : List UInt16 → Int → Prop
  | none : ExponentText [] 0
  | some {e : UInt16} {sign digits : List UInt16} {negative : Bool} (he : e = 0x65 ∨ e = 0x45)
      (hsign : SignText sign negative) (h : IsDigits digits) (hne : digits ≠ []) :
      ExponentText (e :: sign ++ digits)
        (if negative then -(digitsValue digits : Int) else digitsValue digits)

inductive NumberText : List UInt16 → Decimal → Prop
  | intro {sign integer fraction fractionDigits exponent : List UInt16} {power : Int}
      (hsign : sign = [] ∨ sign = [minus]) (hinteger : IntegerText integer)
      (hfraction : FractionText fraction fractionDigits) (hexponent : ExponentText exponent power) :
      NumberText (sign ++ (integer ++ (fraction ++ exponent)))
        ⟨!sign.isEmpty, digitsValue (integer ++ fractionDigits), power - fractionDigits.length⟩

/-! ### Strings -/

def isHexDigit (c : UInt16) : Bool :=
  isASCIIDigit c || (c ≥ 0x41 && c ≤ 0x46) || (c ≥ 0x61 && c ≤ 0x66)

def hexValue (c : UInt16) : Nat :=
  if isASCIIDigit c then c.toNat - 0x30 else if c ≤ 0x46 then c.toNat - 0x37 else c.toNat - 0x57

/-- The characters that may follow a backslash, and what the two stand for. -/
inductive EscapedCharacter : UInt16 → UInt16 → Prop
  | quotationMark : EscapedCharacter quotationMark quotationMark
  | backslash : EscapedCharacter backslash backslash
  | slash : EscapedCharacter 0x2F 0x2F
  | backspace : EscapedCharacter 0x62 0x08
  | formFeed : EscapedCharacter 0x66 0x0C
  | lineFeed : EscapedCharacter 0x6E 0x0A
  | carriageReturn : EscapedCharacter 0x72 0x0D
  | tab : EscapedCharacter 0x74 0x09

/-- The text between the quotation marks with the code units it stands for. -/
inductive CharactersText : List UInt16 → List UInt16 → Prop
  | nil : CharactersText [] []
  | unescaped {c : UInt16} {text characters : List UInt16} (hcontrol : 0x20 ≤ c)
      (hquotation : c ≠ quotationMark) (hbackslash : c ≠ backslash)
      (tail : CharactersText text characters) : CharactersText (c :: text) (c :: characters)
  | escaped {c decoded : UInt16} {text characters : List UInt16} (h : EscapedCharacter c decoded)
      (tail : CharactersText text characters) :
      CharactersText (backslash :: c :: text) (decoded :: characters)
  | hexadecimal {a b c d : UInt16} {text characters : List UInt16} (ha : isHexDigit a = true)
      (hb : isHexDigit b = true) (hc : isHexDigit c = true) (hd : isHexDigit d = true)
      (tail : CharactersText text characters) :
      CharactersText (backslash :: 0x75 :: a :: b :: c :: d :: text)
        (.ofNat (((hexValue a * 16 + hexValue b) * 16 + hexValue c) * 16 + hexValue d) ::
          characters)

/-- A string with its quotation marks. -/
inductive StringText : List UInt16 → List UInt16 → Prop
  | intro {text characters : List UInt16} (h : CharactersText text characters) :
      StringText (quotationMark :: text ++ [quotationMark]) characters

/-! ### Texts -/

def IsWhiteSpace (text : List UInt16) : Prop := ∀ c ∈ text, isJSONWhiteSpace c = true

/-- The last value written for a key. -/
def lastValue : List (List UInt16 × JSValue) → List UInt16 → Option JSValue
  | [], _ => none
  | (name, value) :: rest, key =>
    (lastValue rest key).or (if name = key then some value else none)

def nullText : List UInt16 := [0x6E, 0x75, 0x6C, 0x6C]
def trueText : List UInt16 := [0x74, 0x72, 0x75, 0x65]
def falseText : List UInt16 := [0x66, 0x61, 0x6C, 0x73, 0x65]

/-- What a piece of text can be read as. An element is a value between white space. -/
inductive Phrase
  | value (value : JSValue)
  | element (value : JSValue)
  | elements (values : List JSValue)
  | members (members : List (List UInt16 × JSValue))

/-- The texts of a phrase. -/
inductive Derives : Phrase → List UInt16 → Prop
  | null : Derives (.value .null) nullText
  | true : Derives (.value (.boolean true)) trueText
  | false : Derives (.value (.boolean false)) falseText
  | number {text : List UInt16} {value : Decimal} (h : NumberText text value) :
      Derives (.value (.number value)) text
  | string {text characters : List UInt16} (h : StringText text characters) :
      Derives (.value (.string characters)) text
  | emptyArray {blank : List UInt16} (hblank : IsWhiteSpace blank) :
      Derives (.value (.array [])) (leftBracket :: (blank ++ [rightBracket]))
  | array {text : List UInt16} {values : List JSValue} (h : Derives (.elements values) text) :
      Derives (.value (.array values)) (leftBracket :: (text ++ [rightBracket]))
  | emptyObject {blank : List UInt16} (hblank : IsWhiteSpace blank) :
      Derives (.value (.object [] [])) (leftBrace :: (blank ++ [rightBrace]))
  | object {text : List UInt16} {members : List (List UInt16 × JSValue)}
      {indexed : List (Nat × JSValue)} {named : List (List UInt16 × JSValue)}
      (h : Derives (.members members) text)
      (hget : ∀ key, (JSValue.object indexed named).get key = lastValue members key) :
      Derives (.value (.object indexed named)) (leftBrace :: (text ++ [rightBrace]))
  | element {before text after : List UInt16} {value : JSValue} (hbefore : IsWhiteSpace before)
      (h : Derives (.value value) text) (hafter : IsWhiteSpace after) :
      Derives (.element value) (before ++ (text ++ after))
  | lastElement {text : List UInt16} {value : JSValue} (h : Derives (.element value) text) :
      Derives (.elements [value]) text
  | elements {text rest : List UInt16} {value : JSValue} {values : List JSValue}
      (h : Derives (.element value) text) (hrest : Derives (.elements values) rest) :
      Derives (.elements (value :: values)) (text ++ comma :: rest)
  | lastMember {before name between text key : List UInt16} {value : JSValue}
      (hbefore : IsWhiteSpace before) (hname : StringText name key)
      (hbetween : IsWhiteSpace between) (h : Derives (.element value) text) :
      Derives (.members [(key, value)]) (before ++ (name ++ (between ++ colon :: text)))
  | members {before name between text rest key : List UInt16} {value : JSValue}
      {members : List (List UInt16 × JSValue)} (hbefore : IsWhiteSpace before)
      (hname : StringText name key) (hbetween : IsWhiteSpace between)
      (h : Derives (.element value) text) (hrest : Derives (.members members) rest) :
      Derives (.members ((key, value) :: members))
        (before ++ (name ++ (between ++ colon :: (text ++ comma :: rest))))

/-- A JSON text: one value between white space. -/
def JSONText (text : List UInt16) (value : JSValue) : Prop := Derives (.element value) text

end QtWebKit.JSON
