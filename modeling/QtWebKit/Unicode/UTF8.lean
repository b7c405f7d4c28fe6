import QtWebKit.Lib.Transcoder
import QtWebKit.Lib.EncodingForms

/-!
# The UTF-8 and UTF-16 converters

`convertUTF8ToUTF16` and `convertUTF16ToUTF8` read from a source range and
write into a target range. Both are loops over one character at a time that
stop with a `ConversionResult` and report how far the two pointers came.

## Implementation notes

A call takes the source that is left and the room that is left in the target.
Its report holds the source from the final source pointer on and the units that
lie between the initial and the final target pointer. Characters are natural
numbers: a sequence has at most four bytes here, so no 32-bit sum wraps.
-/

namespace QtWebKit.Unicode

open Transcoding

inductive ConversionResult
  | conversionOK
  | sourceExhausted
  | targetExhausted
  | sourceIllegal
  deriving DecidableEq, Repr

def replacementCharacter : Nat := 0xFFFD

/-! ### From UTF-8 to UTF-16 -/

def isASCII (character : UInt8) : Bool := character &&& ~~~0x7F == 0

def inlineUTF8SequenceLengthNonASCII (b0 : UInt8) : Nat :=
  if b0 &&& 0xC0 ≠ 0xC0 then 0
  else if b0 &&& 0xE0 = 0xC0 then 2
  else if b0 &&& 0xF0 = 0xE0 then 3
  else if b0 &&& 0xF8 = 0xF0 then 4
  else 0

def inlineUTF8SequenceLength (b0 : UInt8) : Nat :=
  if isASCII b0 then 1 else inlineUTF8SequenceLengthNonASCII b0

/-- The cases 4 and 3 of the switch in `isLegalUTF8`. -/
def isLegalTrail (a : UInt8) : Bool := !(a < 0x80 || a > 0xBF)

/-- Case 2 of the switch in `isLegalUTF8`, with its inner switch on the lead byte. -/
def isLegalSecond (b0 a : UInt8) : Bool :=
  if a > 0xBF then false
  else if b0 = 0xE0 then !(a < 0xA0)
  else if b0 = 0xED then !(a > 0x9F)
  else if b0 = 0xF0 then !(a < 0x90)
  else if b0 = 0xF4 then !(a > 0x8F)
  else !(a < 0x80)

/-- Case 1 of the switch in `isLegalUTF8` and the test after the switch. -/
def isLegalLead (b0 : UInt8) : Bool := !(b0 ≥ 0x80 && b0 < 0xC2) && !(b0 > 0xF4)

/-- The switch falls through from the last byte to the first. -/
def isLegalUTF8 (source : List UInt8) (length : Nat) : Bool :=
  match length, source with
  | 4, b0 :: b1 :: b2 :: b3 :: _ =>
    isLegalTrail b3 && isLegalTrail b2 && isLegalSecond b0 b1 && isLegalLead b0
  | 3, b0 :: b1 :: b2 :: _ => isLegalTrail b2 && isLegalSecond b0 b1 && isLegalLead b0
  | 2, b0 :: b1 :: _ => isLegalSecond b0 b1 && isLegalLead b0
  | 1, b0 :: _ => isLegalLead b0
  | _, _ => false

def offsetsFromUTF8 : Nat → Nat
  | 0 => 0x00000000
  | 1 => 0x00003080
  | 2 => 0x000E2080
  | 3 => 0x03C82080
  | 4 => 0xFA082080
  | _ => 0x82082080

/-- Add up the first `length` bytes, six bits each, and subtract the marks. -/
def readUTF8Sequence (sequence : List UInt8) (length : Nat) : Nat :=
  (sequence.take length).foldl (fun character byte => (character <<< 6) + byte.toNat) 0 -
    offsetsFromUTF8 (length - 1)

def isBMP (c : Nat) : Bool := c ≤ 0xFFFF

def isSurrogate (c : Nat) : Bool := c &&& 0xFFFFF800 = 0xD800

def isSupplementary (c : Nat) : Bool := 0x10000 ≤ c && c - 0x10000 ≤ 0xFFFFF

def u16Lead (supplementary : Nat) : UInt16 := .ofNat ((supplementary >>> 10) + 0xD7C0)

def u16Trail (supplementary : Nat) : UInt16 := .ofNat ((supplementary &&& 0x3FF) ||| 0xDC00)

/-- The body of the loop of `convertUTF8ToUTF16` at a source `b0 :: tail`. -/
def convertUTF8ToUTF16Step (strict : Bool) (b0 : UInt8) (tail : List UInt8) (room : Nat)
    (orAllData : UInt16) : ConversionResult ⊕ (List UInt16 × List UInt8 × UInt16) :=
  let source := b0 :: tail
  let utf8SequenceLength := inlineUTF8SequenceLength b0
  if source.length < utf8SequenceLength then .inl .sourceExhausted
  else if !isLegalUTF8 source utf8SequenceLength then .inl .sourceIllegal
  else
    let character := readUTF8Sequence source utf8SequenceLength
    let rest := source.drop utf8SequenceLength
    let replaced : ConversionResult ⊕ (List UInt16 × List UInt8 × UInt16) :=
      .inr ([.ofNat replacementCharacter], rest, orAllData ||| .ofNat replacementCharacter)
    if room = 0 then .inl .targetExhausted
    else if isBMP character then
      if isSurrogate character then
        if strict then .inl .sourceIllegal else replaced
      else .inr ([.ofNat character], rest, orAllData ||| .ofNat character)
    else if isSupplementary character then
      if room ≤ 1 then .inl .targetExhausted
      else .inr ([u16Lead character, u16Trail character], rest, 0xFFFF)
    else if strict then .inl .sourceIllegal
    else replaced

theorem isLegalUTF8_zero (src : List UInt8) : isLegalUTF8 src 0 = false := by
  simp [isLegalUTF8]

theorem convertUTF8ToUTF16Step_shorter {strict b0} {tail rest : List UInt8}
    {room orAllData orAllData' units}
    (h : convertUTF8ToUTF16Step strict b0 tail room orAllData = .inr (units, rest, orAllData')) :
    rest.length < (b0 :: tail).length := by
  simp only [convertUTF8ToUTF16Step] at h
  split at h
  · cases h
  split at h
  · cases h
  · rename_i hl
    have hlen : inlineUTF8SequenceLength b0 ≠ 0 := by
      intro hz
      simp [hz, isLegalUTF8_zero] at hl
    have hr : rest = (b0 :: tail).drop (inlineUTF8SequenceLength b0) := by
      split_ifs at h <;> simp_all
    rw [hr, List.length_drop, List.length_cons]
    omega

/-- The loop of `convertUTF8ToUTF16`; the second component is `orAllData`. -/
def convertUTF8ToUTF16Loop (strict : Bool) (source : List UInt8) (room : Nat)
    (orAllData : UInt16) : Conversion ConversionResult UInt8 UInt16 × UInt16 :=
  match source with
  | [] => (⟨.conversionOK, [], []⟩, orAllData)
  | b0 :: tail =>
    match _h : convertUTF8ToUTF16Step strict b0 tail room orAllData with
    | .inl result => (⟨result, b0 :: tail, []⟩, orAllData)
    | .inr (units, rest, orAllData') =>
      let next := convertUTF8ToUTF16Loop strict rest (room - units.length) orAllData'
      (⟨next.1.result, next.1.source, units ++ next.1.target⟩, next.2)
termination_by source.length
decreasing_by exact convertUTF8ToUTF16Step_shorter _h

/-- The report of the call and the value stored in `sourceAllASCII`. -/
def convertUTF8ToUTF16 (strict : Bool) (source : List UInt8) (room : Nat) :
    Conversion ConversionResult UInt8 UInt16 × Bool :=
  let final := convertUTF8ToUTF16Loop strict source room 0
  (final.1, final.2 &&& ~~~0x7F == 0)

/-! ### From UTF-16 to UTF-8 -/

def byteMask : Nat := 0xBF

def byteMark : Nat := 0x80

def firstByteMark : Nat → Nat
  | 2 => 0xC0
  | 3 => 0xE0
  | 4 => 0xF0
  | 5 => 0xF8
  | 6 => 0xFC
  | _ => 0x00

/-- Read one character, joining a surrogate pair; the source pointer ends up
behind it. -/
def readUTF16Character (strict : Bool) (unit : UInt16) (tail : List UInt16) :
    ConversionResult ⊕ (Nat × List UInt16) :=
  let ch := unit.toNat
  if ch ≥ 0xD800 && ch ≤ 0xDBFF then
    match tail with
    | unit2 :: rest =>
      let ch2 := unit2.toNat
      if ch2 ≥ 0xDC00 && ch2 ≤ 0xDFFF then
        .inr (((ch - 0xD800) <<< 10) + (ch2 - 0xDC00) + 0x0010000, rest)
      else if strict then .inl .sourceIllegal
      else .inr (ch, tail)
    | [] => .inl .sourceExhausted
  else if strict && (ch ≥ 0xDC00 && ch ≤ 0xDFFF) then .inl .sourceIllegal
  else .inr (ch, tail)

/-- The number of bytes the character needs, and the character to write. -/
def bytesToWrite (ch : Nat) : Nat × Nat :=
  if ch < 0x80 then (1, ch)
  else if ch < 0x800 then (2, ch)
  else if ch < 0x10000 then (3, ch)
  else if ch < 0x110000 then (4, ch)
  else (3, replacementCharacter)

/-- The cases above 1 of the writing switch: `count` trailing bytes are put in
front of those already written, and what is left of the character is returned. -/
def writeTrailing : Nat → Nat → List UInt8 → Nat × List UInt8
  | 0, ch, written => (ch, written)
  | count + 1, ch, written =>
    writeTrailing count (ch >>> 6) (.ofNat ((ch ||| byteMark) &&& byteMask) :: written)

/-- The writing switch. -/
def writeUTF8 (bytes ch : Nat) : List UInt8 :=
  let trailing := writeTrailing (bytes - 1) ch []
  .ofNat (trailing.1 ||| firstByteMark bytes) :: trailing.2

/-- The body of the loop of `convertUTF16ToUTF8` at a source `unit :: tail`. -/
def convertUTF16ToUTF8Step (strict : Bool) (unit : UInt16) (tail : List UInt16) (room : Nat) :
    ConversionResult ⊕ (List UInt8 × List UInt16) :=
  match readUTF16Character strict unit tail with
  | .inl result => .inl result
  | .inr (character, rest) =>
    let (bytes, ch) := bytesToWrite character
    if bytes > room then .inl .targetExhausted
    else .inr (writeUTF8 bytes ch, rest)

theorem readUTF16Character_length_le {strict unit} {tail rest : List UInt16}
    {ch} (h : readUTF16Character strict unit tail = .inr (ch, rest)) :
    rest.length ≤ tail.length := by
  simp only [readUTF16Character] at h
  split at h
  · split at h
    · split_ifs at h <;> simp_all
    · cases h
  · split_ifs at h
    simp_all

theorem convertUTF16ToUTF8Step_shorter {strict unit} {tail rest : List UInt16} {room bytes}
    (h : convertUTF16ToUTF8Step strict unit tail room = .inr (bytes, rest)) :
    rest.length < (unit :: tail).length := by
  simp only [convertUTF16ToUTF8Step] at h
  split at h
  · cases h
  · rename_i char rest' hrd
    have hle := readUTF16Character_length_le hrd
    split_ifs at h
    cases h
    exact Nat.lt_succ_of_le hle

/-- The loop of `convertUTF16ToUTF8`. -/
def convertUTF16ToUTF8 (strict : Bool) (source : List UInt16) (room : Nat) :
    Conversion ConversionResult UInt16 UInt8 :=
  match source with
  | [] => ⟨.conversionOK, [], []⟩
  | unit :: tail =>
    match _h : convertUTF16ToUTF8Step strict unit tail room with
    | .inl result => ⟨result, unit :: tail, []⟩
    | .inr (bytes, rest) =>
      let next := convertUTF16ToUTF8 strict rest (room - bytes.length)
      ⟨next.result, next.source, bytes ++ next.target⟩
termination_by source.length
decreasing_by exact convertUTF16ToUTF8Step_shorter _h

end QtWebKit.Unicode
