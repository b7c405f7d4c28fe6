import QtWebKit.Lib.ByteOrder

/-!
# WebSocket frame coding

`makeFrameData` writes a frame header, the optional masking key and the masked
payload. `parseFrame` reads one frame at the start of a receive buffer and
removes the mask in place.

## Implementation notes

Buffer pointers are offsets into a byte list. The out-parameters of
`parseFrame` are one state that the function returns; a path that does not
write a parameter returns it as it was. A vector that would get too large is
`none`, the crash of `VectorBufferBase::allocateBuffer`.
-/

namespace QtWebKit.WebSockets

def finalBit : UInt8 := 0x80
def compressBit : UInt8 := 0x40
def reserved2Bit : UInt8 := 0x20
def reserved3Bit : UInt8 := 0x10
def opCodeMask : UInt8 := 0xF
def maskBit : UInt8 := 0x80
def payloadLengthMask : UInt8 := 0x7F
def maxPayloadLengthWithoutExtendedLengthField : Nat := 125
def payloadLengthWithTwoByteExtendedLengthField : Nat := 126
def payloadLengthWithEightByteExtendedLengthField : Nat := 127
def maskingKeyWidthInBytes : Nat := 4
def maxPayloadLength : Nat := 0x7FFFFFFFFFFFFFFF

/-- The largest capacity of a `Vector<char>`. -/
def maxVectorCapacity : Nat := 4294967295

/-- The largest value of a 64-bit `size_t`. -/
def sizeMax : Nat := 2 ^ 64 - 1

/-- A frame with the bytes its payload pointer addresses. -/
structure WebSocketFrame where
  opCode : UInt8
  final : Bool
  compress : Bool
  reserved2 : Bool
  reserved3 : Bool
  masked : Bool
  payload : List UInt8
  deriving DecidableEq, Repr

inductive ParseFrameResult
  | frameOK
  | frameIncomplete
  | frameError
  deriving DecidableEq, Repr

/-- The receive buffer and the out-parameters of `parseFrame`. -/
structure ParseState where
  data : List UInt8
  frame : WebSocketFrame
  frameEnd : Nat
  errorString : String
  deriving DecidableEq, Repr

/-- A frame that `makeFrameData` may send. The opcode passes the assertion of
`makeFrameData`, and the payload is a C++ object, hence of at most `PTRDIFF_MAX`
bytes. -/
structure OutgoingFrame extends WebSocketFrame where
  opCode_fits : opCode &&& ~~~opCodeMask = 0
  reserved2_unset : reserved2 = false
  reserved3_unset : reserved3 = false
  payload_fits : payload.length ≤ maxPayloadLength

/-- The byte at an offset. Every read of the code is below the buffer length. -/
def byteAt (data : List UInt8) (i : Nat) : UInt8 := data.getD i 0

/-- The loop `payload[i] ^= maskingKey[i % 4]` over the first `n` payload bytes. -/
def xorPayload (data : List UInt8) (payloadStart keyStart : Nat) : Nat → List UInt8
  | 0 => data
  | n + 1 =>
    let data := xorPayload data payloadStart keyStart n
    data.set (payloadStart + n)
      (byteAt data (payloadStart + n) ^^^
        byteAt data (keyStart + n % maskingKeyWidthInBytes))

/-- The loop that shifts `size` bytes at `p` into a 64-bit payload length. -/
def readExtendedLength (data : List UInt8) (p size : Nat) : Nat :=
  ((data.drop p).take size).foldl (fun n b => ((n <<< 8) % 2 ^ 64) ||| b.toNat) 0

def minimalLengthError : String :=
  "The minimal number of bytes MUST be used to encode the length"

def tooLargeError (payloadLength : Nat) : String :=
  "WebSocket frame length too large: " ++ toString payloadLength ++ " bytes"

/-- The part of `parseFrame` after the length field, with the read position `p`. -/
def parsePayload (s : ParseState) (firstByte secondByte : UInt8) (p payloadLength : Nat) :
    ParseFrameResult × ParseState :=
  let masked := secondByte &&& maskBit != 0
  let maskingKeyLength := if masked then maskingKeyWidthInBytes else 0
  if payloadLength > maxPayloadLength ∨ payloadLength + maskingKeyLength > sizeMax then
    (.frameError, { s with errorString := tooLargeError payloadLength })
  else if s.data.length - p < maskingKeyLength + payloadLength then
    (.frameIncomplete, s)
  else
    let data := if masked
      then xorPayload s.data (p + maskingKeyWidthInBytes) p payloadLength
      else s.data
    let payload := p + maskingKeyLength
    (.frameOK,
      { s with
        data := data
        frame :=
          { opCode := firstByte &&& opCodeMask
            final := firstByte &&& finalBit != 0
            compress := firstByte &&& compressBit != 0
            reserved2 := firstByte &&& reserved2Bit != 0
            reserved3 := firstByte &&& reserved3Bit != 0
            masked := masked
            payload := (data.drop payload).take payloadLength }
        frameEnd := payload + payloadLength })

def parseFrame (s : ParseState) : ParseFrameResult × ParseState :=
  if s.data.length < 2 then
    (.frameIncomplete, s)
  else
    let firstByte := byteAt s.data 0
    let secondByte := byteAt s.data 1
    let payloadLength := (secondByte &&& payloadLengthMask).toNat
    if payloadLength > maxPayloadLengthWithoutExtendedLengthField then
      let size :=
        if payloadLength = payloadLengthWithTwoByteExtendedLengthField then 2 else 8
      if s.data.length - 2 < size then
        (.frameIncomplete, s)
      else
        let extended := readExtendedLength s.data 2 size
        if size = 2 ∧ extended ≤ maxPayloadLengthWithoutExtendedLengthField then
          (.frameError, { s with errorString := minimalLengthError })
        else if size = 8 ∧ extended ≤ 0xFFFF then
          (.frameError, { s with errorString := minimalLengthError })
        else
          parsePayload s firstByte secondByte (2 + size) extended
    else
      parsePayload s firstByte secondByte 2 payloadLength

/-- The loop that fills `extendedPayloadLength` from its last byte. -/
def fillExtendedLength : Nat → Nat → List UInt8 → List UInt8
  | 0, _, filled => filled
  | n + 1, remaining, filled =>
    fillExtendedLength n (remaining >>> 8) (UInt8.ofNat (remaining &&& 0xFF) :: filled)

/-- The four bytes `cryptographicallyRandomValues` writes. -/
abbrev MaskingKey := { key : List UInt8 // key.length = maskingKeyWidthInBytes }

/-- `Vector::append`. The header and the key fit into the first allocation, so the capacity that
the payload asks for is the new size. -/
def append (frameData bytes : List UInt8) : Option (List UInt8) :=
  if frameData.length + bytes.length ≤ maxVectorCapacity then some (frameData ++ bytes) else none

def appendFramePayload (frame : WebSocketFrame) (key : MaskingKey)
    (frameData : List UInt8) : Option (List UInt8) :=
  if frame.masked then
    let maskingKeyStart := frameData.length
    let frameData := frameData ++ key.1
    let payloadStart := frameData.length
    (append frameData frame.payload).map fun frameData =>
      xorPayload frameData payloadStart maskingKeyStart frame.payload.length
  else
    append frameData frame.payload

/-- The header bytes that `makeFrameData` writes before the masking key. -/
def frameHeader (frame : WebSocketFrame) : List UInt8 :=
  let payloadLength := frame.payload.length
  let first := (if frame.final then finalBit else 0) |||
    (if frame.compress then compressBit else 0) ||| frame.opCode
  let second : UInt8 := if frame.masked then maskBit else 0
  if payloadLength ≤ maxPayloadLengthWithoutExtendedLengthField then
    [first, second ||| UInt8.ofNat payloadLength]
  else if payloadLength ≤ 0xFFFF then
    [first, second ||| UInt8.ofNat payloadLengthWithTwoByteExtendedLengthField,
      UInt8.ofNat ((payloadLength &&& 0xFF00) >>> 8), UInt8.ofNat (payloadLength &&& 0xFF)]
  else
    [first, second ||| UInt8.ofNat payloadLengthWithEightByteExtendedLengthField] ++
      fillExtendedLength 8 payloadLength []

def makeFrameData (frame : WebSocketFrame) (key : MaskingKey) : Option (List UInt8) :=
  appendFramePayload frame key (frameHeader frame)

end QtWebKit.WebSockets
