import QtWebKit.Unicode.UTF8

/-!
# The UTF-8 text codec

`TextCodecUTF8` decodes a byte stream that arrives in portions. The bytes of an
unfinished sequence wait in `m_partialSequence` for the next portion. Decoding
starts with 8-bit characters and goes over to 16-bit characters at the first
character that needs them.

## Implementation notes

`m_partialSequence` is the list of its first `m_partialSequenceSize` bytes, the
source is the list of the bytes from `source` to `end` with its address, and a
destination is the list of the characters that have been written. A loop that
jumps to `upConvertTo16Bit` ends with `upConvert`. `nonCharacter` is `none`.
Machine words have eight bytes.
-/

namespace QtWebKit.TextCodecUTF8

open Unicode List

/-! ### Single sequences -/

/-- The rows of the table `lengths`, sixteen entries each. -/
def lengths : List Nat :=
  replicate (8 * 16) 0 ++ replicate (6 * 16) 2 ++ replicate 16 3 ++
    replicate 5 4 ++ replicate 11 0

def nonASCIISequenceLength (firstByte : UInt8) : Nat := lengths.getD firstByte.toNat 0

def outside (byte low high : UInt8) : Bool := byte < low || byte > high

def decodeNonASCIISequence (sequence : List UInt8) (length : Nat) : Option Nat :=
  match length, sequence with
  | 2, b0 :: b1 :: _ =>
    if b0 < 0xC2 then none
    else if outside b1 0x80 0xBF then none
    else some ((b0.toNat <<< 6) + b1.toNat - 0x00003080)
  | 3, b0 :: b1 :: b2 :: _ =>
    if b0 = 0xE0 ∧ outside b1 0xA0 0xBF then none
    else if b0 = 0xED ∧ outside b1 0x80 0x9F then none
    else if b0 ≠ 0xE0 ∧ b0 ≠ 0xED ∧ outside b1 0x80 0xBF then none
    else if outside b2 0x80 0xBF then none
    else some ((b0.toNat <<< 12) + (b1.toNat <<< 6) + b2.toNat - 0x000E2080)
  | 4, b0 :: b1 :: b2 :: b3 :: _ =>
    if b0 = 0xF0 ∧ outside b1 0x90 0xBF then none
    else if b0 = 0xF4 ∧ outside b1 0x80 0x8F then none
    else if b0 ≠ 0xF0 ∧ b0 ≠ 0xF4 ∧ outside b1 0x80 0xBF then none
    else if outside b2 0x80 0xBF then none
    else if outside b3 0x80 0xBF then none
    else some ((b0.toNat <<< 18) + (b1.toNat <<< 12) + (b2.toNat <<< 6) + b3.toNat - 0x03C82080)
  | _, _ => none

/-- What `appendCharacter` writes. -/
def appendCharacter (character : Nat) : List UInt16 :=
  if isBMP character then [.ofNat character] else [u16Lead character, u16Trail character]

/-! ### Words of ASCII characters -/

def sizeofMachineWord : Nat := 8

def isAlignedToMachineWord (address : Nat) : Bool := address % sizeofMachineWord == 0

def alignToMachineWord (address : Nat) : Nat := address - address % sizeofMachineWord

/-- Every byte of a word against its byte of `NonASCIIMask`. -/
def isAllASCII (chunk : List UInt8) : Bool := chunk.all fun byte => byte &&& 0x80 == 0

/-- The loop that copies whole words: the bytes it copies and the source that is left. -/
def copyASCIIMachineWords (alignedEnd address : Nat) (source : List UInt8) :
    List UInt8 × List UInt8 :=
  if address < alignedEnd then
    if isAllASCII (source.take sizeofMachineWord) then
      let rest := copyASCIIMachineWords alignedEnd (address + sizeofMachineWord)
        (source.drop sizeofMachineWord)
      (source.take sizeofMachineWord ++ rest.1, rest.2)
    else ([], source)
  else ([], source)
termination_by alignedEnd - address
decreasing_by
  unfold sizeofMachineWord
  omega

theorem copyASCIIMachineWords_append (alignedEnd addr : Nat) (source : List UInt8) :
    (copyASCIIMachineWords alignedEnd addr source).1 ++
      (copyASCIIMachineWords alignedEnd addr source).2 = source := by
  fun_induction copyASCIIMachineWords alignedEnd addr source with
  | case1 addr source hlt hascii rest ih =>
    rw [append_assoc, ih, take_append_drop]
  | case2 => rfl
  | case3 => rfl

theorem isASCII_iff (byte : UInt8) : isASCII byte = true ↔ byte.toNat < 0x80 := by
  obtain ⟨⟨n⟩⟩ := byte
  revert n
  decide +kernel

/-! ### Characters of the two widths -/

/-- The template parameter `CharType` of the handlers and of the two copies of the loop. -/
structure CharType (Char : Type) where
  ofByte : UInt8 → Char
  /-- The characters written for a character, or for an error; `none` where this needs 16-bit
  characters. -/
  write : Option Nat → Option (List Char)
  /-- An ASCII byte is copied as the character it encodes. -/
  write_ascii : ∀ {byte : UInt8}, isASCII byte = true → write (some byte.toNat) = some [ofByte byte]

def writeLChar : Option Nat → Option (List UInt8)
  | some character => if character > 0xFF then none else some [.ofNat character]
  | none => none

def writeUChar : Option Nat → Option (List UInt16)
  | some character => some (appendCharacter character)
  | none => some [.ofNat replacementCharacter]

theorem writeLChar_ascii {byte : UInt8} (h : isASCII byte = true) :
    writeLChar (some byte.toNat) = some [byte] := by
  rw [isASCII_iff] at h
  rw [writeLChar, if_neg (by omega), UInt8.ofNat_toNat]

theorem writeUChar_ascii {byte : UInt8} (h : isASCII byte = true) :
    writeUChar (some byte.toNat) = some [.ofNat byte.toNat] := by
  rw [isASCII_iff] at h
  have hb : isBMP byte.toNat = true := decide_eq_true (by omega)
  rw [writeUChar, appendCharacter, if_pos hb]

def lChar : CharType UInt8 := ⟨fun byte => byte, writeLChar, writeLChar_ascii⟩

def uChar : CharType UInt16 := ⟨fun byte => .ofNat byte.toNat, writeUChar, writeUChar_ascii⟩

/-- Where a handler or a loop stands when it stops. -/
structure Progress (Char : Type) where
  /-- The code goes on at `upConvertTo16Bit`. -/
  upConvert : Bool
  destination : List Char
  source : List UInt8
  partialSequence : List UInt8
  sawError : Bool
  deriving DecidableEq, Repr

/-! ### The partial sequence -/

/-- The bytes `m_partialSequence` lacks up to `count`. -/
def lacking (count : Nat) (partialSequence : List UInt8) : Nat := count - partialSequence.length

section

variable (count : Nat) (source partialSequence : List UInt8)

/-- `m_partialSequence` after the bytes it lacks have been copied from the source. -/
def filledSequence : List UInt8 :=
  partialSequence ++ source.take (lacking count partialSequence)

/-- The source after these bytes. -/
def unreadSource : List UInt8 :=
  source.drop (lacking count partialSequence)

theorem filledSequence_append :
    filledSequence count source partialSequence ++ unreadSource count source partialSequence =
      partialSequence ++ source := by
  rw [filledSequence, unreadSource, append_assoc, take_append_drop]

theorem length_unreadSource_add :
    (unreadSource count source partialSequence).length +
        (filledSequence count source partialSequence).length =
      source.length + partialSequence.length := by
  have h := congrArg length (filledSequence_append count source partialSequence)
  rw [length_append, length_append] at h
  omega

theorem length_unreadSource_le :
    (unreadSource count source partialSequence).length ≤ source.length :=
  (length_drop ..).trans_le (Nat.sub_le ..)

end

theorem length_filledSequence_pos (count : Nat) (source : List UInt8) (b0 : UInt8)
    (tail : List UInt8) : 0 < (filledSequence count source (b0 :: tail)).length := by
  rw [filledSequence, cons_append]
  exact Nat.succ_pos _

section

variable {Char : Type}

/-- `handlePartialSequence`. A decoded sequence is taken off the size of the buffer only: the
bytes that stay are the first ones. The 8-bit handler leaves every error to the 16-bit one. -/
def handlePartialSequence (t : CharType Char) (flush stopOnError sawError : Bool)
    (destination : List Char) (source partialSequence : List UInt8) : Progress Char :=
  match partialSequence with
  | [] => ⟨false, destination, source, [], sawError⟩
  | b0 :: tail =>
    if isASCII b0 then
      handlePartialSequence t flush stopOnError sawError (destination ++ [t.ofByte b0]) source
        tail
    else
      let count := nonASCIISequenceLength b0
      if _hcount : count = 0 then
        match t.write none with
        | none => ⟨true, destination, source, b0 :: tail, sawError⟩
        | some written =>
          if stopOnError then ⟨false, destination, source, b0 :: tail, true⟩
          else
            handlePartialSequence t flush stopOnError true (destination ++ written) source tail
      else if lacking count (b0 :: tail) > source.length then
        if !flush then ⟨false, destination, source, b0 :: tail ++ source, sawError⟩
        else
          match t.write none with
          | none => ⟨true, destination, source, b0 :: tail, sawError⟩
          | some written =>
            if stopOnError then ⟨false, destination, source, b0 :: tail, true⟩
            else
              handlePartialSequence t flush stopOnError true (destination ++ written) source
                tail
      else
        let filled := filledSequence count source (b0 :: tail)
        let rest := unreadSource count source (b0 :: tail)
        match decodeNonASCIISequence filled count with
        | none =>
          match t.write none with
          | none => ⟨true, destination, rest, filled, sawError⟩
          | some written =>
            if stopOnError then ⟨false, destination, rest, filled, true⟩
            else
              handlePartialSequence t flush stopOnError true (destination ++ written) rest
                filled.tail
        | some character =>
          match t.write (some character) with
          | none => ⟨true, destination, rest, filled, sawError⟩
          | some written =>
            handlePartialSequence t flush stopOnError sawError (destination ++ written) rest
              (filled.take (filled.length - count))
termination_by source.length + partialSequence.length
decreasing_by
  · exact Nat.lt_succ_self _
  · exact Nat.lt_succ_self _
  · exact Nat.lt_succ_self _
  · have hlength := length_unreadSource_add (nonASCIISequenceLength b0) source (b0 :: tail)
    have hpos := length_filledSequence_pos (nonASCIISequenceLength b0) source b0 tail
    rw [length_tail]
    omega
  · have hlength := length_unreadSource_add (nonASCIISequenceLength b0) source (b0 :: tail)
    have hpos := length_filledSequence_pos (nonASCIISequenceLength b0) source b0 tail
    rw [length_take]
    omega

/-! ### The loops of `decode` -/

/-- Whether the rest of the source is too short for the sequence it starts with. -/
def endsEarly (b0 : UInt8) (tail : List UInt8) : Bool :=
  nonASCIISequenceLength b0 > (b0 :: tail).length

/-- `character` at a byte that is not ASCII and whose sequence does not end early. -/
def sourceCharacter (b0 : UInt8) (tail : List UInt8) : Option Nat :=
  if nonASCIISequenceLength b0 = 0 then none
  else decodeNonASCIISequence (b0 :: tail) (nonASCIISequenceLength b0)

theorem nonASCIISequenceLength_ne_zero_of_sourceCharacter {b0 tail}
    {char} (h : sourceCharacter b0 tail = some char) : nonASCIISequenceLength b0 ≠ 0 := by
  intro hz
  rw [sourceCharacter, if_pos hz] at h
  exact absurd h (by simp)

/-- The copied words end behind an ASCII byte. -/
theorem length_lt_of_copyASCIIMachineWords {alignedEnd addr b0 b1}
    {tail copied tail1} (h0 : isASCII b0 = true) (h1 : (!isASCII b1) = true)
    (h : copyASCIIMachineWords alignedEnd addr (b0 :: tail) = (copied, b1 :: tail1)) :
    (b1 :: tail1).length < (b0 :: tail).length := by
  have hap := copyASCIIMachineWords_append alignedEnd addr (b0 :: tail)
  rw [h] at hap
  cases copied with
  | nil =>
    cases hap
    rw [h0] at h1
    exact absurd h1 (by simp)
  | cons byte bs =>
    rw [← hap]
    simp only [cons_append, length_cons, length_append]
    omega

theorem length_le_of_copyASCIIMachineWords {alignedEnd addr} {source copied source1 : List UInt8}
    (h : copyASCIIMachineWords alignedEnd addr source = (copied, source1)) :
    source1.length ≤ source.length := by
  have hap := copyASCIIMachineWords_append alignedEnd addr source
  rw [h] at hap
  rw [← hap, length_append]
  exact Nat.le_add_left ..

/-- The loop over the source, which ends at the address `sourceEnd`. -/
def decodeLoop (t : CharType Char) (stopOnError : Bool) (sourceEnd : Nat) (sawError : Bool)
    (destination : List Char) (source : List UInt8) : Progress Char :=
  match source with
  | [] => ⟨false, destination, [], [], sawError⟩
  | b0 :: tail =>
    if _hascii : isASCII b0 then
      let address := sourceEnd - (b0 :: tail).length
      if isAlignedToMachineWord address then
        match _h : copyASCIIMachineWords (alignToMachineWord sourceEnd) address (b0 :: tail) with
        | (copied, []) => ⟨false, destination ++ copied.map t.ofByte, [], [], sawError⟩
        | (copied, b1 :: tail1) =>
          if _hascii1 : !isASCII b1 then
            decodeLoop t stopOnError sourceEnd sawError (destination ++ copied.map t.ofByte)
              (b1 :: tail1)
          else
            decodeLoop t stopOnError sourceEnd sawError
              (destination ++ copied.map t.ofByte ++ [t.ofByte b1]) tail1
      else decodeLoop t stopOnError sourceEnd sawError (destination ++ [t.ofByte b0]) tail
    else if endsEarly b0 tail then ⟨false, destination, [], b0 :: tail, sawError⟩
    else
      match _h : sourceCharacter b0 tail with
      | none =>
        if stopOnError then ⟨false, destination, b0 :: tail, [], true⟩
        else
          match t.write none with
          | none => ⟨true, destination, b0 :: tail, [], true⟩
          | some written =>
            decodeLoop t stopOnError sourceEnd true (destination ++ written) tail
      | some character =>
        match t.write (some character) with
        | none => ⟨true, destination, b0 :: tail, [], sawError⟩
        | some written =>
          decodeLoop t stopOnError sourceEnd sawError (destination ++ written)
            ((b0 :: tail).drop (nonASCIISequenceLength b0))
termination_by source.length
decreasing_by
  · exact length_lt_of_copyASCIIMachineWords _hascii _hascii1 _h
  · exact length_le_of_copyASCIIMachineWords _h
  · exact Nat.lt_succ_self _
  · exact Nat.lt_succ_self _
  · have hcount := nonASCIISequenceLength_ne_zero_of_sourceCharacter _h
    rw [length_drop, length_cons]
    omega

/-- Bytes are left for `m_partialSequence` at the end of the source only. -/
theorem decodeLoop_partialSequence (t : CharType Char) (stopOnError : Bool) (srcEnd : Nat)
    (saw : Bool) (dest : List Char) (source : List UInt8)
    (h : (decodeLoop t stopOnError srcEnd saw dest source).partialSequence ≠ []) :
    (decodeLoop t stopOnError srcEnd saw dest source).source.length <
      source.length := by
  fun_induction decodeLoop t stopOnError srcEnd saw dest source with
  | case1 => exact absurd rfl h
  | case2 => exact absurd rfl h
  | case3 _ _ b0 tail h0 _ _ copied b1 tail1 hc h1 ih =>
    exact (ih h).trans (length_lt_of_copyASCIIMachineWords h0 h1 hc)
  | case4 _ _ b0 tail h0 _ _ copied b1 tail1 hc h1 ih =>
    exact (ih h).trans (length_le_of_copyASCIIMachineWords hc)
  | case5 _ _ b0 tail _ _ _ ih => exact (ih h).trans (Nat.lt_succ_self _)
  | case6 => exact Nat.succ_pos _
  | case7 => exact absurd rfl h
  | case8 => exact absurd rfl h
  | case9 _ _ b0 tail _ _ _ _ wr _ ih => exact (ih h).trans (Nat.lt_succ_self _)
  | case10 => exact absurd rfl h
  | case11 _ _ b0 tail _ _ char hch wr _ ih =>
    have hcn := nonASCIISequenceLength_ne_zero_of_sourceCharacter hch
    apply (ih h).trans
    rw [length_drop, length_cons]
    omega

theorem handlePartialSequence_source_length (t : CharType Char) (fl stopOnError saw : Bool)
    (dest : List Char) (source partialSequence : List UInt8) :
    (handlePartialSequence t fl stopOnError saw dest source
      partialSequence).source.length ≤ source.length := by
  fun_induction handlePartialSequence t fl stopOnError saw dest source
    partialSequence
  case case2 ih => exact ih
  case case5 ih => exact ih
  case case9 ih => exact ih
  case case12 ih => exact ih.trans (length_unreadSource_le ..)
  case case14 ih => exact ih.trans (length_unreadSource_le ..)
  all_goals first
    | exact Nat.le_refl _
    | exact length_unreadSource_le ..

/-- A round of the `do` loops with what it has written into the buffer. -/
structure Phase (Char : Type) extends Progress Char where
  /-- The largest offset of a character written, plus one. -/
  written : Nat
  deriving DecidableEq, Repr

/-- The `do` loop of one width. A destination that the 8-bit handler has advanced before it asks
for 16-bit characters is not taken over. -/
def decodePhase (t : CharType Char) (flush stopOnError : Bool) (sourceEnd : Nat) (sawError : Bool)
    (destination : List Char) (source partialSequence : List UInt8) : Phase Char :=
  let handled := handlePartialSequence t flush stopOnError sawError destination source
    partialSequence
  if handled.upConvert then
    ⟨⟨true, destination, handled.source, handled.partialSequence, handled.sawError⟩,
      handled.destination.length⟩
  else if handled.partialSequence ≠ [] then ⟨handled, handled.destination.length⟩
  else
    let looped := decodeLoop t stopOnError sourceEnd handled.sawError handled.destination
      handled.source
    if _hagain : !looped.upConvert && flush && !looped.partialSequence.isEmpty then
      decodePhase t flush stopOnError sourceEnd looped.sawError looped.destination looped.source
        looped.partialSequence
    else ⟨looped, looped.destination.length⟩
termination_by source.length
decreasing_by
  simp only [Bool.and_eq_true, Bool.not_eq_true', isEmpty_eq_false_iff] at _hagain
  exact (decodeLoop_partialSequence t stopOnError sourceEnd _ _ _ _hagain.2).trans_le
    (handlePartialSequence_source_length ..)

end

/-! ### `decode` -/

/-- The length a `StringBuffer` is allocated with, an `unsigned`, and what is written to it. -/
structure StringBuffer where
  length : Nat
  written : Nat
  deriving DecidableEq, Repr

def StringBuffer.allocate (length written : Nat) : StringBuffer := ⟨length % UInt32.size, written⟩

/-- One call of `decode`: the string it returns as 16-bit characters, the state of the codec after
it, and the buffers it has used. -/
structure Decoded where
  output : List UInt16
  partialSequence : List UInt8
  sawError : Bool
  buffers : List StringBuffer
  deriving DecidableEq, Repr

/-- The bytes of a call and where they are. -/
structure Chunk where
  address : Nat
  bytes : List UInt8
  deriving DecidableEq, Repr

/-- The part of `decode` from the label `upConvertTo16Bit` on, after the 8-bit part has used
`buffer`. -/
def upConvertTo16Bit (flush stopOnError : Bool) (chunk : Chunk) (buffer : StringBuffer)
    (narrow : Phase UInt8) : Decoded :=
  let wide := decodePhase uChar flush stopOnError (chunk.address + chunk.bytes.length)
    narrow.sawError (narrow.destination.map uChar.ofByte) narrow.source narrow.partialSequence
  let buffer16 := StringBuffer.allocate (narrow.partialSequence.length + chunk.bytes.length)
    wide.written
  ⟨wide.destination, wide.partialSequence, wide.sawError, [buffer, buffer16]⟩

def decode (flush stopOnError sawError : Bool) (partialSequence : List UInt8) (chunk : Chunk) :
    Decoded :=
  let narrow := decodePhase lChar flush stopOnError (chunk.address + chunk.bytes.length) sawError []
    chunk.bytes partialSequence
  let buffer := StringBuffer.allocate (partialSequence.length + chunk.bytes.length) narrow.written
  if narrow.upConvert then upConvertTo16Bit flush stopOnError chunk buffer narrow
  else
    ⟨narrow.destination.map uChar.ofByte, narrow.partialSequence, narrow.sawError, [buffer]⟩

/-- Successive calls that do not stop on errors, of which only the last one flushes. -/
def decodeChunks (partialSequence : List UInt8) : List Chunk → Chunk → List Decoded
  | [], last => [decode true false false partialSequence last]
  | chunk :: chunks, last =>
    let call := decode false false false partialSequence chunk
    call :: decodeChunks call.partialSequence chunks last

end QtWebKit.TextCodecUTF8
