import QtWebKit.WebSockets.Frame

/-!
# Incremental parsing of written frames

The header facts are reduced to the byte-order library. Masking is an
involution on the payload slice and keeps every other byte, so the parser can
be applied to a complete frame only; a shorter buffer is left untouched.
-/

namespace QtWebKit.WebSockets

open ByteOrder List

@[simp] theorem byteAt_append_left {a b : List UInt8} {i} (h : i < a.length) :
    byteAt (a ++ b) i = byteAt a i := by
  simp [byteAt, getD_eq_getElem?_getD, getElem?_append_left h]

theorem readExtendedLength_eq (data : List UInt8) (p : Nat) {size} (hs : size ≤ 8) :
    readExtendedLength data p size = ofBigEndian ((data.drop p).take size) := by
  have hfd (bs : List UInt8) : bs.length ≤ 8 →
      bs.foldl (fun n b => ((n <<< 8) % 2 ^ 64) ||| b.toNat) 0 = ofBigEndian bs := by
    induction bs using reverseRecOn with
    | nil => simp
    | append_singleton bs b ih =>
      intro hl
      rw [length_append, length_singleton] at hl
      have hlt : ofBigEndian bs < 256 ^ 7 :=
        (ofBigEndian_lt bs).trans_le (Nat.pow_le_pow_right (by omega) (by omega))
      have hsf : (ofBigEndian bs <<< 8) % 2 ^ 64 = ofBigEndian bs <<< 8 := by
        rw [Nat.shiftLeft_eq]
        exact Nat.mod_eq_of_lt (by omega)
      have hb := b.toNat_lt
      rw [foldl_append, ih (by omega), ofBigEndian_concat, foldl_cons,
        foldl_nil, hsf, ← Nat.shiftLeft_add_eq_or_of_lt hb, Nat.shiftLeft_eq]
  exact hfd _ (by rw [length_take]; omega)

theorem fillExtendedLength_eq (k n : Nat) (filled : List UInt8) :
    fillExtendedLength k n filled = toBigEndian k n ++ filled := by
  induction k generalizing n filled with
  | zero => rfl
  | succ k ih =>
    have hlw : UInt8.ofNat (n &&& 0xFF) = UInt8.ofNat n := by
      apply UInt8.toNat_inj.mp
      rw [UInt8.toNat_ofNat', UInt8.toNat_ofNat', Nat.and_two_pow_sub_one_eq_mod n 8, Nat.mod_mod]
    rw [fillExtendedLength, ih, toBigEndian, hlw, Nat.shiftRight_eq_div_pow,
      append_assoc, singleton_append]

theorem twoByteLength_eq {n} (h : n ≤ 0xFFFF) :
    [UInt8.ofNat ((n &&& 0xFF00) >>> 8), UInt8.ofNat (n &&& 0xFF)] = toBigEndian 2 n := by
  have hhg : (n &&& 0xFF00) >>> 8 = n / 256 := by
    rw [Nat.shiftRight_and_distrib, Nat.shiftRight_eq_div_pow]
    exact (Nat.and_two_pow_sub_one_eq_mod (n / 2 ^ 8) 8).trans (Nat.mod_eq_of_lt (by omega))
  have hlw := Nat.and_two_pow_sub_one_eq_mod n 8
  have hby : UInt8.ofNat (n % 256) = UInt8.ofNat n := by
    apply UInt8.toNat_inj.mp
    rw [UInt8.toNat_ofNat', UInt8.toNat_ofNat', Nat.mod_mod]
  rw [hhg, hlw, hby]
  rfl

@[simp] theorem xorPayload_length (data : List UInt8) (payloadStart keyStart n : Nat) :
    (xorPayload data payloadStart keyStart n).length = data.length := by
  induction n with
  | zero => rfl
  | succ n ih => simp [xorPayload, ih]

/-- The unmasking loop changes exactly the first `n` payload bytes. The key
precedes the payload, so the loop reads the key bytes it started with. -/
theorem xorPayload_byteAt (data : List UInt8) {payloadStart keyStart n}
    (hky : keyStart + maskingKeyWidthInBytes ≤ payloadStart)
    (hn : payloadStart + n ≤ data.length) (j : Nat) :
    byteAt (xorPayload data payloadStart keyStart n) j =
      if payloadStart ≤ j ∧ j < payloadStart + n then
        byteAt data j ^^^
          byteAt data (keyStart + (j - payloadStart) % maskingKeyWidthInBytes)
      else byteAt data j := by
  induction n generalizing j with
  | zero => rw [if_neg (by omega)]; rfl
  | succ n ih =>
    have hk : n % maskingKeyWidthInBytes < maskingKeyWidthInBytes :=
      Nat.mod_lt _ (by decide)
    have hpy := ih (by omega) (payloadStart + n)
    have hm := ih (by omega) (keyStart + n % maskingKeyWidthInBytes)
    rw [if_neg (by omega)] at hpy hm
    have hse (d : List UInt8) (i) (v) (hi : i < d.length) :
        byteAt (d.set i v) j = if i = j then v else byteAt d j := by
      unfold byteAt
      rw [getD_eq_getElem?_getD, getElem?_set]
      split_ifs with hij
      · rfl
      · rw [getD_eq_getElem?_getD]
    rw [xorPayload, hse _ _ _ (by rw [xorPayload_length]; omega), hpy, hm]
    by_cases hj : payloadStart + n = j
    · subst hj
      rw [if_pos rfl, if_pos (by omega), Nat.add_sub_cancel_left]
    · rw [if_neg hj, ih (by omega)]
      by_cases hin : payloadStart ≤ j ∧ j < payloadStart + n
      · rw [if_pos hin, if_pos (by omega)]
      · rw [if_neg hin, if_neg (by omega)]

theorem ext_byteAt {a b : List UInt8} (hl : a.length = b.length)
    (h : ∀ j < a.length, byteAt a j = byteAt b j) : a = b := by
  apply ext_getElem hl
  intro j ha hb
  have hj := h j ha
  simpa [byteAt, getD_eq_getElem?_getD, getElem?_eq_getElem ha, getElem?_eq_getElem hb] using hj

/-- Masking twice with the same key restores the buffer. -/
theorem xorPayload_xorPayload (data : List UInt8) {payloadStart keyStart n}
    (hky : keyStart + maskingKeyWidthInBytes ≤ payloadStart) (hn : payloadStart + n ≤ data.length) :
    xorPayload (xorPayload data payloadStart keyStart n) payloadStart keyStart n = data := by
  apply ext_byteAt (by simp)
  intro j _
  rw [xorPayload_byteAt _ hky (by simpa using hn), xorPayload_byteAt _ hky hn]
  by_cases hj : payloadStart ≤ j ∧ j < payloadStart + n
  · have hk : (j - payloadStart) % maskingKeyWidthInBytes < maskingKeyWidthInBytes :=
      Nat.mod_lt _ (by decide)
    rw [if_pos hj, if_pos hj, xorPayload_byteAt _ hky hn, if_neg (by omega),
      UInt8.xor_assoc, UInt8.xor_self, UInt8.xor_zero]
  · rw [if_neg hj, if_neg hj]

theorem xorPayload_take (data : List UInt8) (payloadStart keyStart n : Nat) :
    (xorPayload data payloadStart keyStart n).take payloadStart = data.take payloadStart := by
  induction n with
  | zero => rfl
  | succ n ih => rw [xorPayload, take_set_of_le (by omega), ih]

/-- Masking a payload inside a longer buffer leaves the bytes after it. -/
theorem xorPayload_append (data rest : List UInt8) {payloadStart keyStart n}
    (hky : keyStart + maskingKeyWidthInBytes ≤ payloadStart) (hn : payloadStart + n ≤ data.length) :
    xorPayload (data ++ rest) payloadStart keyStart n =
      xorPayload data payloadStart keyStart n ++ rest := by
  induction n with
  | zero => rfl
  | succ n ih =>
    have hk : n % maskingKeyWidthInBytes < maskingKeyWidthInBytes :=
      Nat.mod_lt _ (by decide)
    rw [xorPayload, xorPayload, ih (by omega)]
    rw [byteAt_append_left (by rw [xorPayload_length]; omega),
      byteAt_append_left (by rw [xorPayload_length]; omega),
      set_append_left _ _ (by rw [xorPayload_length]; omega)]

section

private theorem firstByte_fields (opCode : UInt8) (final compress : Bool)
    (h : opCode &&& ~~~opCodeMask = 0) :
    let first := (if final then finalBit else 0) ||| (if compress then compressBit else 0) |||
      opCode
    first &&& opCodeMask = opCode ∧ (first &&& finalBit != 0) = final ∧
      (first &&& compressBit != 0) = compress ∧ first &&& reserved2Bit = 0 ∧
      first &&& reserved3Bit = 0 := by
  have hal : ∀ b : BitVec 8, ∀ final compress : Bool, UInt8.ofBitVec b &&& ~~~opCodeMask = 0 →
      let first := (if final then finalBit else 0) ||| (if compress then compressBit else 0) |||
        UInt8.ofBitVec b
      first &&& opCodeMask = UInt8.ofBitVec b ∧ (first &&& finalBit != 0) = final ∧
        (first &&& compressBit != 0) = compress ∧ first &&& reserved2Bit = 0 ∧
        first &&& reserved3Bit = 0 := by decide +kernel
  exact hal opCode.toBitVec final compress h

private theorem secondByte_fields (masked : Bool) {n} (h : n ≤ 127) :
    let snd := (if masked then maskBit else 0) ||| UInt8.ofNat n
    (snd &&& payloadLengthMask).toNat = n ∧ (snd &&& maskBit != 0) = masked := by
  have hal : ∀ n : Fin 128, ∀ masked : Bool,
      let snd := (if masked then maskBit else 0) ||| UInt8.ofNat n
      (snd &&& payloadLengthMask).toNat = n ∧ (snd &&& maskBit != 0) = masked := by
    decide +kernel
  exact hal ⟨n, by omega⟩ masked

/-- The code in the second header byte that announces the length form. -/
def lengthCode (payloadLength : Nat) : Nat :=
  if payloadLength ≤ maxPayloadLengthWithoutExtendedLengthField then payloadLength
  else if payloadLength ≤ 0xFFFF then payloadLengthWithTwoByteExtendedLengthField
  else payloadLengthWithEightByteExtendedLengthField

/-- The width of the extended length field. -/
def lengthWidth (payloadLength : Nat) : Nat :=
  if payloadLength ≤ maxPayloadLengthWithoutExtendedLengthField then 0
  else if payloadLength ≤ 0xFFFF then 2
  else 8

variable (frame : WebSocketFrame)

def headerFirst : UInt8 :=
  (if frame.final then finalBit else 0) ||| (if frame.compress then compressBit else 0) |||
    frame.opCode

def headerSecond : UInt8 :=
  (if frame.masked then maskBit else 0) ||| UInt8.ofNat (lengthCode frame.payload.length)

/-- The written header is two flag bytes and a big-endian length field. -/
theorem frameHeader_eq :
    frameHeader frame = headerFirst frame :: headerSecond frame ::
      toBigEndian (lengthWidth frame.payload.length) frame.payload.length := by
  unfold frameHeader headerFirst headerSecond lengthCode lengthWidth
  by_cases hsm : frame.payload.length ≤ maxPayloadLengthWithoutExtendedLengthField
  · simp only [if_pos hsm, toBigEndian]
  · by_cases ht : frame.payload.length ≤ 0xFFFF
    · simp only [if_neg hsm, if_pos ht, ← twoByteLength_eq ht]
    · simp only [if_neg hsm, if_neg ht, fillExtendedLength_eq, append_nil,
        cons_append, nil_append]

theorem frameHeader_length : (frameHeader frame).length = 2 + lengthWidth frame.payload.length := by
  rw [frameHeader_eq, length_cons, length_cons, toBigEndian_length]
  omega

theorem lengthCode_le (length : Nat) : lengthCode length ≤ 127 := by
  unfold lengthCode maxPayloadLengthWithoutExtendedLengthField
    payloadLengthWithTwoByteExtendedLengthField payloadLengthWithEightByteExtendedLengthField
  split_ifs <;> omega

theorem headerSecond_length :
    (headerSecond frame &&& payloadLengthMask).toNat = lengthCode frame.payload.length :=
  (secondByte_fields frame.masked (lengthCode_le _)).1

theorem headerSecond_masked : (headerSecond frame &&& maskBit != 0) = frame.masked :=
  (secondByte_fields frame.masked (lengthCode_le _)).2

end

/-- The field in the second byte that gives the length or its form. -/
def lengthField (data : List UInt8) : Nat := (byteAt data 1 &&& payloadLengthMask).toNat

/-- The whole two-byte length field is present and a shorter form would do. -/
def LongTwoByteLength (data : List UInt8) : Prop :=
  lengthField data = payloadLengthWithTwoByteExtendedLengthField ∧ 4 ≤ data.length ∧
    ofBigEndian ((data.drop 2).take 2) ≤ maxPayloadLengthWithoutExtendedLengthField

/-- The whole eight-byte length field is present and a shorter form would do. -/
def LongEightByteLength (data : List UInt8) : Prop :=
  lengthField data = payloadLengthWithEightByteExtendedLengthField ∧ 10 ≤ data.length ∧
    ofBigEndian ((data.drop 2).take 8) ≤ 0xFFFF

/-- The whole eight-byte length field is present and its top bit is set. -/
def TopBitLength (data : List UInt8) : Prop :=
  lengthField data = payloadLengthWithEightByteExtendedLengthField ∧ 10 ≤ data.length ∧
    2 ^ 63 ≤ ofBigEndian ((data.drop 2).take 8)

theorem parsePayload_tooLarge (s : ParseState) (firstByte secondByte : UInt8) (p : Nat)
    {n} (h : 2 ^ 63 ≤ n) :
    parsePayload s firstByte secondByte p n =
      (.frameError, { s with errorString := tooLargeError n }) := by
  have hlr : n > maxPayloadLength := by unfold maxPayloadLength; omega
  simp [parsePayload, hlr]

variable {s : ParseState}

/-- A length of 126 or 127 is followed by a big-endian field; an available
field is checked before any payload byte is needed. -/
theorem parseFrame_extended {size}
    (hsz : size = 2 ∧ lengthField s.data = payloadLengthWithTwoByteExtendedLengthField ∨
      size = 8 ∧ lengthField s.data = payloadLengthWithEightByteExtendedLengthField)
    (hl : 2 + size ≤ s.data.length) :
    parseFrame s =
      let extended := ofBigEndian ((s.data.drop 2).take size)
      if size = 2 ∧ extended ≤ maxPayloadLengthWithoutExtendedLengthField then
        (.frameError, { s with errorString := minimalLengthError })
      else if size = 8 ∧ extended ≤ 0xFFFF then
        (.frameError, { s with errorString := minimalLengthError })
      else
        parsePayload s (byteAt s.data 0) (byteAt s.data 1) (2 + size) extended := by
  have hsh : ¬ s.data.length < 2 := by omega
  have hav : ¬ s.data.length - 2 < size := by omega
  have hrd := readExtendedLength_eq s.data 2 (show size ≤ 8 by omega)
  unfold lengthField at hsz
  have hex : (byteAt s.data 1 &&& payloadLengthMask).toNat >
      maxPayloadLengthWithoutExtendedLengthField := by
    rcases hsz with ⟨_, h⟩ | ⟨_, h⟩ <;> rw [h] <;> decide
  have hfr : (if (byteAt s.data 1 &&& payloadLengthMask).toNat =
      payloadLengthWithTwoByteExtendedLengthField then 2 else 8) = size := by
    rcases hsz with ⟨hs, h⟩ | ⟨hs, h⟩
    · rw [if_pos h, hs]
    · rw [h, hs]; rfl
  simp only [parseFrame, if_neg hsh, if_pos hex, hfr, if_neg hav, hrd]

theorem parseFrame_longTwoByteLength (h : LongTwoByteLength s.data) :
    parseFrame s = (.frameError, { s with errorString := minimalLengthError }) := by
  obtain ⟨hfl, hl, hv⟩ := h
  rw [parseFrame_extended (.inl ⟨rfl, hfl⟩) hl]
  simp [hv]

theorem parseFrame_longEightByteLength (h : LongEightByteLength s.data) :
    parseFrame s = (.frameError, { s with errorString := minimalLengthError }) := by
  obtain ⟨hfl, hl, hv⟩ := h
  rw [parseFrame_extended (.inr ⟨rfl, hfl⟩) hl]
  simp [hv]

theorem parseFrame_topBitLength (h : TopBitLength s.data) :
    parseFrame s = (.frameError,
      { s with errorString := tooLargeError (ofBigEndian ((s.data.drop 2).take 8)) }) := by
  obtain ⟨hfl, hl, hv⟩ := h
  have hln : ¬ ofBigEndian ((s.data.drop 2).take 8) ≤ 0xFFFF := by omega
  rw [parseFrame_extended (.inr ⟨rfl, hfl⟩) hl]
  simp only [hln, and_false, if_false, parsePayload_tooLarge _ _ _ _ hv]
  rfl

/-- A buffer that starts with a complete written header reaches the payload
part with the written length. -/
theorem parseFrame_header (frame : WebSocketFrame) {body}
    (hd : s.data = frameHeader frame ++ body) (hft : frame.payload.length ≤ maxPayloadLength) :
    parseFrame s = parsePayload s (headerFirst frame) (headerSecond frame)
      (2 + lengthWidth frame.payload.length) frame.payload.length := by
  have heq := frameHeader_eq frame
  have hf : byteAt s.data 0 = headerFirst frame := by simp [hd, heq, byteAt]
  have hsn : byteAt s.data 1 = headerSecond frame := by simp [hd, heq, byteAt]
  have hfl : lengthField s.data = lengthCode frame.payload.length := by
    rw [lengthField, hsn, headerSecond_length]
  have hl : 2 + lengthWidth frame.payload.length ≤ s.data.length := by
    rw [hd, length_append, frameHeader_length]
    omega
  have hrd : ofBigEndian ((s.data.drop 2).take (lengthWidth frame.payload.length)) =
      frame.payload.length % 256 ^ lengthWidth frame.payload.length := by
    rw [hd, heq, cons_append, cons_append, drop_succ_cons, drop_succ_cons, drop_zero,
      take_append_of_le_length (by simp), take_of_length_le (by simp), ofBigEndian_toBigEndian]
  by_cases hsm : frame.payload.length ≤ maxPayloadLengthWithoutExtendedLengthField
  · have hc : (headerSecond frame &&& payloadLengthMask).toNat = frame.payload.length := by
      rw [headerSecond_length, lengthCode, if_pos hsm]
    have hsh : ¬ s.data.length < 2 := by omega
    simp only [parseFrame, if_neg hsh, hf, hsn, hc, if_neg (not_lt.mpr hsm), lengthWidth,
      if_pos hsm, Nat.add_zero]
  · by_cases ht : frame.payload.length ≤ 0xFFFF
    · have hw : lengthWidth frame.payload.length = 2 := by
        rw [lengthWidth, if_neg hsm, if_pos ht]
      have hc : lengthField s.data = payloadLengthWithTwoByteExtendedLengthField := by
        rw [hfl, lengthCode, if_neg hsm, if_pos ht]
      rw [hw, Nat.mod_eq_of_lt (by omega)] at hrd
      rw [hw] at hl ⊢
      rw [parseFrame_extended (.inl ⟨rfl, hc⟩) hl]
      simp only [hrd, hsm, and_false, if_false, hf, hsn]
      rfl
    · have hw : lengthWidth frame.payload.length = 8 := by
        rw [lengthWidth, if_neg hsm, if_neg ht]
      have hc : lengthField s.data = payloadLengthWithEightByteExtendedLengthField := by
        rw [hfl, lengthCode, if_neg hsm, if_neg ht]
      unfold maxPayloadLength at hft
      rw [hw, Nat.mod_eq_of_lt (by omega)] at hrd
      rw [hw] at hl ⊢
      rw [parseFrame_extended (.inr ⟨rfl, hc⟩) hl]
      simp only [hrd, ht, and_false, if_false, hf, hsn]
      rfl

/-- A proper prefix of a written header is incomplete. -/
theorem parseFrame_headerPrefix (frame : WebSocketFrame) {n}
    (hd : s.data = (frameHeader frame).take n) (hn : n < (frameHeader frame).length) :
    parseFrame s = (.frameIncomplete, s) := by
  have hl : s.data.length = n := by rw [hd, length_take]; omega
  by_cases hsh : n < 2
  · simp only [parseFrame, hl, if_pos hsh]
  · have hsn : byteAt s.data 1 = headerSecond frame := by
      rw [hd, byteAt, getD_eq_getElem?_getD, getElem?_take_of_lt (by omega), frameHeader_eq]
      rfl
    rw [frameHeader_length] at hn
    have hfl := headerSecond_length frame
    have hlr : ¬ frame.payload.length ≤ maxPayloadLengthWithoutExtendedLengthField := by
      intro h
      rw [lengthWidth, if_pos h] at hn
      omega
    have hex : lengthCode frame.payload.length >
        maxPayloadLengthWithoutExtendedLengthField := by
      rw [lengthCode, if_neg hlr]
      split_ifs <;> decide
    have hfr : (if lengthCode frame.payload.length =
        payloadLengthWithTwoByteExtendedLengthField then 2 else 8) =
        lengthWidth frame.payload.length := by
      simp only [lengthCode, lengthWidth, if_neg hlr]
      split_ifs <;> first | rfl | contradiction
    have hms : n - 2 < lengthWidth frame.payload.length := by omega
    simp only [parseFrame, hl, if_neg hsh, hsn, hfl, if_pos hex, hfr, if_pos hms]

/-- The number of bytes between the header and the payload. -/
def maskingKeyLength (frame : WebSocketFrame) : Nat :=
  if frame.masked then maskingKeyWidthInBytes else 0

/-- The bytes of a frame, also where no vector can hold them. -/
def frameBytes (frame : WebSocketFrame) (key : MaskingKey) : List UInt8 :=
  if frame.masked then
    xorPayload (frameHeader frame ++ key.1 ++ frame.payload) (frameHeader frame ++ key.1).length
      (frameHeader frame).length frame.payload.length
  else frameHeader frame ++ frame.payload

/-- The header is followed by the key and the payload bytes, masked or not. -/
theorem frameBytes_eq (frame : WebSocketFrame) (key : MaskingKey) :
    ∃ body, frameBytes frame key = frameHeader frame ++ body ∧
      body.length = maskingKeyLength frame + frame.payload.length := by
  unfold frameBytes maskingKeyLength
  by_cases hm : frame.masked
  · rw [if_pos hm, if_pos hm]
    set start := (frameHeader frame ++ key.1).length with hst
    set masked := xorPayload (frameHeader frame ++ key.1 ++ frame.payload) start
      (frameHeader frame).length frame.payload.length with hmk
    have htk : masked.take (frameHeader frame).length = frameHeader frame := by
      have hle : (frameHeader frame).length ≤ start := by simp [hst]
      have h := congrArg (take (frameHeader frame).length)
        (xorPayload_take (frameHeader frame ++ key.1 ++ frame.payload) start
          (frameHeader frame).length frame.payload.length)
      rw [take_take, take_take, min_eq_left hle] at h
      rw [hmk, h, append_assoc, take_left]
    refine ⟨masked.drop (frameHeader frame).length, ?_, ?_⟩
    · rw [← take_append_drop (frameHeader frame).length masked, htk]
      simp
    · rw [length_drop, hmk, xorPayload_length]
      simp only [length_append, key.2]
      omega
  · rw [if_neg hm, if_neg hm]
    exact ⟨frame.payload, rfl, by omega⟩

theorem frameBytes_length (frame : WebSocketFrame) (key : MaskingKey) :
    (frameBytes frame key).length = 2 + lengthWidth frame.payload.length +
      maskingKeyLength frame + frame.payload.length := by
  obtain ⟨body, heq, hl⟩ := frameBytes_eq frame key
  rw [heq, length_append, frameHeader_length, hl]
  omega

/-- The number of bytes that a vector needs for a frame. -/
def encodedLength (frame : WebSocketFrame) : Nat :=
  2 + lengthWidth frame.payload.length + maskingKeyLength frame + frame.payload.length

/-- `makeFrameData` crashes exactly if the frame does not fit into a vector. -/
theorem makeFrameData_eq (frame : WebSocketFrame) (key : MaskingKey) :
    makeFrameData frame key =
      if encodedLength frame ≤ maxVectorCapacity then some (frameBytes frame key) else none := by
  have hh := frameHeader_length frame
  rw [makeFrameData, appendFramePayload, frameBytes, encodedLength, maskingKeyLength]
  by_cases hm : frame.masked
  · simp only [if_pos hm, append, length_append, hh, key.2]
    split_ifs <;> rfl
  · simp only [if_neg hm, append, hh, Nat.add_zero]

/-- After the header the parser waits until the key and the payload are there. -/
theorem parsePayload_incomplete (frame : WebSocketFrame) {p}
    (firstByte : UInt8) (hft : frame.payload.length ≤ maxPayloadLength)
    (hl : s.data.length < p + maskingKeyLength frame + frame.payload.length)
    (hp : p ≤ s.data.length) :
    parsePayload s firstByte (headerSecond frame) p frame.payload.length =
      (.frameIncomplete, s) := by
  unfold maskingKeyLength at hl
  have hky : (if frame.masked then maskingKeyWidthInBytes else 0) ≤ 4 := by
    split_ifs <;> decide
  have hlr : ¬ (frame.payload.length > maxPayloadLength ∨ frame.payload.length +
      (if frame.masked then maskingKeyWidthInBytes else 0) > sizeMax) := by
    unfold maxPayloadLength sizeMax at *
    omega
  have hms : s.data.length - p <
      (if frame.masked then maskingKeyWidthInBytes else 0) + frame.payload.length := by omega
  simp only [parsePayload, headerSecond_masked, if_neg hlr, if_pos hms]

/-- Unmasking a written frame restores the header, the key and the plain payload. -/
theorem unmask_frameBytes (g : WebSocketFrame) (key : MaskingKey) (rest : List UInt8) :
    ∃ pre, pre.length = 2 + lengthWidth g.payload.length + maskingKeyLength g ∧
      (if g.masked then xorPayload (frameBytes g key ++ rest)
          (2 + lengthWidth g.payload.length + maskingKeyWidthInBytes)
          (2 + lengthWidth g.payload.length) g.payload.length
        else frameBytes g key ++ rest) = pre ++ g.payload ++ rest := by
  have hh := frameHeader_length g
  by_cases hm : g.masked
  · refine ⟨frameHeader g ++ key.1, ?_, ?_⟩
    · rw [length_append, hh, key.2, maskingKeyLength, if_pos hm]
    · have hw : (frameHeader g ++ key.1).length =
          2 + lengthWidth g.payload.length + maskingKeyWidthInBytes := by
        rw [length_append, hh, key.2]
      have hfu : (frameHeader g ++ key.1 ++ g.payload).length =
          2 + lengthWidth g.payload.length + maskingKeyWidthInBytes + g.payload.length := by
        rw [length_append, hw]
      rw [if_pos hm, frameBytes, if_pos hm]
      simp only [hw, hh]
      rw [xorPayload_append _ _ le_rfl (by rw [xorPayload_length, hfu]),
        xorPayload_xorPayload _ le_rfl (by rw [hfu])]
  · refine ⟨frameHeader g, ?_, ?_⟩
    · rw [hh, maskingKeyLength, if_neg hm, Nat.add_zero]
    · rw [if_neg hm, frameBytes, if_neg hm]

/-- On a buffer that starts with a complete written frame the parser removes
the mask, reports the frame and stops at its end. -/
theorem parseFrame_frameBytes (f : OutgoingFrame) (key : MaskingKey) (rest : List UInt8)
    (frame : WebSocketFrame) (frameEnd : Nat) (errorString : String) :
    ∃ data, parseFrame ⟨frameBytes f.toWebSocketFrame key ++ rest, frame, frameEnd,
      errorString⟩ =
        (.frameOK, ⟨data, f.toWebSocketFrame, (frameBytes f.toWebSocketFrame key).length,
          errorString⟩) ∧
      data.drop (frameBytes f.toWebSocketFrame key).length = rest := by
  obtain ⟨g, hop, hr2, hr3, hft⟩ := f
  obtain ⟨body, heq, hl⟩ := frameBytes_eq g key
  simp only at hop hr2 hr3 hft ⊢
  have hst : (⟨frameBytes g key ++ rest, frame, frameEnd, errorString⟩ :
      ParseState).data = frameHeader g ++ (body ++ rest) := by
    rw [heq, append_assoc]
  have htt := frameBytes_length g key
  rw [parseFrame_header g hst hft]
  obtain ⟨ho, hfn, hcm, hbit2, hbit3⟩ :=
    firstByte_fields g.opCode g.final g.compress hop
  have hky : (if g.masked then maskingKeyWidthInBytes else 0) ≤ 4 := by split_ifs <;> decide
  have hlr : ¬ (g.payload.length > maxPayloadLength ∨ g.payload.length +
      (if g.masked then maskingKeyWidthInBytes else 0) > sizeMax) := by
    unfold maxPayloadLength sizeMax at *
    omega
  have hpr : ¬ (frameBytes g key ++ rest).length - (2 + lengthWidth g.payload.length) <
      (if g.masked then maskingKeyWidthInBytes else 0) + g.payload.length := by
    rw [length_append, htt, maskingKeyLength]
    omega
  simp only [parsePayload, headerSecond_masked, if_neg hlr, if_neg hpr]
  obtain ⟨pre, hbe, hbf⟩ := unmask_frameBytes g key rest
  set unmasked := if g.masked
    then xorPayload (frameBytes g key ++ rest)
      (2 + lengthWidth g.payload.length + maskingKeyWidthInBytes)
      (2 + lengthWidth g.payload.length) g.payload.length
    else frameBytes g key ++ rest
  refine ⟨unmasked, ?_, ?_⟩
  · have hpy : (unmasked.drop (2 + lengthWidth g.payload.length +
        if g.masked then maskingKeyWidthInBytes else 0)).take g.payload.length = g.payload := by
      rw [hbf, append_assoc]
      rw [maskingKeyLength] at hbe
      rw [← hbe, drop_left, take_left]
    have hreserved2 : (headerFirst g &&& reserved2Bit != 0) = g.reserved2 := by
      rw [headerFirst, hbit2, hr2]
      rfl
    have hreserved3 : (headerFirst g &&& reserved3Bit != 0) = g.reserved3 := by
      rw [headerFirst, hbit3, hr3]
      rfl
    rw [hpy, hreserved2, hreserved3]
    simp only [headerFirst, ho, hfn, hcm, htt, maskingKeyLength]
  · rw [htt, hbf, ← hbe, ← length_append, drop_left]

/-- A proper prefix of a written frame is reported incomplete and nothing is
written, so the same bytes can be parsed again when more have arrived. -/
theorem parseFrame_properPrefix (f : OutgoingFrame) (key : MaskingKey)
    (hpe : s.data <+: frameBytes f.toWebSocketFrame key)
    (hpp : s.data ≠ frameBytes f.toWebSocketFrame key) :
    parseFrame s = (.frameIncomplete, s) := by
  obtain ⟨body, heq, _⟩ := frameBytes_eq f.toWebSocketFrame key
  have htt := frameBytes_length f.toWebSocketFrame key
  have hlt : s.data.length < (frameBytes f.toWebSocketFrame key).length := by
    refine lt_of_le_of_ne hpe.length_le fun h => hpp (hpe.eq_of_length h)
  have htk := prefix_iff_eq_take.mp hpe
  rw [heq] at htk
  by_cases hh : s.data.length < (frameHeader f.toWebSocketFrame).length
  · rw [take_append_of_le_length hh.le] at htk
    exact parseFrame_headerPrefix f.toWebSocketFrame htk hh
  · rw [take_append, take_of_length_le (not_lt.mp hh)] at htk
    rw [parseFrame_header f.toWebSocketFrame htk f.payload_fits]
    rw [frameHeader_length] at hh
    exact parsePayload_incomplete f.toWebSocketFrame _ f.payload_fits (by omega) (by omega)

/-- The frame format round-trips under every chunking, if a vector can hold the frame. A
complete frame with any bytes after it is decoded and delimited exactly, a proper prefix
changes nothing, and a badly formed length is an error once its field is complete. -/
theorem parseFrame_chunking (f : OutgoingFrame) (key : MaskingKey)
    (hfits : encodedLength f.toWebSocketFrame ≤ maxVectorCapacity) :
    (∃ frameData, makeFrameData f.toWebSocketFrame key = some frameData ∧
      (∀ rest frame frameEnd errorString, ∃ data,
        parseFrame ⟨frameData ++ rest, frame, frameEnd, errorString⟩ =
          (.frameOK, ⟨data, f.toWebSocketFrame, frameData.length, errorString⟩) ∧
        data.drop frameData.length = rest) ∧
      ∀ s : ParseState, s.data <+: frameData → s.data ≠ frameData →
        parseFrame s = (.frameIncomplete, s)) ∧
    (∀ s : ParseState, LongTwoByteLength s.data ∨ LongEightByteLength s.data →
      parseFrame s = (.frameError, { s with errorString := minimalLengthError })) ∧
    (∀ s : ParseState, TopBitLength s.data → parseFrame s = (.frameError,
        { s with errorString := tooLargeError (ofBigEndian ((s.data.drop 2).take 8)) })) := by
  refine ⟨⟨frameBytes f.toWebSocketFrame key, ?_, parseFrame_frameBytes f key, ?_⟩, ?_, ?_⟩
  · rw [makeFrameData_eq, if_pos hfits]
  · intro s hpre hprop
    exact parseFrame_properPrefix f key hpre hprop
  · rintro s (h | h)
    · exact parseFrame_longTwoByteLength h
    · exact parseFrame_longEightByteLength h
  · intro s h
    exact parseFrame_topBitLength h

/-- A masked text frame, its first byte alone, and a buffer whose eight-byte
length field holds zero. -/
theorem parseFrame_chunking_text :
    let key : MaskingKey := ⟨[0x12, 0x34, 0x56, 0x78], rfl⟩
    let frame : WebSocketFrame := ⟨0x1, true, false, false, false, true, [0x68, 0x69]⟩
    let frameData := [0x81, 0x82, 0x12, 0x34, 0x56, 0x78, 0x7A, 0x5D]
    makeFrameData frame key = some frameData ∧
      (∃ data, parseFrame ⟨frameData ++ [0x81], frame, 0, ""⟩ =
        (.frameOK, ⟨data, frame, 8, ""⟩) ∧ data.drop 8 = [0x81]) ∧
      parseFrame ⟨[0x81], frame, 0, ""⟩ = (.frameIncomplete, ⟨[0x81], frame, 0, ""⟩) ∧
      (parseFrame ⟨[0x81, 0x7F, 0, 0, 0, 0, 0, 0, 0, 0], frame, 0, ""⟩).1 = .frameError := by
  intro key frame frameData
  obtain ⟨⟨made, hmade, hcomplete, hincpl⟩, hlong, _⟩ := parseFrame_chunking
    ⟨frame, by decide, rfl, rfl, by decide⟩ key (by decide)
  have hbytes : makeFrameData frame key = some frameData := by decide
  obtain rfl : frameData = made := Option.some.inj (hbytes.symm.trans hmade)
  refine ⟨hbytes, hcomplete [0x81] frame 0 "", hincpl _ (by decide) (by decide), ?_⟩
  rw [hlong _ (.inr ⟨by decide, by decide, by decide⟩)]

/-- A frame whose payload alone fills a vector. -/
def hugeFrame : OutgoingFrame where
  opCode := 0x2
  final := true
  compress := false
  reserved2 := false
  reserved3 := false
  masked := true
  payload := List.replicate maxVectorCapacity 0
  opCode_fits := by decide
  reserved2_unset := rfl
  reserved3_unset := rfl
  payload_fits := by
    rw [List.length_replicate]
    decide

/-- The header is one too many. -/
theorem makeFrameData_hugeFrame :
    makeFrameData hugeFrame.toWebSocketFrame ⟨[0x12, 0x34, 0x56, 0x78], rfl⟩ = none := by
  have hlength : hugeFrame.payload.length = maxVectorCapacity := List.length_replicate
  rw [makeFrameData_eq, if_neg]
  rw [encodedLength, hlength]
  omega

end QtWebKit.WebSockets
