import QtWebKit.ContentExtensions.DFABytecodeInterpreter
import QtWebKit.ContentExtensions.DFABytecodeLayout

/-!
# What the interpreter does at each block

At the location of a block in a program, one step of the interpreter appends the
action, follows an edge, skips the block or ends the automaton.
-/

namespace QtWebKit.ContentExtensions

open ByteOrder RelocatableCode CompilerState List Instruction Piece

namespace Interpreter

variable {bytecode : List UInt8} {flags : ResourceFlags} {domainActions : Option (List ActionWord)}
  {nodeStartOffsets : Nat → Option Nat} {loc : Nat} {block : Block Nat}
  {rest : List (Block Nat)}

/-! ### Reading the head of a block -/

theorem getBits_head (h : Holds (linkDistance nodeStartOffsets) bytecode loc (block :: rest))
    {k width} (hk : k + width ≤ block.head.length) :
    getBits bytecode (loc + k) width = ofLittleEndian ((block.head.drop k).take width) := by
  obtain ⟨pre, after, rfl, rfl⟩ := h.head
  rw [getBits, drop_length_add_append, drop_append_of_le_length (by omega),
    take_append_of_le_length (by rw [length_drop]; omega)]

theorem toNat_instructionByte {instr jsz} (hi : instr < 16) (hj : jsz < 16) :
    (instructionByte instr jsz).toNat = instr + 16 * jsz := by
  rw [instructionByte, UInt8.toNat_ofNat']
  omega

section

variable {instr jsz : Nat} {args : List UInt8}
  (h : Holds (linkDistance nodeStartOffsets) bytecode loc (block :: rest))
  (hh : block.head = instructionByte instr jsz :: args)
  (hi : instr < 16) (hj : jsz < 16)

include h hh hi hj

theorem getBits_instructionByte : getBits bytecode loc 1 = instr + 16 * jsz := by
  have hn : 0 + 1 ≤ block.head.length := by
    rw [hh]
    exact Nat.le_add_left 1 _
  have hb := getBits_head h hn
  rw [hh] at hb
  exact hb.trans (toNat_instructionByte hi hj)

theorem getInstruction_eq : getInstruction bytecode loc = instr := by
  rw [getInstruction, getBits_instructionByte h hh hi hj]
  omega

theorem getJumpSize_eq : getJumpSize bytecode loc = jsz := by
  rw [getJumpSize, getBits_instructionByte h hh hi hj]
  omega

end

/-! ### Actions -/

/-- An action is collected if its flags and its domain match. -/
def collect (flags : ResourceFlags) (domainActions : Option (List ActionWord))
    (actions : List ActionWord) (action : ActionWord) : List ActionWord :=
  if flagsMatch action.flags flags then addAction domainActions actions action else actions

theorem flagsMatch_zero (flags : ResourceFlags) : flagsMatch 0 flags = true := rfl

theorem ofNat_ofLittleEndian_location (act : ActionWord) (bs : List UInt8) :
    UInt32.ofNat (ofLittleEndian ((toLittleEndian 4 act.location.toNat ++ bs).take 4)) =
      act.location := by
  rw [take_left' (toLittleEndian_length 4 _), ofLittleEndian_toLittleEndian, Nat.mod_eq_of_lt (show
    act.location.toNat < 256 ^ 4 from act.location.toNat_lt), UInt32.ofNat_toNat]

theorem ofNat_ofLittleEndian_flags (act : ActionWord) (bs : List UInt8) :
    UInt16.ofNat (ofLittleEndian ((toLittleEndian 2 act.flags.toNat ++ bs).take 2)) =
      act.flags := by
  rw [take_left' (toLittleEndian_length 2 _), ofLittleEndian_toLittleEndian, Nat.mod_eq_of_lt (show
    act.flags.toNat < 256 ^ 2 from act.flags.toNat_lt), UInt16.ofNat_toNat]

/-- The instruction that appends an action. -/
def actionInstruction (action : ActionWord) : Nat :=
  if action.flags ≠ 0 then
    if action.ifDomain then Instruction.testFlagsAndAppendActionWithIfDomain
    else Instruction.testFlagsAndAppendAction
  else if action.ifDomain then Instruction.appendActionWithIfDomain
  else Instruction.appendAction

section

variable (flags domainActions) {act : ActionWord}
  (h : Holds (linkDistance nodeStartOffsets) bytecode loc (appendActionBlock act :: rest))

include h

theorem getInstruction_action : getInstruction bytecode loc = actionInstruction act := by
  have hh : ∃ args, (appendActionBlock act).head =
      instructionByte (actionInstruction act) 0 :: args := by
    rw [appendActionBlock, actionInstruction]
    split_ifs <;> exact ⟨_, rfl⟩
  obtain ⟨args, hh⟩ := hh
  refine getInstruction_eq h hh ?_ (by decide)
  rw [actionInstruction]
  split_ifs <;> decide

theorem interpretAppendAction_eq (hfl : act.flags = 0) (acts : List ActionWord) :
    interpretAppendAction bytecode domainActions loc acts act.ifDomain =
      (loc + 5, collect flags domainActions acts act) := by
  have hh : (appendActionBlock act).head =
      instructionByte (if act.ifDomain then appendActionWithIfDomain
        else appendAction) 0 :: toLittleEndian 4 act.location.toNat := by
    rw [appendActionBlock, if_neg (not_not.mpr hfl)]
  have hb : getBits bytecode (loc + 1) 4 =
      ofLittleEndian ((toLittleEndian 4 act.location.toNat ++ []).take 4) := by
    rw [getBits_head h (by rw [hh, length_cons, toLittleEndian_length]), hh,
      drop_one, tail_cons, append_nil]
  have hac : appendedAction bytecode loc act.ifDomain = act := by
    rw [appendedAction, hb, ofNat_ofLittleEndian_location, ← hfl]
  rw [interpretAppendAction, hac, collect, hfl, flagsMatch_zero, if_pos rfl]

theorem interpretTestFlagsAndAppendAction_eq (hfl : act.flags ≠ 0) (acts : List ActionWord) :
    interpretTestFlagsAndAppendAction bytecode flags domainActions loc acts act.ifDomain =
      (loc + 7, collect flags domainActions acts act) := by
  have hh : (appendActionBlock act).head =
      instructionByte (if act.ifDomain then testFlagsAndAppendActionWithIfDomain
        else testFlagsAndAppendAction) 0 ::
          (toLittleEndian 2 act.flags.toNat ++ toLittleEndian 4 act.location.toNat) := by
    rw [appendActionBlock, if_pos hfl]
  have hn : (appendActionBlock act).head.length = 7 := by
    rw [hh, length_cons, length_append, toLittleEndian_length, toLittleEndian_length]
  have hbt : getBits bytecode (loc + 1) 2 = ofLittleEndian
      ((toLittleEndian 2 act.flags.toNat ++ toLittleEndian 4 act.location.toNat).take 2) := by
    rw [getBits_head h (by omega), hh, drop_one, tail_cons]
  have hb : getBits bytecode (loc + 3) 4 =
      ofLittleEndian ((toLittleEndian 4 act.location.toNat ++ []).take 4) := by
    rw [getBits_head h (by omega), hh, drop_succ_cons,
      drop_left' (toLittleEndian_length 2 _), append_nil]
  rw [interpretTestFlagsAndAppendAction]
  simp only [hbt, hb, ofNat_ofLittleEndian_flags, ofNat_ofLittleEndian_location]
  rfl

/-- An action is collected and its block is skipped. -/
theorem step_action (url : List Nat) (after : Bool) (acts : List ActionWord) :
    step bytecode flags domainActions ⟨loc, url, after, acts⟩ =
      .next ⟨loc + (appendActionBlock act).size, url, after,
        collect flags domainActions acts act⟩ := by
  have hi := getInstruction_action h
  rw [size_appendActionBlock, appendActionBytecodeSize]
  by_cases hfl : act.flags = 0
  · have hr := interpretAppendAction_eq flags domainActions h hfl acts
    rw [actionInstruction, if_neg (not_not.mpr hfl)] at hi
    rw [if_neg (not_not.mpr hfl)]
    cases hdm : act.ifDomain with
    | false =>
      rw [hdm] at hr hi
      simp [step, hi, appendAction, State.appended, hr]
    | true =>
      rw [hdm] at hr hi
      simp [step, hi, appendActionWithIfDomain, State.appended, hr]
  · have hr := interpretTestFlagsAndAppendAction_eq flags domainActions h hfl acts
    rw [actionInstruction, if_pos hfl] at hi
    rw [if_pos hfl]
    cases hdm : act.ifDomain with
    | false =>
      rw [hdm] at hr hi
      simp [step, hi, testFlagsAndAppendAction, State.appended, hr]
    | true =>
      rw [hdm] at hr hi
      simp [step, hi, testFlagsAndAppendActionWithIfDomain, State.appended, hr]

end

/-! ### Edges -/

theorem emod_add_toInt32 (loc dest : Nat) (h : dest < 2147483647) :
    ((loc + toInt32 (dest - loc)) % 2 ^ 32).toNat = dest := by
  have hcn : toInt32 (dest - loc) % 2 ^ 32 = (dest - loc : Int) % 2 ^ 32 :=
    Int.bmod_emod
  rw [Int.add_emod, hcn, ← Int.add_emod, add_sub_cancel]
  omega

/-- A jump in a block leads to the start of its destination. -/
theorem takeEdge_eq (h : Holds (linkDistance nodeStartOffsets) bytecode loc (block :: rest))
    {k d} (hk : block.targets[k]? = some d) (url : List Nat) (after : Bool)
    (acts : List ActionWord) (char : Nat) :
    ∃ start, nodeStartOffsets d = some start ∧
      takeEdge bytecode ⟨loc, url, after, acts⟩ char
          (loc + block.head.length + k * block.width) block.width =
        ⟨start, url.tail, after || char = 0, acts⟩ := by
  obtain ⟨dist, hd, hrd⟩ := h.readSigned_target hk
  rw [linkDistance] at hd
  cases hst : nodeStartOffsets d with
  | none => rw [hst] at hd; cases hd
  | some start =>
    rw [hst] at hd
    simp only at hd
    split_ifs at hd with hf
    obtain rfl := Option.some.inj hd
    refine ⟨start, rfl, ?_⟩
    rw [takeEdge, hrd hf.2, emod_add_toInt32 loc start hf.1]

section

variable {instr jsz : Nat} {args dests : List Nat}
  (ho : 1 ≤ jsz) (hfr : jsz ≤ 4) (hi : instr < 16)
  (h : Holds (linkDistance nodeStartOffsets) bytecode loc (jumpBlock instr jsz args dests :: rest))

include hfr hi h

theorem getInstruction_branch : getInstruction bytecode loc = instr :=
  getInstruction_eq h rfl hi (by omega)

omit hfr hi in
/-- The arguments are single bytes. -/
theorem getBits_argument {k val} (hk : args[k]? = some val) (hv : val < 256) :
    getBits bytecode (loc + (k + 1)) 1 = val := by
  obtain ⟨hlt, hg⟩ := List.getElem?_eq_some_iff.mp hk
  have hn : k + 1 + 1 ≤ (jumpBlock instr jsz args dests).head.length := by
    rw [jumpBlock, List.length_cons, List.length_map]
    omega
  have hdr : (args.map UInt8.ofNat).drop k =
      UInt8.ofNat val :: (args.map UInt8.ofNat).drop (k + 1) := by
    rw [drop_eq_getElem_cons (by rw [length_map]; exact hlt), getElem_map, hg]
  rw [getBits_head h hn, jumpBlock, drop_succ_cons, hdr, take_succ_cons]
  rw [take_zero, ofLittleEndian, ofLittleEndian, UInt8.toNat_ofNat']
  omega

include ho

/-- A check that succeeds takes the edge of the character, any other check is skipped. -/
theorem interpretCheck_eq (url : List Nat) (acts : List ActionWord)
    (caseSensitive isTable : Bool) (low high : Nat) :
    interpretCheck bytecode ⟨loc, url, false, acts⟩ caseSensitive isTable args.length
        low high =
      if low ≤ foldCase caseSensitive (url.headD 0) ∧
        foldCase caseSensitive (url.headD 0) ≤ high then
        .next (takeEdge bytecode ⟨loc, url, false, acts⟩ (foldCase caseSensitive (url.headD 0))
          (loc + (args.length + 1) +
            (if isTable then foldCase caseSensitive (url.headD 0) - low else 0) * jsz) jsz)
      else
        .next ⟨loc + (args.length + 1) +
          jsz * (if isTable then high - low + 1 else 1), url, false, acts⟩ := by
  have hsz := getJumpSize_eq h rfl hi (by omega)
  have hjm : loc + 1 + args.length = loc + (args.length + 1) := by omega
  rw [interpretCheck]
  simp only [hsz, hjm, Bool.false_eq_true, if_false, foldCase]
  rw [if_neg (by omega)]
  cases isTable with
  | false => simp only [Bool.false_eq_true, if_false, Nat.zero_mul, Nat.add_zero]
  | true => simp only [if_true]

end

/-! ### The checks of a node -/

theorem foldCase_eq_zero (caseSensitive : Bool) (c : Nat) : foldCase caseSensitive c = 0 ↔
    c = 0 := by
  cases caseSensitive with
  | true => rfl
  | false =>
    rw [foldCase, if_neg Bool.false_ne_true, toASCIILower]
    by_cases hu : 65 ≤ c ∧ c ≤ 90
    · rw [if_pos hu]
      exact iff_of_false (by omega) (by omega)
    · rw [if_neg hu]

variable (bytecode flags domainActions nodeStartOffsets) in
/-- The block of a piece follows the edges of these ranges and skips all other
characters. -/
def Follows (piece : Piece) (ranges : List Range) : Prop :=
  ∀ jumpSize location rest url actions, 1 ≤ jumpSize → jumpSize ≤ 4 →
    Holds (linkDistance nodeStartOffsets) bytecode location (piece.block jumpSize :: rest) →
    (∀ d, (∃ range ∈ ranges, range.Leads (url.headD 0) d) → ∃ start,
      nodeStartOffsets d = some start ∧
      step bytecode flags domainActions ⟨location, url, false, actions⟩ =
        .next ⟨start, url.tail, url.headD 0 = 0, actions⟩) ∧
    ((¬∃ d, ∃ range ∈ ranges, range.Leads (url.headD 0) d) →
      step bytecode flags domainActions ⟨location, url, false, actions⟩ =
        .next ⟨location + (piece.block jumpSize).size, url, false, actions⟩) ∧
    step bytecode flags domainActions ⟨location, url, true, actions⟩ = .nextDFA actions

section

variable (flags domainActions) {jsz : Nat} {url : List Nat} {acts : List ActionWord}

theorem step_jumpTable {caseSensitive} (after : Bool)
    (h : getInstruction bytecode loc = jumpTableInstruction caseSensitive) :
    step bytecode flags domainActions ⟨loc, url, after, acts⟩ =
      interpretJumpTable bytecode ⟨loc, url, after, acts⟩ caseSensitive := by
  cases caseSensitive <;>
    simp [step, h, jumpTableInstruction, jumpTableCaseSensitive, jumpTableCaseInsensitive]

theorem step_checkValue {caseSensitive} (after : Bool)
    (h : getInstruction bytecode loc = checkValueInstruction caseSensitive) :
    step bytecode flags domainActions ⟨loc, url, after, acts⟩ =
      interpretCheckValue bytecode ⟨loc, url, after, acts⟩ caseSensitive := by
  cases caseSensitive <;>
    simp [step, h, checkValueInstruction, checkValueCaseSensitive, checkValueCaseInsensitive]

theorem step_checkValueRange {caseSensitive} (after : Bool)
    (h : getInstruction bytecode loc = checkValueRangeInstruction caseSensitive) :
    step bytecode flags domainActions ⟨loc, url, after, acts⟩ =
      interpretCheckValueRange bytecode ⟨loc, url, after, acts⟩ caseSensitive := by
  cases caseSensitive <;>
    simp only [step, h, checkValueRangeInstruction, Bool.false_eq_true, if_false, if_true,
      checkValueRangeCaseSensitive, checkValueRangeCaseInsensitive]

/-- A check after the end of the url ends the automaton. -/
theorem interpretCheck_after (caseSensitive isTable : Bool) (args low high : Nat) :
    interpretCheck bytecode ⟨loc, url, true, acts⟩ caseSensitive isTable args low high =
      .nextDFA acts := if_pos rfl

theorem follows_ofJumpTable {tbl : JumpTable} (hpr : tbl.Proper) (ha : tbl.max < 128) :
    Follows bytecode flags domainActions nodeStartOffsets (.ofJumpTable tbl)
      tbl.ranges := by
  intro jsz loc rest url acts ho hfr h
  have hi : jumpTableInstruction tbl.caseSensitive < 16 := by
    rw [jumpTableInstruction]
    split_ifs <;> decide
  have hle := hpr.le
  have hsz := hpr.size
  have hlw := getBits_argument h (k := 0) rfl (by omega)
  have hhg := getBits_argument h (k := 1) rfl (by omega)
  have hs (after) : step bytecode flags domainActions ⟨loc, url, after, acts⟩ =
      interpretCheck bytecode ⟨loc, url, after, acts⟩ tbl.caseSensitive true 2
        tbl.min tbl.max := by
    rw [step_jumpTable flags domainActions after (getInstruction_branch hfr hi h),
      interpretJumpTable]
    simp only [hlw, hhg]
  have hch := interpretCheck_eq ho hfr hi h url acts tbl.caseSensitive true tbl.min tbl.max
  simp only [List.length_cons, List.length_nil, if_true] at hch
  refine ⟨fun d hl => ?_, fun hno => ?_, ?_⟩
  · rw [JumpTable.leads_iff] at hl
    obtain ⟨hlt, -⟩ := List.getElem?_eq_some_iff.mp hl.2
    obtain ⟨start, hst, hed⟩ := takeEdge_eq h hl.2 url false acts
      (foldCase tbl.caseSensitive (url.headD 0))
    refine ⟨start, hst, ?_⟩
    rw [hs, hch, if_pos ⟨hl.1, by omega⟩]
    refine (congrArg Outcome.next hed).trans ?_
    simp [foldCase_eq_zero]
  · rw [hs, hch, if_neg]
    · simp only [ofJumpTable, block, jumpBlock, Block.size, length_cons, length_map,
        length_nil, Outcome.next.injEq, State.mk.injEq, and_self, and_true]
      rw [show tbl.max - tbl.min + 1 = tbl.destinations.length by omega]
      omega
    · rintro ⟨hmn, hmx⟩
      have hlt : foldCase tbl.caseSensitive (url.headD 0) - tbl.min <
          tbl.destinations.length := by omega
      refine hno ⟨tbl.destinations[foldCase tbl.caseSensitive (url.headD 0) - tbl.min], ?_⟩
      rw [JumpTable.leads_iff]
      exact ⟨hmn, getElem?_eq_getElem hlt⟩
  · rw [hs, interpretCheck_after]

theorem follows_ofRange {rng : Range} (hpr : rng.Proper) :
    Follows bytecode flags domainActions nodeStartOffsets (.ofRange rng) [rng] := by
  intro jsz loc rest url acts ho hfr h
  have hle := hpr.le
  have ha := hpr.ascii
  have hch : ∃ args instr, instr < 16 ∧ ofRange rng = .branch instr args [rng.destination] ∧
      ∀ after, step bytecode flags domainActions ⟨loc, url, after, acts⟩ =
        interpretCheck bytecode ⟨loc, url, after, acts⟩ rng.caseSensitive false
          args.length rng.min rng.max := by
    by_cases hsn : rng.min = rng.max
    · have hp : ofRange rng =
          .branch (checkValueInstruction rng.caseSensitive) [rng.min] [rng.destination] :=
        if_pos hsn
      have hi : checkValueInstruction rng.caseSensitive < 16 := by
        rw [checkValueInstruction]
        split_ifs <;> decide
      rw [hp] at h
      have hv := getBits_argument h (k := 0) rfl (by omega)
      refine ⟨_, _, hi, hp, fun after => ?_⟩
      rw [step_checkValue flags domainActions after (getInstruction_branch hfr hi h),
        interpretCheckValue]
      simp [hv, ← hsn]
    · have hp : ofRange rng =
          .branch (checkValueRangeInstruction rng.caseSensitive) [rng.min, rng.max]
            [rng.destination] :=
        if_neg hsn
      have hi : checkValueRangeInstruction rng.caseSensitive < 16 := by
        rw [checkValueRangeInstruction]
        split_ifs <;> decide
      rw [hp] at h
      have hlw := getBits_argument h (k := 0) rfl (by omega)
      have hhg := getBits_argument h (k := 1) rfl (by omega)
      refine ⟨_, _, hi, hp, fun after => ?_⟩
      rw [step_checkValueRange flags domainActions after (getInstruction_branch hfr hi h),
        interpretCheckValueRange]
      simp [hlw, hhg]
  obtain ⟨args, instr, hi, hp, hs⟩ := hch
  rw [hp] at h ⊢
  have hch := interpretCheck_eq ho hfr hi h url acts rng.caseSensitive false
    rng.min rng.max
  simp only [Bool.false_eq_true, if_false, Nat.zero_mul, Nat.add_zero, Nat.mul_one] at hch
  refine ⟨fun d hl => ?_, fun hno => ?_, ?_⟩
  · obtain ⟨rng', hm, hmn, hmx, rfl⟩ := hl
    obtain rfl := mem_singleton.mp hm
    obtain ⟨start, hst, hed⟩ := takeEdge_eq h (k := 0) rfl url false acts
      (foldCase rng'.caseSensitive (url.headD 0))
    refine ⟨start, hst, ?_⟩
    rw [hs, hch, if_pos ⟨hmn, hmx⟩]
    simp only [block, jumpBlock, length_cons, length_map, Nat.zero_mul, Nat.add_zero] at hed
    rw [hed, Bool.false_or]
    simp only [foldCase_eq_zero]
  · rw [hs, hch, if_neg]
    · simp [block, jumpBlock, Block.size, length_map, Nat.add_assoc]
    · rintro ⟨hmn, hmx⟩
      exact hno ⟨rng.destination, rng, mem_singleton_self rng, hmn, hmx, rfl⟩
  · rw [hs, interpretCheck_after]

end

/-! ### The end of a node -/

variable (flags domainActions) {jsz : Nat} {nodeTransitions : Transitions} {url : List Nat}
  {acts : List ActionWord}
  (ho : 1 ≤ jsz) (hfr : jsz ≤ 4)
  (h : Holds (linkDistance nodeStartOffsets) bytecode loc
    ((Piece.ofEnd nodeTransitions).block jsz :: rest))

include hfr h

/-- Without a fallback transition, or at or after the end of the url, the automaton ends. -/
theorem step_end {after}
    (he : nodeTransitions.useFallbackTransition = false ∨ url.headD 0 = 0 ∨ after = true) :
    step bytecode flags domainActions ⟨loc, url, after, acts⟩ = .nextDFA acts := by
  rw [Piece.ofEnd] at h
  split_ifs at h with hus
  · have hi := getInstruction_branch hfr (by decide) h
    simp only [step, hi, Instruction.jump, interpretJump]
    rw [if_pos (he.resolve_left (by rw [hus]; exact Bool.noConfusion))]
  · have hi := getInstruction_eq h rfl (by decide) (by decide)
    simp only [step, hi, Instruction.terminate]

include ho

theorem step_fallback (hus : nodeTransitions.useFallbackTransition = true) (hc : url.headD 0 ≠ 0) :
    ∃ start, nodeStartOffsets nodeTransitions.fallbackTransitionTarget = some start ∧
      step bytecode flags domainActions ⟨loc, url, false, acts⟩ =
        .next ⟨start, url.tail, url.headD 0 = 0, acts⟩ := by
  rw [ofEnd, if_pos hus] at h
  have hi := getInstruction_branch hfr (by decide) h
  have hsz := getJumpSize_eq h rfl (by decide) (by omega)
  obtain ⟨start, hst, hed⟩ := takeEdge_eq h (k := 0) rfl url false acts (url.headD 0)
  refine ⟨start, hst, ?_⟩
  simp only [block, jumpBlock, map_nil, length_singleton, Nat.zero_mul, Nat.add_zero,
    Bool.false_or] at hed
  simp only [step, hi, jump, interpretJump, hsz, hed]
  rw [if_neg (not_or.mpr ⟨hc, Bool.false_ne_true⟩), if_neg (by omega)]

end Interpreter

end QtWebKit.ContentExtensions
