import QtWebKit.Lib.RelocatableCode
import QtWebKit.ContentExtensions.DFA

/-!
# The bytecode compiler

`compile` writes the nodes one after another, the root first. A node's code is
its actions, jump tables, checks of ranges, and a jump to the fallback target or
the end of the program. Jumps are written with the smallest width that is
certainly wide enough and are linked when all nodes have been written.

## Implementation notes

`uint32_t` and `int32_t` arithmetic on offsets is reduced modulo `2 ^ 32`. The
vector `destinations` is a function. A jump size is the number of its bytes,
which is also the number in the high half of the instruction byte.
-/

namespace QtWebKit.ContentExtensions

open ByteOrder RelocatableCode

/-- The entry of a character that no check has to lead anywhere. -/
def noDestination : Nat := maxUnsigned

/-! ### The transitions of a node -/

/-- A range of characters with one target. -/
structure Range where
  min : Nat
  max : Nat
  destination : Nat
  caseSensitive : Bool
  deriving DecidableEq, Repr

/-- Characters that follow one another, with a target for each. -/
structure JumpTable where
  min : Nat
  max : Nat
  caseSensitive : Bool
  destinations : List Nat
  deriving DecidableEq, Repr

/-- The checks of a node and what happens when none applies. -/
structure Transitions where
  jumpTables : List JumpTable
  ranges : List Range
  useFallbackTransition : Bool
  fallbackTransitionTarget : Nat
  deriving DecidableEq, Repr

/-- The transitions that are not left to the fallback transition, by character. -/
def destinationsOf (fallbackTarget : Option Nat) (transitions : List Transition) : Nat → Nat :=
  transitions.foldl (fun destinations transition =>
    if fallbackTarget = some transition.target then destinations
    else fun c => if transition.contains c then transition.target else destinations c)
    fun _ => noDestination

/-- The loop over the characters. -/
structure RangeState where
  destinations : Nat → Nat
  rangeMin : Option Nat
  ranges : List Range

/-- Every lower-case character has the destination of the upper-case range. -/
def isCaseInsensitive (destinations : Nat → Nat) (rangeMin rangeMax : Nat) : Bool :=
  65 ≤ rangeMin && rangeMax ≤ 90 &&
    (List.range' rangeMin (rangeMax + 1 - rangeMin)).all fun rangeIndex =>
      destinations rangeMin = destinations (toASCIILower rangeIndex)

/-- A range that ends in front of `i`. -/
def RangeState.endRange (state : RangeState) (rangeMin i : Nat) : RangeState :=
  let rangeMax := i - 1
  let destination := state.destinations rangeMin
  let destinations :=
    if isCaseInsensitive state.destinations rangeMin rangeMax then
      fun c => if toASCIILower rangeMin ≤ c ∧ c ≤ toASCIILower rangeMax then noDestination
        else state.destinations c
    else state.destinations
  let range : Range :=
    if isCaseInsensitive state.destinations rangeMin rangeMax then
      ⟨toASCIILower rangeMin, toASCIILower rangeMax, destination, false⟩
    else ⟨rangeMin, rangeMax, destination, true⟩
  ⟨destinations, if destinations i = noDestination then none else some i, state.ranges ++ [range]⟩

/-- A round of the loop: a range starts, goes on or ends. -/
def RangeState.step (state : RangeState) (i : Nat) : RangeState :=
  match state.rangeMin with
  | some rangeMin =>
    if state.destinations i ≠ state.destinations rangeMin then state.endRange rangeMin i else state
  | none =>
    if state.destinations i ≠ noDestination then { state with rangeMin := some i } else state

/-- A range that goes to the last character is still pending after the loop. -/
def RangeState.finish (state : RangeState) : List Range :=
  match state.rangeMin with
  | some rangeMin => state.ranges ++ [⟨rangeMin, 127, state.destinations rangeMin, true⟩]
  | none => state.ranges

/-- The ranges of characters with the same target. -/
def rangesOf (destinations : Nat → Nat) : List Range :=
  ((List.range 128).foldl RangeState.step ⟨destinations, none, []⟩).finish

/-! ### Jump tables -/

/-- The loop over the ranges, with the position where single characters started. -/
structure TableState where
  ranges : List Range
  rangePosition : Nat
  baseRangePosition : Option Nat
  jumpTables : List JumpTable

/-- A range for positions behind the end, which are not read. -/
def dummyRange : Range := ⟨0, 0, noDestination, true⟩

/-- Makes a jump table of the ranges from the first to the last position. -/
def extractJumpTable (state : TableState) (firstRange lastRange : Nat) : TableState :=
  let size := lastRange - firstRange + 1
  { state with
    jumpTables := state.jumpTables ++
      [⟨(state.ranges.getD firstRange dummyRange).min, (state.ranges.getD lastRange dummyRange).max,
        (state.ranges.getD lastRange dummyRange).caseSensitive,
        ((state.ranges.drop firstRange).take size).map Range.destination⟩]
    ranges := state.ranges.take firstRange ++ state.ranges.drop (firstRange + size) }

/-- A round of the loop: a run of single characters starts, goes on or ends. -/
def TableState.step (state : TableState) : TableState :=
  let range := state.ranges.getD state.rangePosition dummyRange
  match state.baseRangePosition with
  | some base =>
    if range.min ≠ range.max ∨
        (state.ranges.getD base dummyRange).caseSensitive ≠ range.caseSensitive ∨
        (state.ranges.getD (state.rangePosition - 1) dummyRange).max + 1 ≠ range.min then
      if state.rangePosition - base > 1 then
        { extractJumpTable state base (state.rangePosition - 1) with
          rangePosition := base + 1
          baseRangePosition := none }
      else { state with rangePosition := state.rangePosition + 1, baseRangePosition := none }
    else { state with rangePosition := state.rangePosition + 1 }
  | none =>
    if range.min = range.max then
      { state with
        rangePosition := state.rangePosition + 1
        baseRangePosition := some state.rangePosition }
    else { state with rangePosition := state.rangePosition + 1 }

/-- Every round brings the position one step closer to the end of the vector. -/
def TableState.run : Nat → TableState → TableState
  | 0, state => state
  | n + 1, state => if state.rangePosition < state.ranges.length then run n state.step else state

/-- Two or more single characters in a row become a jump table. -/
def extractJumpTables (ranges : List Range) : List JumpTable × List Range :=
  let state := TableState.run ranges.length ⟨ranges, 0, none, []⟩
  match state.baseRangePosition with
  | some base =>
    if state.ranges.length - base > 1 then
      let state := extractJumpTable state base (state.ranges.length - 1)
      (state.jumpTables, state.ranges)
    else (state.jumpTables, state.ranges)
  | none => (state.jumpTables, state.ranges)

/-- The destinations of a node that its checks have to lead to. -/
def checkedDestinations (node : DFANode) : Nat → Nat :=
  destinationsOf
    (if node.canUseFallbackTransition then some node.bestFallbackTarget else none) node.transitions

/-- The jump tables, ranges and fallback transition of a node. -/
def transitions (node : DFANode) : Transitions :=
  let extracted := extractJumpTables (rangesOf (checkedDestinations node))
  { jumpTables := extracted.1
    ranges := extracted.2
    useFallbackTransition := node.canUseFallbackTransition
    fallbackTransitionTarget :=
      if node.canUseFallbackTransition then node.bestFallbackTarget else maxUnsigned }

/-! ### Instructions -/

namespace Instruction

/-- Jump if the character is the value in either case. -/
@[match_pattern] def checkValueCaseInsensitive : Nat := 0x0

/-- Jump if the character is the value. -/
@[match_pattern] def checkValueCaseSensitive : Nat := 0x1

/-- Jump to the entry of the character in either case. -/
@[match_pattern] def jumpTableCaseInsensitive : Nat := 0x2

/-- Jump to the entry of the character. -/
@[match_pattern] def jumpTableCaseSensitive : Nat := 0x3

/-- Jump if the character is in the range in either case. -/
@[match_pattern] def checkValueRangeCaseInsensitive : Nat := 0x4

/-- Jump if the character is in the range. -/
@[match_pattern] def checkValueRangeCaseSensitive : Nat := 0x5

/-- Add an action. -/
@[match_pattern] def appendAction : Nat := 0x6

/-- Add an action with a domain condition. -/
@[match_pattern] def appendActionWithIfDomain : Nat := 0x7

/-- Add an action if the flags match. -/
@[match_pattern] def testFlagsAndAppendAction : Nat := 0x8

/-- Add an action with a domain condition if the flags match. -/
@[match_pattern] def testFlagsAndAppendActionWithIfDomain : Nat := 0x9

/-- End the automaton. -/
@[match_pattern] def terminate : Nat := 0xA

/-- Jump on any character. -/
@[match_pattern] def jump : Nat := 0xB

end Instruction

/-- The instruction in the low half and the jump size in the high half of a byte. -/
def instructionByte (instruction jumpSize : Nat) : UInt8 :=
  UInt8.ofNat (instruction + 16 * jumpSize)

/-- The value of a 32-bit difference. -/
def toInt32 (n : Int) : Int := Int.bmod n (2 ^ 32)

/-- The fewest bytes that hold the distance. -/
def smallestPossibleJumpSize (longestPossibleJump : Int) : Nat :=
  if longestPossibleJump ≤ 127 ∧ longestPossibleJump ≥ -128 then 1
  else if longestPossibleJump ≤ 32767 ∧ longestPossibleJump ≥ -32768 then 2
  else if longestPossibleJump ≤ 8388607 ∧ longestPossibleJump ≥ -8388608 then 3
  else 4

/-- The size of the instruction that adds an action. -/
def appendActionBytecodeSize (action : ActionWord) : Nat := if action.flags ≠ 0 then 7 else 5

/-- The instruction that adds an action; its flags are tested if it has any. -/
def appendActionBlock (action : ActionWord) : Block Nat :=
  if action.flags ≠ 0 then
    ⟨instructionByte (if action.ifDomain then Instruction.testFlagsAndAppendActionWithIfDomain
        else Instruction.testFlagsAndAppendAction) 0 ::
      (toLittleEndian 2 action.flags.toNat ++ toLittleEndian 4 action.location.toNat), 0, []⟩
  else
    ⟨instructionByte (if action.ifDomain then Instruction.appendActionWithIfDomain
        else Instruction.appendAction) 0 :: toLittleEndian 4 action.location.toNat, 0, []⟩

/-- The instruction that ends the automaton. -/
def terminateBlock : Block Nat := ⟨[instructionByte Instruction.terminate 0], 0, []⟩

/-- An instruction with arguments and jumps. -/
def jumpBlock (instruction jumpSize : Nat) (arguments : List Nat) (destinations : List Nat) :
    Block Nat :=
  ⟨instructionByte instruction jumpSize :: arguments.map UInt8.ofNat, jumpSize, destinations⟩

/-- The instruction of a jump table. -/
def jumpTableInstruction (caseSensitive : Bool) : Nat :=
  if caseSensitive then Instruction.jumpTableCaseSensitive else Instruction.jumpTableCaseInsensitive

/-- The instruction that checks one value. -/
def checkValueInstruction (caseSensitive : Bool) : Nat :=
  if caseSensitive then Instruction.checkValueCaseSensitive
    else Instruction.checkValueCaseInsensitive

/-- The instruction that checks a range of values. -/
def checkValueRangeInstruction (caseSensitive : Bool) : Nat :=
  if caseSensitive then Instruction.checkValueRangeCaseSensitive
  else Instruction.checkValueRangeCaseInsensitive

/-! ### Sizes without compaction -/

/-- A jump table with four bytes for each entry. -/
def checkForJumpTableMaxBytecodeSize (jumpTable : JumpTable) : Nat :=
  3 + (jumpTable.max - jumpTable.min + 1) * 4

/-- A check with four bytes for its jump. -/
def checkForRangeMaxBytecodeSize (range : Range) : Nat := if range.min = range.max then 6 else 7

/-- All checks of a node and the instruction behind them. -/
def nodeTransitionsMaxBytecodeSize (node : DFANode) : Nat :=
  ((transitions node).jumpTables.map checkForJumpTableMaxBytecodeSize).sum +
    ((transitions node).ranges.map checkForRangeMaxBytecodeSize).sum +
    if (transitions node).useFallbackTransition then 5 else 1

/-- The size of the actions of a node, which is exact. -/
def actionsBytecodeSize (node : DFANode) : Nat :=
  (node.actions.map appendActionBytecodeSize).sum

/-- The largest size that the code of a node can have. -/
def compiledNodeMaxBytecodeSize (node : DFANode) : Nat :=
  if node.isKilled then 0 else actionsBytecodeSize node + nodeTransitionsMaxBytecodeSize node

/-- `nextIndex` in front of round `index` of the loop over the nodes. -/
def nextIndex (dfa : DFA) : Nat → Nat
  | 0 => 4 + compiledNodeMaxBytecodeSize (dfa.node dfa.root)
  | index + 1 =>
    nextIndex dfa index +
      if index = dfa.root then 0 else compiledNodeMaxBytecodeSize (dfa.node index)

/-- The offset of a node if no jump before it is made smaller. -/
def maxNodeStartOffset (dfa : DFA) (index : Nat) : Nat :=
  if index = dfa.root then 4 + actionsBytecodeSize (dfa.node dfa.root) else nextIndex dfa index

/-! ### The compiler -/

/-- The code with its unlinked jumps, and where the nodes start that have been written. -/
structure CompilerState where
  code : Code Nat
  nodeStartOffsets : Nat → Option Nat

namespace CompilerState

variable (dfa : DFA)

variable (state : CompilerState)

/-- The distance to a node that was written, or a bound for it. -/
def longestPossibleJump (instructionLocation sourceNodeIndex destinationNodeIndex : Nat) : Int :=
  match state.nodeStartOffsets destinationNodeIndex with
  | none =>
    toInt32 (maxNodeStartOffset dfa destinationNodeIndex - maxNodeStartOffset dfa sourceNodeIndex -
      ((state.nodeStartOffsets sourceNodeIndex).getD maxUnsigned - instructionLocation : Int))
  | some destination => toInt32 (destination - instructionLocation)

/-- Writes an instruction. -/
def emit (block : Block Nat) : CompilerState :=
  { state with code := state.code.emit block }

/-- The instructions with one jump. -/
def emitBranch (sourceNodeIndex destinationNodeIndex instruction : Nat)
    (arguments : List Nat) : CompilerState :=
  let instructionLocation := state.code.bytes.length
  let jumpSize := smallestPossibleJumpSize
    (state.longestPossibleJump dfa instructionLocation sourceNodeIndex destinationNodeIndex)
  state.emit (jumpBlock instruction jumpSize arguments [destinationNodeIndex])

/-- Writes a jump to a node. -/
def emitJump (sourceNodeIndex destinationNodeIndex : Nat) : CompilerState :=
  state.emitBranch dfa sourceNodeIndex destinationNodeIndex Instruction.jump []

/-- Writes the check of one value. -/
def emitCheckValue (value sourceNodeIndex destinationNodeIndex : Nat)
    (caseSensitive : Bool) : CompilerState :=
  state.emitBranch dfa sourceNodeIndex destinationNodeIndex (checkValueInstruction caseSensitive)
    [value]

/-- Writes the check of a range of values. -/
def emitCheckValueRange
    (lowValue highValue sourceNodeIndex destinationNodeIndex : Nat) (caseSensitive : Bool) :
    CompilerState :=
  state.emitBranch dfa sourceNodeIndex destinationNodeIndex
    (checkValueRangeInstruction caseSensitive) [lowValue, highValue]

/-- Writes a jump table, whose jumps all have the largest size that one of them needs. -/
def compileJumpTable (nodeIndex : Nat) (state : CompilerState) (jumpTable : JumpTable) :
    CompilerState :=
  let instructionLocation := state.code.bytes.length
  let jumpSize := jumpTable.destinations.foldl (fun jumpSize destinationNodeIndex =>
    max jumpSize (smallestPossibleJumpSize
      (state.longestPossibleJump dfa instructionLocation nodeIndex destinationNodeIndex))) 1
  state.emit (jumpBlock (jumpTableInstruction jumpTable.caseSensitive) jumpSize
    [jumpTable.min, jumpTable.max] jumpTable.destinations)

/-- Writes the check of a range, which may be a single value. -/
def compileCheckForRange (nodeIndex : Nat) (state : CompilerState) (range : Range) :
    CompilerState :=
  if range.min = range.max then
    state.emitCheckValue dfa range.min nodeIndex range.destination range.caseSensitive
  else
    state.emitCheckValueRange dfa range.min range.max nodeIndex range.destination
      range.caseSensitive

/-- Writes the jump tables, the checks and the instruction behind them. -/
def compileNodeTransitions (nodeIndex : Nat) : CompilerState :=
  let nodeTransitions := transitions (dfa.node nodeIndex)
  let state := nodeTransitions.jumpTables.foldl (compileJumpTable dfa nodeIndex) state
  let state := nodeTransitions.ranges.foldl (compileCheckForRange dfa nodeIndex) state
  if nodeTransitions.useFallbackTransition then
    state.emitJump dfa nodeIndex nodeTransitions.fallbackTransitionTarget
  else state.emit terminateBlock

/-- Records where the code of a node starts. -/
def recordStart (index : Nat) : CompilerState :=
  { state with
    nodeStartOffsets := fun i =>
      if i = index then some state.code.bytes.length else state.nodeStartOffsets i }

/-- Writes the actions of a node. -/
def emitActions (actions : List ActionWord) : CompilerState :=
  actions.foldl (fun state action => state.emit (appendActionBlock action)) state

/-- The root's start is recorded behind its actions, so that a jump to the root
does not add them again. -/
def compileNode (index : Nat) : CompilerState :=
  let node := dfa.node index
  if node.isKilled then state
  else if index = dfa.root then
    ((state.emitActions node.actions).recordStart index).compileNodeTransitions dfa index
  else
    ((state.recordStart index).emitActions node.actions).compileNodeTransitions dfa index

/-- The root comes first. -/
def nodeOrder : List Nat :=
  dfa.root :: (List.range dfa.nodes.length).filter fun index => index ≠ dfa.root

/-- All nodes behind the length of the bytecode, which is written at the end. -/
def compileNodes : CompilerState :=
  (nodeOrder dfa).foldl (compileNode dfa) ⟨⟨[0, 0, 0, 0], []⟩, fun _ => none⟩

/-- The distance that a link record stores, unless an assertion fails. -/
def linkDistance (nodeStartOffsets : Nat → Option Nat)
    (destinationNodeIndex instructionLocation jumpSize : Nat) : Option Int :=
  match nodeStartOffsets destinationNodeIndex with
  | none => none
  | some destination =>
    let distance := toInt32 (destination - instructionLocation)
    if destination < 2147483647 ∧ Int.bmod distance (256 ^ jumpSize) = distance then some distance
    else none

end CompilerState

/-- The bytecode, unless an assertion fails when it is linked. -/
def compile (dfa : DFA) : Option (List UInt8) :=
  let state := CompilerState.compileNodes dfa
  if state.code.bytes.length ≤ maxUnsigned then
    (state.code.link (CompilerState.linkDistance state.nodeStartOffsets)).bind fun bytecode =>
      Code.setBits bytecode 0 (toLittleEndian 4 bytecode.length)
  else none

end QtWebKit.ContentExtensions
