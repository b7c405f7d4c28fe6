import QtWebKit.ContentExtensions.DFABytecodeCompiler

/-!
# The bytecode interpreter

The interpreter reads the url from left to right, starting at the root of each
automaton in the bytecode, and collects the actions whose flags match.

## Implementation notes

The url is the list of the characters from `urlIndex` on; at its end the
terminating `0` is read. Loops take a number of rounds; running out of rounds,
like a failed `RELEASE_ASSERT`, is `none`.
-/

namespace QtWebKit.ContentExtensions

open ByteOrder RelocatableCode

/-- The bits for first-party and third-party loads. -/
def loadTypeMask : ResourceFlags := 0x0C00

/-- The bits for the types of resources. -/
def resourceTypeMask : ResourceFlags := 0x03FF

/-- The test of `interpretTestFlagsAndAppendAction`. -/
def flagsMatch (flagsToCheck flags : ResourceFlags) : Bool :=
  let loadTypeFlags := flagsToCheck &&& loadTypeMask
  let resourceTypeFlags := flagsToCheck &&& resourceTypeMask
  (loadTypeFlags = 0 || loadTypeFlags &&& flags ≠ 0) &&
    (resourceTypeFlags = 0 || resourceTypeFlags &&& flags ≠ 0)

/-- An action for some domains has to be among the domain actions, any other must not. -/
def matchesDomain (action : ActionWord) (domainActions : List ActionWord) : Bool :=
  action.ifDomain == domainActions.contains action

namespace Interpreter

/-- The variables of the loop over the instructions. -/
structure State where
  programCounter : Nat
  url : List Nat
  urlIndexIsAfterEndOfString : Bool
  actions : List ActionWord
  deriving DecidableEq

/-- One round of the loop: an invalid instruction, `goto nextDFA`, or the next state. -/
inductive Outcome where
  | crash
  | nextDFA (actions : List ActionWord)
  | next (state : State)
  deriving DecidableEq

variable (bytecode : List UInt8) (flags : ResourceFlags) (domainActions : Option (List ActionWord))

/-- A number of the bytecode, little-endian. -/
def getBits (index width : Nat) : Nat := ofLittleEndian ((bytecode.drop index).take width)

/-- The low bits of an opcode byte. -/
def getInstruction (index : Nat) : Nat := getBits bytecode index 1 % 16

/-- The high bits of an opcode byte. -/
def getJumpSize (index : Nat) : Nat := getBits bytecode index 1 / 16

/-- `actions.add(action)`, if the domain matches. -/
def addAction (actions : List ActionWord) (action : ActionWord) : List ActionWord :=
  match domainActions with
  | none => actions.insert action
  | some domainActions => if matchesDomain action domainActions then actions.insert action
    else actions

/-- An action without flags. -/
def appendedAction (programCounter : Nat) (ifDomain : Bool) : ActionWord :=
  ⟨ifDomain, 0, UInt32.ofNat (getBits bytecode (programCounter + 1) 4)⟩

/-- The next instruction and the actions. -/
def interpretAppendAction (programCounter : Nat) (actions : List ActionWord) (ifDomain : Bool) :
    Nat × List ActionWord :=
  (programCounter + 5,
    addAction domainActions actions (appendedAction bytecode programCounter ifDomain))

/-- As `interpretAppendAction`, if the flags match. -/
def interpretTestFlagsAndAppendAction (programCounter : Nat) (actions : List ActionWord)
    (ifDomain : Bool) : Nat × List ActionWord :=
  let flagsToCheck := UInt16.ofNat (getBits bytecode (programCounter + 1) 2)
  let action : ActionWord :=
    ⟨ifDomain, flagsToCheck, UInt32.ofNat (getBits bytecode (programCounter + 3) 4)⟩
  (programCounter + 7,
    if flagsMatch flagsToCheck flags then addAction domainActions actions action else actions)

variable (state : State)

/-- Follow the jump stored at `jumpLocation`; this is an edge of the automaton. -/
def takeEdge (character jumpLocation jumpSize : Nat) : State :=
  { state with
    programCounter :=
      ((state.programCounter + readSigned bytecode jumpLocation jumpSize) % 2 ^ 32).toNat
    url := state.url.tail
    urlIndexIsAfterEndOfString := state.urlIndexIsAfterEndOfString || character = 0 }

/-- The instructions that compare the next character with a range of values: their
jumps follow `arguments` bytes, and with a jump table there is one for each value. -/
def interpretCheck (caseSensitive isTable : Bool) (arguments low high : Nat) : Outcome :=
  if state.urlIndexIsAfterEndOfString then .nextDFA state.actions
  else
    let jumpSize := getJumpSize bytecode state.programCounter
    let character := if caseSensitive then state.url.headD 0 else toASCIILower (state.url.headD 0)
    let jumps := state.programCounter + 1 + arguments
    if jumpSize < 1 ∨ 4 < jumpSize then .crash
    else if low ≤ character ∧ character ≤ high then
      .next (takeEdge bytecode state character
        (if isTable then jumps + (character - low) * jumpSize else jumps) jumpSize)
    else
      .next { state with
        programCounter := jumps + jumpSize * if isTable then high - low + 1 else 1 }

/-- Compares with one value. -/
def interpretCheckValue (caseSensitive : Bool) : Outcome :=
  let value := getBits bytecode (state.programCounter + 1) 1
  interpretCheck bytecode state caseSensitive false 1 value value

/-- Compares with the values between two bytes. -/
def interpretCheckValueRange (caseSensitive : Bool) : Outcome :=
  interpretCheck bytecode state caseSensitive false 2
    (getBits bytecode (state.programCounter + 1) 1) (getBits bytecode (state.programCounter + 2) 1)

/-- A jump for each value between two bytes. -/
def interpretJumpTable (caseSensitive : Bool) : Outcome :=
  interpretCheck bytecode state caseSensitive true 2
    (getBits bytecode (state.programCounter + 1) 1) (getBits bytecode (state.programCounter + 2) 1)

/-- A jump for every character but the end. -/
def interpretJump : Outcome :=
  if state.url.headD 0 = 0 ∨ state.urlIndexIsAfterEndOfString then .nextDFA state.actions
  else
    let jumpSize := getJumpSize bytecode state.programCounter
    if jumpSize < 1 ∨ 4 < jumpSize then .crash
    else
      .next (takeEdge bytecode state (state.url.headD 0) (state.programCounter + 1) jumpSize)

/-- The state behind an instruction that appends an action. -/
def State.appended (result : Nat × List ActionWord) : Outcome :=
  .next { state with programCounter := result.1, actions := result.2 }

/-- The instruction at the program counter. -/
def step : Outcome :=
  match getInstruction bytecode state.programCounter with
  | Instruction.checkValueCaseInsensitive => interpretCheckValue bytecode state false
  | Instruction.checkValueCaseSensitive => interpretCheckValue bytecode state true
  | Instruction.jumpTableCaseInsensitive => interpretJumpTable bytecode state false
  | Instruction.jumpTableCaseSensitive => interpretJumpTable bytecode state true
  | Instruction.checkValueRangeCaseInsensitive => interpretCheckValueRange bytecode state false
  | Instruction.checkValueRangeCaseSensitive => interpretCheckValueRange bytecode state true
  | Instruction.appendAction =>
    state.appended
      (interpretAppendAction bytecode domainActions state.programCounter state.actions false)
  | Instruction.appendActionWithIfDomain =>
    state.appended
      (interpretAppendAction bytecode domainActions state.programCounter state.actions true)
  | Instruction.testFlagsAndAppendAction =>
    state.appended (interpretTestFlagsAndAppendAction bytecode flags domainActions
      state.programCounter state.actions false)
  | Instruction.testFlagsAndAppendActionWithIfDomain =>
    state.appended (interpretTestFlagsAndAppendAction bytecode flags domainActions
      state.programCounter state.actions true)
  | Instruction.terminate => .nextDFA state.actions
  | Instruction.jump => interpretJump bytecode state
  | _ => .crash

/-- The loop over the instructions of one automaton. -/
def runDFA : Nat → State → Option (List ActionWord)
  | 0, _ => none
  | fuel + 1, state =>
    match step bytecode flags domainActions state with
    | .crash => none
    | .nextDFA actions => some actions
    | .next state => runDFA fuel state

/-- The loop over the actions of the first root, of which only those with flags
are appended. -/
def appendRootActions (dfaBytecodeLength : Nat) :
    Nat → Nat → List ActionWord → Option (Nat × List ActionWord)
  | 0, _, _ => none
  | fuel + 1, programCounter, actions =>
    if programCounter < dfaBytecodeLength then
      match getInstruction bytecode programCounter with
      | Instruction.appendAction =>
        appendRootActions dfaBytecodeLength fuel (programCounter + 5) actions
      | Instruction.appendActionWithIfDomain =>
        appendRootActions dfaBytecodeLength fuel (programCounter + 5) actions
      | Instruction.testFlagsAndAppendAction =>
        let result := interpretTestFlagsAndAppendAction bytecode flags domainActions
          programCounter actions false
        appendRootActions dfaBytecodeLength fuel result.1 result.2
      | Instruction.testFlagsAndAppendActionWithIfDomain =>
        let result := interpretTestFlagsAndAppendAction bytecode flags domainActions
          programCounter actions true
        appendRootActions dfaBytecodeLength fuel result.1 result.2
      | _ => some (programCounter, actions)
    else some (programCounter, actions)

/-- The loop over the automata. -/
def interpretFrom (url : List Nat) : Nat → Nat → List ActionWord → Option (List ActionWord)
  | 0, _, _ => none
  | fuel + 1, dfaStart, actions =>
    if dfaStart < bytecode.length then
      let dfaBytecodeLength := getBits bytecode dfaStart 4
      let start :=
        if dfaStart = 0 then
          appendRootActions bytecode flags domainActions dfaBytecodeLength fuel (dfaStart + 4)
            actions
        else some (dfaStart + 4, actions)
      start.bind fun (programCounter, actions) =>
        if dfaStart = 0 ∧ bytecode.length ≤ programCounter then some actions
        else
          (runDFA bytecode flags domainActions fuel ⟨programCounter, url, false, actions⟩).bind
            fun actions => interpretFrom url fuel (dfaStart + dfaBytecodeLength) actions
    else some actions

/-- All automata, from the first byte on. -/
def interpret (fuel : Nat) (url : List Nat) : Option (List ActionWord) :=
  interpretFrom bytecode flags domainActions url fuel 0 []

end Interpreter

end QtWebKit.ContentExtensions
