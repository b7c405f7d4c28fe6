import QtWebKit.Lib.ForwardFlow

/-!
# Obvious spills

After register allocation a forward analysis tracks which registers and spill slots hold a
constant and which registers match a spill slot. A use of a spill slot is then replaced by
a register or an immediate with the same bits.

## Implementation notes

The three vectors of a state are one list of aliases, and a block without a state was not
visited. A register or slot holds 64 bits, of which a four-byte slot has the lower half.
The forms that instructions and immediates can have are parameters.
-/

namespace QtWebKit.B3.Air

open List Option Function

/-- Registers are numbered. -/
abbrev Reg := Nat

/-- A stack slot; only spill slots are looked at. -/
structure StackSlot where
  index : Nat
  byteSize : Nat
  isSpill : Bool
  deriving DecidableEq

/-- How many bits of an argument an instruction uses or defines. -/
inductive Width where
  | width8 | width16 | width32 | width64
  deriving DecidableEq

/-- The number of bytes of a width. -/
def Width.bytes : Width → Nat
  | .width8 => 1
  | .width16 => 2
  | .width32 => 4
  | .width64 => 8

/-- What an instruction does with an argument, and when. -/
inductive Role where
  | Use | ColdUse | LateUse | LateColdUse | Def | ZDef | UseDef | UseZDef | EarlyDef | Scratch
    | UseAddr
  deriving DecidableEq

/-- The argument is read before the instruction writes anything. -/
def Role.isEarlyUse : Role → Bool
  | .Use | .ColdUse | .UseDef | .UseZDef => true
  | _ => false

/-- The argument is written, early or late. -/
def Role.isAnyDef : Role → Bool
  | .Def | .UseDef | .ZDef | .UseZDef | .EarlyDef | .Scratch => true
  | _ => false

/-- The kinds of immediates, which say how large they can be. -/
inductive ImmKind where
  | imm | bigImm | bitImm | bitImm64
  deriving DecidableEq

/-- The arguments that are neither registers, immediates nor stack slots are not looked at. -/
inductive Arg where
  | reg (reg : Reg)
  | imm (kind : ImmKind) (value : BitVec 64)
  | stack (slot : StackSlot)
  | other (index : Nat)
  deriving DecidableEq

/-- An argument of an instruction with what the opcode does with it. -/
structure Operand where
  arg : Arg
  role : Role
  width : Width
  deriving DecidableEq

/-- The moves that the analysis knows, and the other opcodes. -/
inductive Opcode where
  | Move | Move32 | MoveFloat | MoveDouble
  | other (index : Nat)
  deriving DecidableEq

/-- An instruction, with the registers that it clobbers beside its operands. -/
structure Inst where
  opcode : Opcode
  operands : List Operand
  extraClobberedRegs : List Reg
  deriving DecidableEq

/-- The argument, if it is defined. -/
def Operand.def? (operand : Operand) : Option Arg :=
  if operand.role.isAnyDef then some operand.arg else none

/-- Everything that the instruction defines or clobbers. -/
def Inst.defs (inst : Inst) : List Arg :=
  inst.operands.filterMap Operand.def? ++ inst.extraClobberedRegs.map Arg.reg

namespace FixObviousSpills

/-- How a register matches a slot. -/
inductive Mode where
  | allBits
  /-- The register contains the zero-extended contents of the slot. -/
  | zExt32
  /-- The low 32 bits of the register match those of the slot. -/
  | match32
  deriving DecidableEq

/-- The three kinds of facts that are recorded. -/
inductive Alias where
  | regConst (reg : Reg) (constant : BitVec 64)
  | regSlot (reg : Reg) (slot : StackSlot) (mode : Mode)
  | slotConst (slot : StackSlot) (constant : BitVec 64)
  deriving DecidableEq

/-- What is known at a point of the code. -/
abbrev State := List Alias

/-! ### Looking aliases up -/

/-- The constant of a register. -/
def Alias.regConst? (reg : Reg) : Alias → Option (BitVec 64)
  | .regConst other constant => if other = reg then some constant else none
  | _ => none

/-- The constant of a slot. -/
def Alias.slotConst? (slot : StackSlot) : Alias → Option (BitVec 64)
  | .slotConst other constant => if other = slot then some constant else none
  | _ => none

/-- A register that matches the slot, with the mode. -/
def Alias.regSlot? (slot : StackSlot) : Alias → Option (Reg × Mode)
  | .regSlot reg other mode => if other = slot then some (reg, mode) else none
  | _ => none

/-- The mode in which the register matches the slot. -/
def Alias.mode? (reg : Reg) (slot : StackSlot) : Alias → Option Mode
  | .regSlot reg' slot' mode => if reg' = reg ∧ slot' = slot then some mode else none
  | _ => none

/-- The constant that is known for an argument. -/
def constantFor (state : State) : Arg → Option (BitVec 64)
  | .reg reg => state.findSome? (Alias.regConst? reg)
  | .stack slot => state.findSome? (Alias.slotConst? slot)
  | _ => none

/-! ### Executing an instruction -/

/-- The alias is about the argument. -/
def Alias.mentions : Arg → Alias → Bool
  | .reg reg, .regConst other _ => other = reg
  | .reg reg, .regSlot other _ _ => other = reg
  | .stack slot, .slotConst other _ => other = slot
  | .stack slot, .regSlot _ other _ => other = slot
  | _, _ => false

/-- Forgets what was known about an argument. -/
def clobber (state : State) (arg : Arg) : State :=
  state.filter fun fact => !fact.mentions arg

/-- The lower half, as an unsigned 32-bit integer. -/
def uint32 (value : BitVec 64) : BitVec 64 := (value.setWidth 32).setWidth 64

/-- The lower half, as a signed 32-bit integer. -/
def int32 (value : BitVec 64) : BitVec 64 := (value.setWidth 32).signExtend 64

/-- What a move tells about its destination: the constants, if it tracks them, for an
immediate, a load and a store, and how the register matches the slot. -/
structure MoveRule where
  imm : BitVec 64 → Option (BitVec 64)
  load : BitVec 64 → Option (BitVec 64)
  store : BitVec 64 → Option (BitVec 64)
  loadMode : Mode
  storeMode : Mode

/-- The constant of a 32-bit store is sign-extended, that of a 32-bit immediate is not. -/
def moveRule : Opcode → Option MoveRule
  | .Move => some ⟨some, some, some, .allBits, .allBits⟩
  | .Move32 => some ⟨some ∘ uint32, some ∘ uint32, some ∘ int32, .zExt32, .match32⟩
  | .MoveFloat => some ⟨fun _ => none, fun _ => none, fun _ => none, .match32, .match32⟩
  | .MoveDouble => some ⟨fun _ => none, fun _ => none, fun _ => none, .allBits, .allBits⟩
  | .other _ => none

/-- The aliases that a move of the first argument to the second adds. -/
def MoveRule.aliases (rule : MoveRule) (state : State) : Arg → Arg → List Alias
  | .imm _ value, .reg reg => ((rule.imm value).map (Alias.regConst reg)).toList
  | .imm _ value, .stack slot =>
    if slot.isSpill then ((rule.imm value).map (Alias.slotConst slot)).toList else []
  | .stack slot, .reg reg =>
    if slot.isSpill then
      (((constantFor state (.stack slot)).bind rule.load).map (Alias.regConst reg)).toList ++
        [.regSlot reg slot rule.loadMode]
    else []
  | .reg reg, .stack slot =>
    if slot.isSpill then
      (((constantFor state (.reg reg)).bind rule.store).map (Alias.slotConst slot)).toList ++
        [.regSlot reg slot rule.storeMode]
    else []
  | _, _ => []

/-- The facts after an instruction, from those before it. -/
def executeInst (state : State) (inst : Inst) : State :=
  let state := inst.defs.foldl clobber state
  match moveRule inst.opcode, inst.operands with
  | some rule, [source, destination] => state ++ rule.aliases state source.arg destination.arg
  | _, _ => state

/-! ### The analysis -/

/-- What is left of an alias when the other state arrives at the same block. -/
def mergeAlias (other : State) : Alias → Option Alias
  | .regConst reg constant =>
    if other.findSome? (Alias.regConst? reg) = some constant then some (.regConst reg constant)
      else none
  | .slotConst slot constant =>
    if other.findSome? (Alias.slotConst? slot) = some constant then some (.slotConst slot constant)
      else none
  | .regSlot reg slot mode =>
    match other.findSome? (Alias.mode? reg slot) with
    | none => none
    | some otherMode =>
      if mode ≠ .match32 ∧ mode ≠ otherMode then some (.regSlot reg slot .match32)
      else some (.regSlot reg slot mode)

/-- What two states have in common, and whether the first one lost anything. -/
def merge (state other : State) : State × Bool :=
  (state.filterMap (mergeAlias other), state.any fun fact => mergeAlias other fact ≠ some fact)

/-- The form of a move: the role of its destination and the width of its operands. -/
def moveForm : Opcode → Option (Role × Width)
  | .Move | .MoveDouble => some (.Def, .width64)
  | .Move32 => some (.ZDef, .width32)
  | .MoveFloat => some (.Def, .width32)
  | .other _ => none

/-- Moves have two operands, not both on the stack, and the register allocator makes a spill
slot as large as its widest operand. -/
structure WellFormed (inst : Inst) : Prop where
  move : ∀ role width, moveForm inst.opcode = some (role, width) → inst.extraClobberedRegs = [] ∧
    ∃ source destination, inst.operands = [⟨source, .Use, width⟩, ⟨destination, role, width⟩] ∧
      ∀ slot slot', source = .stack slot → destination ≠ .stack slot'
  size : ∀ operand ∈ inst.operands, ∀ slot, operand.arg = .stack slot → slot.isSpill = true →
    operand.width.bytes ≤ slot.byteSize

/-- The blocks of a procedure, of which the first is its entry. -/
structure Code where
  last : Nat
  insts : Fin (last + 1) → List Inst
  successorBlocks : Fin (last + 1) → List (Fin (last + 1))
  wellFormed : ∀ block, ∀ inst ∈ insts block, WellFormed inst

/-- The facts at the tail of a block, from those at its head. -/
def executeBlock (code : Code) (block : Fin (code.last + 1)) (state : State) : State :=
  (code.insts block).foldl executeInst state

/-- The facts at the heads of the blocks: only the entry is visited at the start. -/
def computeAliases (code : Code) (fuel : Nat) : Option (Fin (code.last + 1) → Option State) :=
  ForwardFlow.solve merge (executeBlock code) code.successorBlocks (List.finRange _) fuel
    (update (fun _ => none) 0 (some []))

/-! ### Fixing instructions -/

/-- The forms of immediates and of instructions that the target has. -/
structure Target where
  isValidImmForm : BitVec 64 → Bool
  isValidForm : Inst → Bool

section

variable (target : Target)

/-- Replaces an early use of a spill slot by a register that matches it at the width of the use,
or by its constant. -/
def handleArg (state : State) (operand : Operand) : Operand :=
  match operand.arg with
  | .stack slot =>
    if slot.isSpill && operand.role.isEarlyUse && !operand.role.isAnyDef then
      match state.findSome? (Alias.regSlot? slot) with
      | some (reg, mode) =>
        match operand.width with
        | .width64 => if mode ≠ .allBits then operand else { operand with arg := .reg reg }
        | .width32 => { operand with arg := .reg reg }
        | _ => operand
      | none =>
        match state.findSome? (Alias.slotConst? slot) with
        | some constant =>
          { operand with
            arg := Arg.imm (if target.isValidImmForm constant then .imm else .bigImm) constant }
        | none => operand
    else operand
  | _ => operand

/-- Each operand in turn is kept as it was when handling it makes the form invalid. -/
def fixCarefully (isValid : List Operand → Bool) (handle : Operand → Operand) :
    List Operand → List Operand → List Operand
  | done, [] => done
  | done, operand :: rest =>
    if isValid (done ++ handle operand :: rest) then fixCarefully isValid handle
      (done ++ [handle operand]) rest
    else fixCarefully isValid handle (done ++ [operand]) rest

/-- Handles all operands, and each of them carefully if that makes an invalid form. -/
def fixInst (state : State) (inst : Inst) : Inst :=
  let handle := handleArg target state
  let fixed := { inst with operands := inst.operands.map handle }
  if fixed = inst ∨ target.isValidForm fixed then fixed
  else
    let isValid := fun operands => target.isValidForm { inst with operands := operands }
    { inst with operands := fixCarefully isValid handle [] inst.operands }

/-- The facts after the fixed instruction. -/
def fixStep (state : State) (inst : Inst) : State :=
  executeInst state (fixInst target state inst)

/-- Fixes the instructions of a block one after another, with the facts recomputed from the fixed
ones. -/
def fixBlock : State → List Inst → List Inst
  | _, [] => []
  | state, inst :: rest =>
    fixInst target state inst :: fixBlock (fixStep target state inst) rest

/-- The fixed code; every block must have been visited. -/
def fixCode (code : Code) (atHead : Fin (code.last + 1) → Option State) :
    Option (Fin (code.last + 1) → List Inst) :=
  if ∀ block, (atHead block).isSome then
    some fun block => fixBlock target ((atHead block).getD []) (code.insts block)
  else none

end

/-! ### Executions -/

/-- The contents of the registers and slots. -/
structure Machine where
  reg : Reg → BitVec 64
  slot : StackSlot → BitVec 64

/-- The bits that an argument supplies. -/
def Machine.read (m : Machine) : Arg → BitVec 64
  | .reg reg => m.reg reg
  | .imm _ value => value
  | .stack slot => m.slot slot
  | .other _ => 0

/-- The bits of a value that the slot has room for. -/
def content (slot : StackSlot) (value : BitVec 64) : BitVec 64 :=
  if slot.byteSize < 8 then uint32 value else value

/-- What a move can store for a value. A float move may leave anything in the upper half. -/
def Stores (value stored : BitVec 64) : Opcode → Prop
  | .Move | .MoveDouble => stored = value
  | .Move32 => stored = uint32 value
  | .MoveFloat => uint32 stored = uint32 value
  | .other _ => True

/-- The machine has what a move of the value leaves in its destination. -/
def Writes (opcode : Opcode) (value : BitVec 64) (m : Machine) : Arg → Prop
  | .reg reg => Stores value (m.reg reg) opcode
  | .stack slot => Stores value (content slot (m.slot slot)) opcode
  | _ => True

/-- An instruction changes only what it defines; all but moves may write anything there. -/
structure Step (inst : Inst) (m m' : Machine) : Prop where
  reg : ∀ reg, .reg reg ∉ inst.defs → m'.reg reg = m.reg reg
  slot : ∀ slot, slot.isSpill = true → .stack slot ∉ inst.defs → m'.slot slot = m.slot slot
  moves : ∀ source destination, inst.operands = [source, destination] →
    Writes inst.opcode (m.read source.arg) m' destination.arg

/-- The points of the executions: the block, the instructions of it that were executed and
those that were not, and the machine. -/
inductive Reaches (code : Code) :
    Fin (code.last + 1) → List Inst → List Inst → Machine → Prop
  | start (m : Machine) : Reaches code 0 [] (code.insts 0) m
  | step {block done inst rest m m'} : Reaches code block done (inst :: rest) m →
      Step inst m m' → Reaches code block (done ++ [inst]) rest m'
  | jump {block done m next} : Reaches code block done [] m →
      next ∈ code.successorBlocks block → Reaches code next [] (code.insts next) m

/-- What a mode says about the bits of the register and of the slot. -/
def Mode.Relates (reg slot : BitVec 64) : Mode → Prop
  | .allBits => reg = slot
  | .zExt32 => reg = uint32 slot
  | .match32 => uint32 reg = uint32 slot

/-- The fact that an alias records; a slot equals a constant as far as it has room. -/
def Alias.Holds (m : Machine) : Alias → Prop
  | .regConst reg constant => m.reg reg = constant
  | .regSlot reg slot mode => slot.isSpill = true ∧ mode.Relates (m.reg reg) (m.slot slot)
  | .slotConst slot constant =>
    slot.isSpill = true ∧ content slot (m.slot slot) = content slot constant

/-- All aliases of a state hold. -/
def Holds (state : State) (m : Machine) : Prop := ∀ fact ∈ state, fact.Holds m

/-- The bits of a value at a width. -/
def Width.truncate : Width → BitVec 64 → BitVec 64
  | .width8, value => (value.setWidth 8).setWidth 64
  | .width16, value => (value.setWidth 16).setWidth 64
  | .width32, value => uint32 value
  | .width64, value => value

/-- An operand is left as it was, or a use gets an argument that has the same bits at its width. -/
def Supplies (m : Machine) (operand operand' : Operand) : Prop :=
  operand' = operand ∨ ∃ slot arg, operand.arg = .stack slot ∧
    operand' = { operand with arg := arg } ∧
    operand.role.isAnyDef = false ∧ (∀ slot, arg ≠ .stack slot) ∧
    Width.truncate operand.width (m.read arg) = Width.truncate operand.width (m.read operand.arg)

/-- A 32-bit store of a register to an eight-byte spill slot. -/
structure Spills32 (inst : Inst) (reg : Reg) (slot : StackSlot) : Prop where
  opcode : inst.opcode = .Move32
  operands : inst.operands = [⟨.reg reg, .Use, .width32⟩, ⟨.stack slot, .ZDef, .width32⟩]
  isSpill : slot.isSpill = true
  byteSize : 8 ≤ slot.byteSize

/-- A constant that is known for the register of such a store has no sign. -/
def StoresUnsigned (state : State) (inst : Inst) : Prop :=
  ∀ reg slot constant, Spills32 inst reg slot → constantFor state (.reg reg) = some constant →
    constant.getLsbD 31 = false

/-! ### Halves of a value -/

theorem uint32_uint32 (val : BitVec 64) : uint32 (uint32 val) = uint32 val := by
  apply BitVec.eq_of_getLsbD_eq
  intro i hi
  simp [uint32]

theorem uint32_int32 (val : BitVec 64) : uint32 (int32 val) = uint32 val := by
  apply BitVec.eq_of_getLsbD_eq
  intro i hi
  simp only [uint32, int32, BitVec.getLsbD_setWidth, BitVec.getLsbD_signExtend]
  by_cases hl : i < 32 <;> simp [hl, hi]

/-- The two extensions differ in the upper half, which has the sign or zeros. -/
theorem int32_eq_uint32_iff {val : BitVec 64} :
    int32 val = uint32 val ↔ val.getLsbD 31 = false := by
  constructor
  · intro h
    have hbit : (int32 val).getLsbD 63 = (uint32 val).getLsbD 63 := by rw [h]
    simp only [int32, uint32, BitVec.getLsbD_signExtend, BitVec.getLsbD_setWidth,
      BitVec.msb_eq_getLsbD_last] at hbit
    simpa using hbit
  · intro h
    have hmb : (val.setWidth 32).msb = false := by
      simpa [BitVec.msb_eq_getLsbD_last] using h
    rw [int32, uint32, BitVec.signExtend_eq_setWidth_of_msb_false hmb]

theorem uint32_content (slot : StackSlot) (val : BitVec 64) :
    uint32 (content slot val) = uint32 val := by
  unfold content
  split
  · exact uint32_uint32 val
  · rfl

theorem content_content (slot : StackSlot) (val : BitVec 64) :
    content slot (content slot val) = content slot val := by
  unfold content
  split
  · exact uint32_uint32 val
  · rfl

theorem content_of_wide {slot : StackSlot} (h : 8 ≤ slot.byteSize) (val : BitVec 64) :
    content slot val = val :=
  if_neg h.not_gt

/-- Values that are the same to a slot agree at every width that it has room for. -/
theorem truncate_eq_of_content_eq {slot : StackSlot} {val val'}
    (h : content slot val = content slot val') {width : Width} (hw : width.bytes ≤ slot.byteSize) :
    Width.truncate width val = Width.truncate width val' := by
  have hl : val.setWidth 32 = val'.setWidth 32 := by
    have hct := congrArg uint32 h
    rw [uint32_content, uint32_content] at hct
    simpa [uint32, BitVec.setWidth_setWidth_of_le] using congrArg (BitVec.setWidth 32) hct
  cases width with
  | width8 =>
    have := congrArg (BitVec.setWidth 8) hl
    rw [BitVec.setWidth_setWidth_of_le _ (by omega),
      BitVec.setWidth_setWidth_of_le _ (by omega)] at this
    exact congrArg (BitVec.setWidth 64) this
  | width16 =>
    have := congrArg (BitVec.setWidth 16) hl
    rw [BitVec.setWidth_setWidth_of_le _ (by omega),
      BitVec.setWidth_setWidth_of_le _ (by omega)] at this
    exact congrArg (BitVec.setWidth 64) this
  | width32 => exact congrArg (BitVec.setWidth 64) hl
  | width64 => rwa [content_of_wide hw, content_of_wide hw] at h

/-! ### Aliases that are found hold -/

theorem regConst?_eq_some {reg} {fact : Alias} {const} :
    fact.regConst? reg = some const ↔ fact = .regConst reg const := by
  cases fact <;> simp [Alias.regConst?]

theorem slotConst?_eq_some {slot} {fact : Alias} {const} :
    fact.slotConst? slot = some const ↔ fact = .slotConst slot const := by
  cases fact <;> simp [Alias.slotConst?]

theorem regSlot?_eq_some {slot} {fact : Alias} {reg mode} :
    fact.regSlot? slot = some (reg, mode) ↔ fact = .regSlot reg slot mode := by
  cases fact <;> simp [Alias.regSlot?, and_left_comm]

theorem mode?_eq_some {reg slot} {fact : Alias} {mode} :
    fact.mode? reg slot = some mode ↔ fact = .regSlot reg slot mode := by
  cases fact <;> simp [Alias.mode?, and_assoc]

theorem Holds.of_findSome? {α : Type} {st : State} {m} (h : Holds st m)
    {f : Alias → Option α} {a : α} (hfd : st.findSome? f = some a) (fact : Alias)
    (hf : ∀ fact', f fact' = some a → fact' = fact) : fact.Holds m := by
  obtain ⟨fact', hm, hsm⟩ := exists_of_findSome?_eq_some hfd
  exact hf fact' hsm ▸ h fact' hm

theorem Holds.constantFor_reg {st} {m : Machine} (h : Holds st m) {reg : Reg}
    {const : BitVec 64} (hfd : constantFor st (.reg reg) = some const) : m.reg reg = const :=
  h.of_findSome? hfd (.regConst reg const) fun _ => regConst?_eq_some.mp

theorem Holds.constantFor_stack {st} {m : Machine} (h : Holds st m) {slot : StackSlot}
    {const : BitVec 64} (hfd : constantFor st (.stack slot) = some const) :
    content slot (m.slot slot) = content slot const :=
  (h.of_findSome? hfd (.slotConst slot const) fun _ => slotConst?_eq_some.mp).2

/-! ### A step keeps the aliases -/

section

variable {st : State} {inst : Inst} {m m' : Machine}

theorem mem_foldl_clobber {args : List Arg} {fact : Alias} :
    fact ∈ args.foldl clobber st ↔ fact ∈ st ∧ ∀ arg ∈ args, fact.mentions arg = false := by
  induction args generalizing st with
  | nil => simp
  | cons arg args ih => simp [ih, clobber, and_assoc]

/-- What the instruction does not define still holds after it. -/
theorem holds_clobber (h : Holds st m) (hs : Step inst m m') :
    Holds (inst.defs.foldl clobber st) m' := by
  intro fact hm
  obtain ⟨hm, hfe⟩ := mem_foldl_clobber.mp hm
  have hfc := h fact hm
  have hd : ∀ arg, fact.mentions arg = true → arg ∉ inst.defs := by
    intro arg hmn har
    rw [hfe arg har] at hmn
    cases hmn
  cases fact with
  | regConst reg const => exact (hs.reg reg (hd _ (decide_eq_true rfl))).trans hfc
  | regSlot reg slot mode =>
    obtain ⟨hsp, hrt⟩ := hfc
    refine ⟨hsp, ?_⟩
    rwa [hs.reg reg (hd _ (decide_eq_true rfl)), hs.slot slot hsp (hd _ (decide_eq_true rfl))]
  | slotConst slot const =>
    obtain ⟨hsp, hct⟩ := hfc
    refine ⟨hsp, ?_⟩
    rwa [hs.slot slot hsp (hd _ (decide_eq_true rfl))]

end

/-! ### What a move stores -/

section

variable {opcode : Opcode} {rule : MoveRule} {val stored const const' : BitVec 64}
  (hrl : moveRule opcode = some rule) {slot : StackSlot}

include hrl

theorem eq_of_imm (hst : Stores val stored opcode) (hcn : rule.imm val = some const) :
    stored = const := by
  cases opcode <;> cases hrl <;> simp_all [Stores]

theorem relates_load (hst : Stores val stored opcode) : rule.loadMode.Relates stored val := by
  cases opcode <;> cases hrl <;> exact hst

/-- A wide move is from an eight-byte slot. -/
theorem eq_of_load {role} {width : Width} (hfr : moveForm opcode = some (role, width))
    (hsz : width.bytes ≤ slot.byteSize) (hst : Stores val stored opcode)
    (hv : content slot val = content slot const) (hcn : rule.load const = some const') :
    stored = const' := by
  cases opcode <;> cases hrl <;> cases hfr <;> cases hcn
  · rw [content_of_wide hsz, content_of_wide hsz] at hv
    exact hst.trans hv
  · have hl := congrArg uint32 hv
    rw [uint32_content, uint32_content] at hl
    exact hst.trans hl

theorem relates_store {role} {width : Width} (hfr : moveForm opcode = some (role, width))
    (hsz : width.bytes ≤ slot.byteSize) (hst : Stores val (content slot stored) opcode) :
    rule.storeMode.Relates val stored := by
  cases opcode <;> cases hrl <;> cases hfr
  · exact hst.symm.trans (content_of_wide hsz stored)
  · calc
      uint32 val = uint32 (uint32 val) := (uint32_uint32 val).symm
      _ = uint32 (content slot stored) := congrArg uint32 hst.symm
      _ = uint32 stored := uint32_content slot stored
  · exact hst.symm.trans (uint32_content slot stored)
  · exact hst.symm.trans (content_of_wide hsz stored)

/-- The constant that is recorded for the slot, if its sign does not matter. -/
theorem content_of_store (hu : opcode = .Move32 → 8 ≤ slot.byteSize → const.getLsbD 31 = false)
    (hst : Stores const (content slot stored) opcode) (hcn : rule.store const = some const') :
    content slot stored = content slot const' := by
  cases opcode <;> cases hrl <;> cases hcn
  · calc
      content slot stored = content slot (content slot stored) := (content_content slot stored).symm
      _ = content slot const := congrArg (content slot) hst
  · by_cases hnr : slot.byteSize < 8
    · calc
        content slot stored = uint32 const := hst
        _ = uint32 (int32 const) := (uint32_int32 const).symm
        _ = content slot (int32 const) := (if_pos hnr).symm
    · have hcl := hu rfl (not_lt.mp hnr)
      calc
        content slot stored = content slot (content slot stored) :=
          (content_content slot stored).symm
        _ = content slot (uint32 const) := congrArg (content slot) hst
        _ = content slot (int32 const) := congrArg (content slot) (int32_eq_uint32_iff.mpr hcl).symm

end

section

variable {st : State} {inst : Inst} {m m' : Machine} {rule : MoveRule} {src destination : Arg}
  {role : Role} {width : Width}

theorem exists_moveForm {opcode} (hrl : moveRule opcode = some rule) :
    ∃ role width, moveForm opcode = some (role, width) := by
  cases opcode with
  | other idx => cases hrl
  | Move | Move32 | MoveFloat | MoveDouble => exact ⟨_, _, rfl⟩

theorem isAnyDef_of_moveForm {opcode} (hfr : moveForm opcode = some (role, width)) :
    role.isAnyDef = true := by
  cases opcode <;> cases hfr <;> rfl

/-- The aliases that a move adds hold after it, by cases of what it moves. -/
theorem holds_aliases (hwf : WellFormed inst) (hrl : moveRule inst.opcode = some rule)
    (hfr : moveForm inst.opcode = some (role, width))
    (hop : inst.operands = [⟨src, .Use, width⟩, ⟨destination, role, width⟩])
    (hdf : inst.defs = [destination]) (hk : Holds st m') (hs : Step inst m m')
    (hu : StoresUnsigned st inst) : Holds (rule.aliases st src destination) m' := by
  have hmv := hs.moves _ _ hop
  intro fact hm
  unfold MoveRule.aliases at hm
  split at hm
  · simp only [mem_toList, map_eq_some_iff] at hm
    obtain ⟨const, hcn, rfl⟩ := hm
    exact eq_of_imm hrl hmv hcn
  · rename_i slot
    split at hm
    · rename_i hsp
      simp only [mem_toList, map_eq_some_iff] at hm
      obtain ⟨const, hcn, rfl⟩ := hm
      have heq := eq_of_imm hrl hmv hcn
      exact ⟨hsp, (content_content slot _).symm.trans (congrArg (content slot) heq)⟩
    · cases hm
  · rename_i slot reg
    split at hm
    · rename_i hsp
      have hsl := hs.slot slot hsp (by simp [hdf])
      rcases mem_append.mp hm with hm | hm
      · simp only [mem_toList, map_eq_some_iff, bind_eq_some_iff] at hm
        obtain ⟨const', ⟨const, hfn, hcn⟩, rfl⟩ := hm
        have hct := hk.constantFor_stack hfn
        rw [hsl] at hct
        exact eq_of_load hrl hfr (hwf.size ⟨.stack slot, .Use, width⟩ (by simp [hop]) slot rfl hsp)
          hmv hct hcn
      · obtain rfl := mem_singleton.mp hm
        refine ⟨hsp, ?_⟩
        rw [hsl]
        exact relates_load hrl hmv
    · cases hm
  · rename_i reg slot
    split at hm
    · rename_i hsp
      have hg := hs.reg reg (by simp [hdf])
      rcases mem_append.mp hm with hm | hm
      · simp only [mem_toList, map_eq_some_iff, bind_eq_some_iff] at hm
        obtain ⟨const', ⟨const, hfn, hcn⟩, rfl⟩ := hm
        have hv := hg.symm.trans (hk.constantFor_reg hfn)
        refine ⟨hsp, content_of_store hrl ?_ (hv ▸ hmv) hcn⟩
        intro hoc hwd
        rw [hoc] at hfr
        cases hfr
        exact hu reg slot const ⟨hoc, hop, hsp, hwd⟩ hfn
      · obtain rfl := mem_singleton.mp hm
        refine ⟨hsp, ?_⟩
        rw [hg]
        exact relates_store hrl hfr
          (hwf.size ⟨.stack slot, role, width⟩ (by simp [hop]) slot rfl hsp)
          hmv
    · cases hm
  · cases hm

/-- A move defines its destination alone. -/
theorem defs_of_move (hwf : WellFormed inst) (hfr : moveForm inst.opcode = some (role, width))
    (hop : inst.operands = [⟨src, .Use, width⟩, ⟨destination, role, width⟩]) :
    inst.defs = [destination] := by
  obtain ⟨he, -⟩ := hwf.move role width hfr
  simp [Inst.defs, hop, he, Operand.def?, isAnyDef_of_moveForm hfr,
    show Role.Use.isAnyDef = false from rfl]

/-- A store to the stack leaves the constants of the registers known. -/
theorem constantFor_clobber_stack (st : State) (slot : StackSlot) (reg : Reg) :
    constantFor (clobber st (.stack slot)) (.reg reg) = constantFor st (.reg reg) := by
  unfold constantFor clobber
  induction st with
  | nil => rfl
  | cons fact st ih =>
    cases hmn : fact.mentions (.stack slot) with
    | false => simp [hmn, findSome?_cons, ih]
    | true =>
      have hnone : fact.regConst? reg = none := by
        cases fact with
        | regConst => cases hmn
        | regSlot | slotConst => rfl
      simp [hmn, hnone, ih]

theorem Spills32.moveForm {reg slot} (h : Spills32 inst reg slot) :
    moveForm inst.opcode = some (.ZDef, .width32) := by
  rw [h.opcode]
  rfl

theorem Spills32.defs {reg slot} (h : Spills32 inst reg slot) (hwf : WellFormed inst) :
    inst.defs = [.stack slot] :=
  defs_of_move hwf h.moveForm h.operands

theorem storesUnsigned_clobber (hwf : WellFormed inst) (hu : StoresUnsigned st inst) :
    StoresUnsigned (inst.defs.foldl clobber st) inst := by
  intro reg slot const hsp hcn
  rw [hsp.defs hwf, foldl_cons, foldl_nil, constantFor_clobber_stack] at hcn
  exact hu reg slot const hsp hcn

theorem holds_executeInst (hwf : WellFormed inst) (h : Holds st m) (hs : Step inst m m')
    (hu : StoresUnsigned st inst) : Holds (executeInst st inst) m' := by
  have hk := holds_clobber h hs
  have hu' := storesUnsigned_clobber hwf hu
  unfold executeInst
  cases hrl : moveRule inst.opcode with
  | none => exact hk
  | some rule =>
    obtain ⟨role, width, hfr⟩ := exists_moveForm hrl
    obtain ⟨-, src, destination, hop, -⟩ := hwf.move role width hfr
    intro fact hm
    simp only [hop, mem_append] at hm
    rcases hm with hm | hm
    · exact hk fact hm
    · exact holds_aliases hwf hrl hfr hop (defs_of_move hwf hfr hop) hk hs hu' fact hm

/-- The constant that a 32-bit store of a register records for the slot. -/
theorem Spills32.slotConst_mem {reg slot const} (h : Spills32 inst reg slot) (hwf : WellFormed inst)
    (hcn : constantFor st (.reg reg) = some const) :
    .slotConst slot (int32 const) ∈ executeInst st inst := by
  simp [executeInst, h.opcode, h.operands, h.defs hwf, moveRule, MoveRule.aliases, h.isSpill,
    constantFor_clobber_stack, hcn]

/-- A step keeps the aliases exactly if no constant with a sign is known where it stores 32
bits of a register. -/
theorem holds_executeInst_iff (hwf : WellFormed inst) (h : Holds st m) (hs : Step inst m m') :
    Holds (executeInst st inst) m' ↔ StoresUnsigned st inst := by
  refine ⟨?_, holds_executeInst hwf h hs⟩
  intro hx reg slot const hsp hcn
  have hmv : Stores (m.reg reg) (content slot (m'.slot slot)) inst.opcode :=
    hs.moves _ _ hsp.operands
  have hrec := (hx _ (hsp.slotConst_mem hwf hcn)).2
  rw [hsp.opcode] at hmv
  apply int32_eq_uint32_iff.mp
  calc
    int32 const = content slot (int32 const) := (content_of_wide hsp.byteSize _).symm
    _ = content slot (m'.slot slot) := hrec.symm
    _ = uint32 (m.reg reg) := hmv
    _ = uint32 const := by rw [h.constantFor_reg hcn]

/-- A 32-bit store of a register can be executed in every machine. -/
theorem Spills32.exists_step {reg slot} (h : Spills32 inst reg slot) (hwf : WellFormed inst)
    (m : Machine) : ∃ m', Step inst m m' := by
  refine ⟨{ m with slot := update m.slot slot (uint32 (m.reg reg)) }, fun _ _ => rfl,
    ?_, ?_⟩
  · intro other hsp hnd
    rw [h.defs hwf, mem_singleton, Arg.stack.injEq] at hnd
    exact update_of_ne hnd _ _
  · intro source destination hop
    rw [h.operands] at hop
    cases hop
    rw [h.opcode]
    change content slot (update m.slot slot _ slot) = uint32 (m.reg reg)
    rw [update_self, content_of_wide h.byteSize]

end

/-! ### Merging -/

theorem Mode.Relates.uint32_eq {mode : Mode} {reg slot} (h : mode.Relates reg slot) :
    uint32 reg = uint32 slot := by
  cases mode with
  | allBits => exact congrArg uint32 h
  | zExt32 => exact (congrArg uint32 h).trans (uint32_uint32 slot)
  | match32 => exact h

/-- How often merging can change an alias. -/
def Alias.weight : Alias → Nat
  | .regSlot _ _ .allBits | .regSlot _ _ .zExt32 => 2
  | _ => 1

/-- How often merging can change a state. -/
def weight (state : State) : Nat := (state.map Alias.weight).sum

/-- An alias is kept as it is or what is left of it weighs less. -/
theorem weight_mergeAlias (other : State) (fact : Alias) :
    mergeAlias other fact = some fact ∨
      (mergeAlias other fact).elim 0 Alias.weight < fact.weight := by
  cases fact with
  | regConst reg const =>
    dsimp only [mergeAlias]
    split
    · exact .inl rfl
    · exact .inr Nat.zero_lt_one
  | slotConst slot const =>
    dsimp only [mergeAlias]
    split
    · exact .inl rfl
    · exact .inr Nat.zero_lt_one
  | regSlot reg slot mode =>
    dsimp only [mergeAlias]
    split
    · exact .inr (by cases mode <;> exact Nat.zero_lt_succ _)
    · split
      · rename_i hmd
        cases mode with
        | allBits | zExt32 => exact .inr Nat.one_lt_two
        | match32 => exact absurd rfl hmd.1
      · exact .inl rfl

theorem weight_cons (fact : Alias) (st : State) : weight (fact :: st) = fact.weight + weight st :=
  sum_cons

theorem weight_filterMap_cons (other : State) (fact : Alias) (st : State) :
    weight ((fact :: st).filterMap (mergeAlias other)) =
      (mergeAlias other fact).elim 0 Alias.weight + weight (st.filterMap (mergeAlias other)) := by
  cases h : mergeAlias other fact with
  | none => rw [List.filterMap_cons_none h, Option.elim, Nat.zero_add]
  | some fact' => rw [List.filterMap_cons_some h, weight_cons, Option.elim]

theorem weight_merge_le (st other : State) :
    weight (st.filterMap (mergeAlias other)) ≤ weight st := by
  induction st with
  | nil => exact le_rfl
  | cons fact st ih =>
    rw [weight_filterMap_cons, weight_cons]
    rcases weight_mergeAlias other fact with hk | hls
    · rw [hk]
      exact Nat.add_le_add_left ih fact.weight
    · exact Nat.add_le_add hls.le ih

theorem merge_unchanged {st other} :
    (merge st other).2 = false ↔ ∀ fact ∈ st, mergeAlias other fact = some fact := by
  simp [merge]

theorem merge_shrinks : ForwardFlow.Shrinks merge weight where
  unchanged := by
    intro st other h
    calc
      st.filterMap (mergeAlias other) = st.filterMap some := filterMap_congr (merge_unchanged.mp h)
      _ = st := filterMap_some
  smaller := by
    intro st other h
    induction st with
    | nil => cases h
    | cons fact st ih =>
      change weight ((fact :: st).filterMap (mergeAlias other)) < weight (fact :: st)
      rw [weight_filterMap_cons, weight_cons]
      rcases weight_mergeAlias other fact with hk | hls
      · have hr : (merge st other).2 = true := by simpa [merge, hk] using h
        rw [hk]
        exact Nat.add_lt_add_left (ih hr) fact.weight
      · exact Nat.add_lt_add_of_lt_of_le hls (weight_merge_le st other)

/-- The facts of a state hold when those of a state that merging into it leaves it unchanged do. -/
theorem Holds.of_merge {st other} {m : Machine} (h : Holds other m)
    (hmr : (merge st other).2 = false) : Holds st m := by
  intro fact hm
  have hk := merge_unchanged.mp hmr fact hm
  cases fact with
  | regConst reg const =>
    simp only [mergeAlias, ite_none_right_eq_some] at hk
    exact h.of_findSome? hk.1 _ fun _ => regConst?_eq_some.mp
  | slotConst slot const =>
    simp only [mergeAlias, ite_none_right_eq_some] at hk
    exact h.of_findSome? hk.1 _ fun _ => slotConst?_eq_some.mp
  | regSlot reg slot mode =>
    dsimp only [mergeAlias] at hk
    split at hk
    · cases hk
    · rename_i otherMode hfn
      have ho := h.of_findSome? hfn _ fun _ => mode?_eq_some.mp
      split at hk
      · rename_i hmd
        cases hk
        exact absurd rfl hmd.1
      · rename_i hmd
        by_cases heq : mode = otherMode
        · exact heq ▸ ho
        · obtain rfl : mode = .match32 := by simpa [heq] using hmd
          exact ⟨ho.1, ho.2.uint32_eq⟩

/-! ### Fixed instructions -/

/-- An instruction with the same bits in its operands. -/
structure Fixes (m : Machine) (inst inst' : Inst) : Prop where
  opcode : inst'.opcode = inst.opcode
  extraClobberedRegs : inst'.extraClobberedRegs = inst.extraClobberedRegs
  operands : List.Forall₂ (Supplies m) inst.operands inst'.operands

section

variable {target : Target} {st : State} {inst inst' : Inst}
  {m m' : Machine} {operand : Operand}

theorem supplies_handleArg (h : Holds st m)
    (hsz : ∀ slot, operand.arg = .stack slot → slot.isSpill = true →
      operand.width.bytes ≤ slot.byteSize) :
    Supplies m operand (handleArg target st operand) := by
  unfold handleArg
  split
  · rename_i slot hsl
    split
    · rename_i hro
      simp only [Bool.and_eq_true, Bool.not_eq_true'] at hro
      obtain ⟨⟨hsp, -⟩, hd⟩ := hro
      split
      · rename_i reg mode hfn
        have hrt := (h.of_findSome? hfn (.regSlot reg slot mode) fun _ => regSlot?_eq_some.mp).2
        split
        · rename_i hw
          split
          · exact .inl rfl
          · rename_i hmd
            obtain rfl := not_not.mp hmd
            refine .inr ⟨slot, .reg reg, hsl, rfl, hd, by simp, ?_⟩
            rw [hw, hsl]
            exact hrt
        · rename_i hw
          refine .inr ⟨slot, .reg reg, hsl, rfl, hd, by simp, ?_⟩
          rw [hw, hsl]
          exact hrt.uint32_eq
        · exact .inl rfl
      · split
        · rename_i const hfn
          refine .inr ⟨slot, .imm _ const, hsl, rfl, hd, by simp, ?_⟩
          have hct := h.constantFor_stack hfn
          rw [hsl]
          exact (truncate_eq_of_content_eq hct (hsz slot hsl hsp)).symm
        · exact .inl rfl
    · exact .inl rfl
  · exact .inl rfl

theorem forall₂_fixCarefully {isValid handle}
    {R : Operand → Operand → Prop} (hrf : ∀ operand, R operand operand) {pre done rest}
    (hdn : List.Forall₂ R pre done) (hhn : ∀ operand ∈ rest, R operand (handle operand)) :
    List.Forall₂ R (pre ++ rest) (fixCarefully isValid handle done rest) := by
  induction rest generalizing pre done with
  | nil => simpa [fixCarefully] using hdn
  | cons operand rest ih =>
    obtain ⟨hor, hr⟩ := forall_mem_cons.mp hhn
    rw [fixCarefully, append_cons]
    split
    · exact ih (rel_append hdn (List.Forall₂.cons hor List.Forall₂.nil)) hr
    · exact ih (rel_append hdn (List.Forall₂.cons (hrf operand) List.Forall₂.nil)) hr

theorem fixes_fixInst (hwf : WellFormed inst) (h : Holds st m) :
    Fixes m inst (fixInst target st inst) := by
  have hhn : ∀ operand ∈ inst.operands, Supplies m operand (handleArg target st operand) :=
    fun operand hm => supplies_handleArg h (hwf.size operand hm)
  unfold fixInst
  dsimp only
  split
  · exact ⟨rfl, rfl, forall₂_map_right_iff.mpr (forall₂_same.mpr hhn)⟩
  · exact ⟨rfl, rfl, forall₂_fixCarefully (fun _ => .inl rfl) List.Forall₂.nil hhn⟩

theorem filterMap_def?_eq {operands operands' : List Operand}
    (h : List.Forall₂ (Supplies m) operands operands') :
    operands'.filterMap Operand.def? = operands.filterMap Operand.def? := by
  induction h with
  | nil => rfl
  | @cons operand operand' _ _ hsu _ ih =>
    have hd : operand'.def? = operand.def? := by
      rcases hsu with rfl | ⟨slot, arg, -, rfl, hro, -⟩
      · rfl
      · simp [Operand.def?, hro]
    rw [filterMap_cons, filterMap_cons, hd, ih]

theorem Fixes.defs (h : Fixes m inst inst') : inst'.defs = inst.defs := by
  rw [Inst.defs, Inst.defs, h.extraClobberedRegs, filterMap_def?_eq h.operands]

/-- The operands of a fixed move: only the source may have changed. -/
theorem Fixes.move (h : Fixes m inst inst') {src destination} {role : Role} {width}
    (hop : inst.operands = [⟨src, .Use, width⟩, ⟨destination, role, width⟩])
    (hro : role.isAnyDef = true) :
    ∃ src', inst'.operands = [⟨src', .Use, width⟩, ⟨destination, role, width⟩] ∧
      Supplies m ⟨src, .Use, width⟩ ⟨src', .Use, width⟩ := by
  have hfl := h.operands
  rw [hop, forall₂_cons_left_iff] at hfl
  obtain ⟨first, rest, hft, hr, heq⟩ := hfl
  rw [forall₂_cons_left_iff] at hr
  obtain ⟨snd, rest, hsn, hnl, rfl⟩ := hr
  obtain rfl := forall₂_nil_left_iff.mp hnl
  obtain rfl : snd = ⟨destination, role, width⟩ := by
    rcases hsn with hsn | ⟨slot, arg, -, -, hd, -⟩
    · exact hsn
    · exact absurd hro (by simp [hd])
  obtain ⟨src', rfl⟩ : ∃ src', first = ⟨src', .Use, width⟩ := by
    rcases hft with rfl | ⟨slot, arg, -, rfl, -⟩
    · exact ⟨src, rfl⟩
    · exact ⟨arg, rfl⟩
  exact ⟨src', heq, hft⟩

theorem Fixes.wellFormed (h : Fixes m inst inst') (hwf : WellFormed inst) : WellFormed inst' := by
  constructor
  · intro role width hfr
    rw [h.opcode] at hfr
    obtain ⟨he, src, destination, hop, hsk⟩ := hwf.move role width hfr
    obtain ⟨src', hop', hsu⟩ := h.move hop (isAnyDef_of_moveForm hfr)
    refine ⟨h.extraClobberedRegs.trans he, src', destination, hop', ?_⟩
    intro slot slot' hsl
    rcases hsu with heq | ⟨-, arg, -, heq, -, hne, -⟩
    · cases heq
      exact hsk slot slot' hsl
    · cases heq
      exact absurd hsl (hne slot)
  · intro operand' hm slot hsl hsp
    obtain ⟨i, rfl⟩ := mem_iff_get.mp hm
    obtain ⟨hn, hgt⟩ := forall₂_iff_get.mp h.operands
    have hi : i.val < inst.operands.length := by
      rw [hn]
      exact i.isLt
    rcases hgt i hi i.isLt with heq | ⟨-, arg, -, heq, -, hne, -⟩
    · rw [heq] at hsl ⊢
      exact hwf.size _ (get_mem ..) slot hsl hsp
    · rw [heq] at hsl
      exact absurd hsl (hne slot)

/-- A fixed 32-bit store to the stack is the one that was there. -/
theorem Fixes.spills32_iff (h : Fixes m inst inst') (hwf : WellFormed inst) {reg slot} :
    Spills32 inst' reg slot ↔ Spills32 inst reg slot := by
  constructor
  · rintro ⟨hoc, hop', hsp, hwd⟩
    rw [h.opcode] at hoc
    obtain ⟨-, src, destination, hop, hsk⟩ := hwf.move .ZDef .width32 (by rw [hoc]; rfl)
    obtain ⟨src', hop'', hsu⟩ := h.move hop rfl
    rw [hop''] at hop'
    cases hop'
    rcases hsu with heq | ⟨slot', arg, hsl, -⟩
    · cases heq
      exact ⟨hoc, hop, hsp, hwd⟩
    · exact absurd rfl (hsk slot' slot hsl)
  · rintro ⟨hoc, hop, hsp, hwd⟩
    obtain ⟨src', hop', hsu⟩ := h.move hop rfl
    rcases hsu with heq | ⟨slot', arg, hsl, -⟩
    · cases heq
      exact ⟨h.opcode.trans hoc, hop', hsp, hwd⟩
    · cases hsl

theorem Fixes.storesUnsigned_iff (h : Fixes m inst inst') (hwf : WellFormed inst) :
    StoresUnsigned st inst' ↔ StoresUnsigned st inst := by
  simp only [StoresUnsigned, h.spills32_iff hwf]

theorem stores_congr {opcode role width} (hfr : moveForm opcode = some (role, width))
    {val val' stored} (heq : Width.truncate width val' = Width.truncate width val)
    (h : Stores val stored opcode) : Stores val' stored opcode := by
  cases opcode <;> cases hfr <;> exact Eq.trans h heq.symm

theorem Fixes.step (h : Fixes m inst inst') (hwf : WellFormed inst) (hs : Step inst m m') :
    Step inst' m m' := by
  refine ⟨h.defs ▸ hs.reg, h.defs ▸ hs.slot, ?_⟩
  intro first snd hop'
  rw [h.opcode]
  cases hfr : moveForm inst.opcode with
  | none =>
    have ho : ∀ val stored, Stores val stored inst.opcode := by
      intro val stored
      cases hoc : inst.opcode <;> simp_all [moveForm, Stores]
    cases snd.arg <;> first | exact ho _ _ | trivial
  | some form =>
    obtain ⟨role, width⟩ := form
    obtain ⟨-, src, destination, hop, -⟩ := hwf.move role width hfr
    obtain ⟨src', hc', hsu⟩ := h.move hop (isAnyDef_of_moveForm hfr)
    rw [hc'] at hop'
    cases hop'
    have hmv := hs.moves _ _ hop
    have heq : Width.truncate width (m.read src') = Width.truncate width (m.read src) := by
      rcases hsu with heq | ⟨slot, arg, -, heq, -, -, hb⟩
      · cases heq
        rfl
      · cases heq
        exact hb
    cases destination with
    | reg reg => exact stores_congr hfr heq hmv
    | stack slot => exact stores_congr hfr heq hmv
    | imm | other => trivial

end

/-! ### Runs -/

theorem Reaches.append_eq {code : Code} {blk done rest m} (h : Reaches code blk done rest m) :
    done ++ rest = code.insts blk := by
  induction h with
  | start m => rfl
  | step _ _ ih => rw [append_assoc, singleton_append, ih]
  | jump _ _ _ => rfl

section

variable (target : Target) {code : Code}
  {atHead : Fin (code.last + 1) → Option State}

theorem getElem?_fixBlock (st : State) (done rest : List Inst) (inst : Inst) :
    (fixBlock target st (done ++ inst :: rest))[done.length]? =
      some (fixInst target (done.foldl (fixStep target) st) inst) := by
  induction done generalizing st with
  | nil => rfl
  | cons first done ih => exact ih (fixStep target st first)

/-- The aliases at a point of a run, as the analysis and as the fixing of the block have them. -/
structure Recorded (atHead : Fin (code.last + 1) → Option State) (block : Fin (code.last + 1))
    (done : List Inst)
    (m : Machine) (state : State) : Prop where
  head : atHead block = some state
  analysis : Holds (done.foldl executeInst state) m
  fixing : Holds (done.foldl (fixStep target) state) m

variable (code atHead) in
/-- The two walks over a block store no constant with a sign: where the analysis and the
fixing execute an instruction, their aliases meet the condition. -/
def StoresAllUnsigned : Prop :=
  ∀ block done inst rest m state, Reaches code block done (inst :: rest) m →
    atHead block = some state → StoresUnsigned (done.foldl executeInst state) inst ∧
      StoresUnsigned (done.foldl (fixStep target) state) inst

/-- A step keeps what is recorded exactly if both walks meet the condition. -/
theorem recorded_step_iff {blk done inst rest m m' st}
    (hrc : Reaches code blk done (inst :: rest) m) (hs : Step inst m m')
    (h : Recorded target atHead blk done m st) :
    Recorded target atHead blk (done ++ [inst]) m' st ↔
      StoresUnsigned (done.foldl executeInst st) inst ∧
        StoresUnsigned (done.foldl (fixStep target) st) inst := by
  have hwf := code.wellFormed blk inst (by simp [← hrc.append_eq])
  have hfs : Fixes m inst (fixInst target _ inst) := fixes_fixInst hwf h.fixing
  have han := holds_executeInst_iff hwf h.analysis hs
  have hfg := (holds_executeInst_iff (hfs.wellFormed hwf) h.fixing (hfs.step hwf hs)).trans
    (hfs.storesUnsigned_iff hwf)
  rw [← han, ← hfg]
  constructor
  · intro h'
    have hana := h'.analysis
    have hfix := h'.fixing
    rw [foldl_concat] at hana hfix
    exact ⟨hana, hfix⟩
  · rintro ⟨hana, hfix⟩
    refine ⟨h.head, ?_, ?_⟩ <;> rw [foldl_concat]
    · exact hana
    · exact hfix

/-- The facts at the end of a block hold at the heads of its successors. -/
theorem recorded_jump
    (hsb : ForwardFlow.Stable merge (executeBlock code) code.successorBlocks (finRange _) atHead)
    {blk done m st next} (hrc : Reaches code blk done [] m)
    (h : Recorded target atHead blk done m st) (hnx : next ∈ code.successorBlocks blk) :
    ∃ st', Recorded target atHead next [] m st' := by
  obtain ⟨st', hhd', hmr⟩ := hsb blk (mem_finRange blk) st h.head next hnx
  have hdn := (append_nil done).symm.trans hrc.append_eq
  have hh : Holds st' m := (hdn ▸ h.analysis).of_merge hmr
  exact ⟨st', hhd', hh, hh⟩

theorem exists_recorded (hroot : atHead 0 = some [])
    (hsb : ForwardFlow.Stable merge (executeBlock code) code.successorBlocks (finRange _) atHead)
    (hu : StoresAllUnsigned target code atHead) {blk done rest m}
    (h : Reaches code blk done rest m) : ∃ st, Recorded target atHead blk done m st := by
  induction h with
  | start m => exact ⟨[], hroot, forall_mem_nil _, forall_mem_nil _⟩
  | step hrc hs ih =>
    obtain ⟨st, hrd⟩ := ih
    exact ⟨st, (recorded_step_iff target hrc hs hrd).mpr (hu _ _ _ _ _ _ hrc hrd.head)⟩
  | jump hrc hnx ih =>
    obtain ⟨st, hrd⟩ := ih
    exact recorded_jump target hsb hrc hrd hnx

/-- A violated condition shows in the point after the store. -/
theorem storesUnsigned_of_recorded
    (h : ∀ block done rest m, Reaches code block done rest m →
      ∃ st, Recorded target atHead block done m st) : StoresAllUnsigned target code atHead := by
  intro blk done inst rest m st hrc hhd
  have hrd : Recorded target atHead blk done m st := by
    obtain ⟨st', hrd⟩ := h _ _ _ _ hrc
    obtain rfl : st' = st := some.inj (hrd.head.symm.trans hhd)
    exact hrd
  have hafter : ∀ m', Step inst m m' → Recorded target atHead blk (done ++ [inst]) m' st := by
    intro m' hs
    obtain ⟨st', hrd'⟩ := h _ _ _ _ (hrc.step hs)
    obtain rfl : st' = st := some.inj (hrd'.head.symm.trans hhd)
    exact hrd'
  have hwf := code.wellFormed blk inst (by simp [← hrc.append_eq])
  have hboth {reg slot} (hsp : Spills32 inst reg slot) :
      StoresUnsigned (done.foldl executeInst st) inst ∧
        StoresUnsigned (done.foldl (fixStep target) st) inst := by
    obtain ⟨m', hs⟩ := hsp.exists_step hwf m
    exact (recorded_step_iff target hrc hs hrd).mp (hafter m' hs)
  exact ⟨fun reg slot const hsp => (hboth hsp).1 reg slot const hsp,
    fun reg slot const hsp => (hboth hsp).2 reg slot const hsp⟩

end

theorem eq_nil_of_weight {st} (h : weight st = 0) : st = [] := by
  cases st with
  | nil => rfl
  | cons fact st =>
    have hp : 0 < fact.weight := by
      unfold Alias.weight
      split <;> exact Nat.zero_lt_succ _
    rw [weight_cons] at h
    omega

/-- At every point of every execution the recorded aliases hold, and the instruction of the
fixed code gets the bits that the one it replaces would have got. -/
def IsSound (target : Target) (code : Code) (atHead : Fin (code.last + 1) → Option State) : Prop :=
  ∀ block done rest m, Reaches code block done rest m →
    ∃ state, Recorded target atHead block done m state ∧
      ∀ inst rest', rest = inst :: rest' → ∀ fixed, fixCode target code atHead = some fixed →
        ∃ inst', (fixed block)[done.length]? = some inst' ∧ Fixes m inst inst'

/-- The entry of the code has nothing to lose, so it keeps its empty state. -/
theorem atHead_zero {code : Code} {fuel atHead} (h : computeAliases code fuel = some atHead) :
    atHead 0 = some [] := by
  have hzero := (ForwardFlow.stable_of_solve merge_shrinks h).2 0
  rw [comp, comp, update_self] at hzero
  cases hst : atHead 0 with
  | none =>
    rw [hst] at hzero
    exact absurd (top_le_iff.mp hzero) WithTop.coe_ne_top
  | some st =>
    rw [hst] at hzero
    rw [eq_nil_of_weight (Nat.le_zero.mp (WithTop.coe_le_coe.mp hzero))]

/-- Recorded aliases that hold give the next instruction of the fixed code the same bits. -/
theorem Recorded.fixes {target : Target} {code : Code} {atHead blk done inst rest m st}
    (h : Recorded target atHead blk done m st) (hrc : Reaches code blk done (inst :: rest) m)
    {fixed} (hfx : fixCode target code atHead = some fixed) :
    ∃ inst', (fixed blk)[done.length]? = some inst' ∧ Fixes m inst inst' := by
  have hinsts := hrc.append_eq
  have hwf := code.wellFormed blk inst (by simp [← hinsts])
  refine ⟨fixInst target _ inst, ?_, fixes_fixInst hwf h.fixing⟩
  unfold fixCode at hfx
  split at hfx
  · cases hfx
    dsimp only
    rw [h.head, Option.getD_some, ← hinsts]
    exact getElem?_fixBlock target st done rest inst
  · cases hfx

/-- The analysis ends, and it and the fixed code are sound exactly if neither walk knows a
constant with a sign for a register of which 32 bits are stored to an eight-byte slot. -/
theorem fixObviousSpills_sound_iff (target : Target) (code : Code) :
    (∃ fuel atHead, computeAliases code fuel = some atHead) ∧
      ∀ fuel atHead, computeAliases code fuel = some atHead →
        (IsSound target code atHead ↔ StoresAllUnsigned target code atHead) := by
  refine ⟨ForwardFlow.exists_solve merge_shrinks _ _, fun fuel atHead hsolve => ⟨?_, ?_⟩⟩
  · intro h
    apply storesUnsigned_of_recorded
    intro block done rest m hreach
    obtain ⟨state, hrecd, -⟩ := h block done rest m hreach
    exact ⟨state, hrecd⟩
  · intro hunsigned block done rest m hreach
    have hstable := (ForwardFlow.stable_of_solve merge_shrinks hsolve).1
    obtain ⟨state, hrecd⟩ :=
      exists_recorded target (atHead_zero hsolve) hstable hunsigned hreach
    refine ⟨state, hrecd, ?_⟩
    rintro inst rest' rfl fixed hfixed
    exact hrecd.fixes hreach hfixed

/-- Moves a constant to the first register. -/
abbrev loadConstant (value : BitVec 64) : Inst :=
  ⟨.Move, [⟨.imm .imm value, .Use, .width64⟩, ⟨.reg 0, .Def, .width64⟩], []⟩

/-- Stores 32 bits of the first register to an eight-byte spill slot. -/
abbrev spill32 (index : Nat) : Inst :=
  ⟨.Move32, [⟨.reg 0, .Use, .width32⟩, ⟨.stack ⟨index, 8, true⟩, .ZDef, .width32⟩], []⟩

/-- Leaves anything in the first register. -/
abbrev overwrite : Inst := ⟨.other 0, [⟨.reg 0, .Def, .width64⟩], []⟩

/-- Reads the first spill slot. -/
abbrev reload : Inst :=
  ⟨.Move, [⟨.stack ⟨0, 8, true⟩, .Use, .width64⟩, ⟨.reg 1, .Def, .width64⟩], []⟩

theorem wellFormed_spilling (value : BitVec 64) (index : Nat) {inst : Inst}
    (hm : inst ∈ [loadConstant value, spill32 index, overwrite, reload]) : WellFormed inst := by
  simp only [mem_cons, not_mem_nil, or_false] at hm
  rcases hm with rfl | rfl | rfl | rfl
  all_goals
    refine ⟨?_, by simp [Width.bytes]⟩
    rintro role width hfr
    cases hfr <;> exact ⟨rfl, _, _, rfl, by simp⟩

/-- The first block spills a constant without sign. The second, a loop, overwrites the
register, spills what it does not know and reads the constant back. -/
def loopSpill : Code where
  last := 1
  insts block :=
    if block = 0 then [loadConstant 5, spill32 0] else [overwrite, spill32 1, reload]
  successorBlocks _ := [1]
  wellFormed block inst hmem := by
    apply wellFormed_spilling 5 (if block = 0 then 0 else 1)
    split at hmem
    · rename_i hblock
      simp only [hblock, if_true, mem_cons, not_mem_nil, or_false] at hmem ⊢
      tauto
    · rename_i hblock
      simp only [hblock, if_false, mem_cons, not_mem_nil, or_false] at hmem ⊢
      tauto

/-- Only the constant of the slot is known at the head of the loop. -/
def loopSpillAtHead : Fin 2 → Option State
  | 0 => some []
  | 1 => some [.slotConst ⟨0, 8, true⟩ 5]

theorem computeAliases_loopSpill :
    computeAliases loopSpill 2 = some loopSpillAtHead := by
  refine congrArg some (funext fun block : Fin 2 => ?_)
  match block with
  | 0 => rfl
  | 1 => rfl

theorem storesUnsigned_of_ne {st : State} {inst : Inst} (h : inst.opcode ≠ .Move32) :
    StoresUnsigned st inst :=
  fun _ _ _ hsp => absurd hsp.opcode h

theorem storesUnsigned_spill32 {st : State} {known : Option (BitVec 64)} (idx : Nat)
    (h : constantFor st (.reg 0) = known) (hu : ∀ const ∈ known, const.getLsbD 31 = false) :
    StoresUnsigned st (spill32 idx) := by
  rintro reg slot const ⟨-, ⟨⟩, -⟩ hcn
  exact hu const (h.symm.trans hcn)

-- The points of the two blocks: the constant is known where it is stored, and forgotten in
-- the loop.
theorem storesAllUnsigned_loopSpill (target : Target) :
    StoresAllUnsigned target loopSpill loopSpillAtHead := by
  intro block done inst rest m state hreach hhead
  have hinsts := hreach.append_eq
  match block, done with
  | (0 : Fin 2), [] =>
    cases hinsts
    exact ⟨storesUnsigned_of_ne nofun, storesUnsigned_of_ne nofun⟩
  | (0 : Fin 2), [_] =>
    cases hinsts
    cases hhead
    have hfive : ∀ constant ∈ some (5 : BitVec 64), constant.getLsbD 31 = false := by
      rintro _ ⟨⟩
      decide
    exact ⟨storesUnsigned_spill32 0 rfl hfive, storesUnsigned_spill32 0 rfl hfive⟩
  | (0 : Fin 2), _ :: _ :: _ => simp [loopSpill] at hinsts
  | (1 : Fin 2), [] =>
    cases hinsts
    exact ⟨storesUnsigned_of_ne nofun, storesUnsigned_of_ne nofun⟩
  | (1 : Fin 2), [_] =>
    cases hinsts
    cases hhead
    exact ⟨storesUnsigned_spill32 1 rfl nofun, storesUnsigned_spill32 1 rfl nofun⟩
  | (1 : Fin 2), [_, _] =>
    cases hinsts
    exact ⟨storesUnsigned_of_ne nofun, storesUnsigned_of_ne nofun⟩
  | (1 : Fin 2), _ :: _ :: _ :: _ => simp [loopSpill] at hinsts

/-- The loop reads the constant instead of the slot. -/
theorem fixObviousSpills_sound_loopSpill :
    IsSound ⟨fun _ => true, fun _ => true⟩ loopSpill loopSpillAtHead ∧
      ∃ fixed, fixCode ⟨fun _ => true, fun _ => true⟩ loopSpill loopSpillAtHead = some fixed ∧
        fixed 1 = [overwrite, spill32 1,
          ⟨.Move, [⟨.imm .imm 5, .Use, .width64⟩, ⟨.reg 1, .Def, .width64⟩], []⟩] := by
  refine ⟨?_, _, rfl, by decide⟩
  exact ((fixObviousSpills_sound_iff _ loopSpill).2 2 _ computeAliases_loopSpill).mpr
    (storesAllUnsigned_loopSpill _)

/-- Stores all ones with 32 bits, overwrites the register and reads the slot back. -/
def signedSpill : Code where
  last := 0
  insts _ := [loadConstant (-1), spill32 0, overwrite, reload]
  successorBlocks _ := []
  wellFormed _ _ hmem := wellFormed_spilling (-1) 0 hmem

/-- The slot has 32 zeros in its upper half, but the immediate that replaces it has ones. -/
theorem fixCode_signedSpill :
    ∃ atHead state done inst m fixed inst', computeAliases signedSpill 1 = some atHead ∧
      atHead 0 = some state ∧
      Reaches signedSpill 0 done [inst] m ∧
        ¬ Holds (done.foldl executeInst state) m ∧
      fixCode ⟨fun _ => true, fun _ => true⟩ signedSpill atHead = some fixed ∧
      (fixed 0)[done.length]? = some inst' ∧ ¬ Fixes m inst inst' := by
  let m : Machine := ⟨fun _ => -1, fun _ => 0xFFFFFFFF⟩
  have hstep : ∀ inst, (∀ source destination, inst.operands = [source, destination] →
      Writes inst.opcode (m.read source.arg) m destination.arg) → Step inst m m :=
    fun _ hmoves => ⟨fun _ _ => rfl, fun _ _ _ => rfl, hmoves⟩
  refine ⟨update (fun _ => none) 0 (some []), [], _, _, m, _, ⟨.Move, [⟨.imm .imm (-1),
    .Use, .width64⟩, ⟨.reg 1, .Def, .width64⟩], []⟩, rfl, rfl, (((Reaches.start m).step
    (hstep _ ?_)).step (hstep _ ?_)).step (hstep _ ?_), ?_, rfl, rfl, ?_⟩
  · rintro _ _ ⟨⟩
    rfl
  · rintro _ _ ⟨⟩
    exact (by decide : (0xFFFFFFFF : BitVec 64) = uint32 (-1))
  · rintro _ _ ⟨⟩
  · intro h
    have hconst := h (.slotConst ⟨0, 8, true⟩ (-1)) (by decide)
    exact absurd hconst.2 (by decide)
  · intro h
    cases h.operands with
    | cons hsupp _ =>
      rcases hsupp with heq | ⟨_, _, _, heq, _, _, hbits⟩
      · cases heq
      · cases heq
        exact absurd hbits (by decide)

end FixObviousSpills

end QtWebKit.B3.Air
