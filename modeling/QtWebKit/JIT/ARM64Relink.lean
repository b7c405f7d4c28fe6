import Mathlib

/-!
# Relinking ARM64 branches

A patchable branch is two words of code. Linked to a near target it is the branch and a nop,
linked to a far target it is the inverse branch over a jump. `relinkJumpOrCall` reads the words
back and links them to another target.

## Implementation notes

A target is its distance from the branch in instructions. Callers branch on the fourteen
conditions before `ConditionAL`, and compare and test with `ConditionEQ` and `ConditionNE`, which
are the bit `op` of the word.
-/

namespace QtWebKit.JIT.ARM64Assembler

open BitVec

/-! ### Instruction words -/

def bit (b : Bool) : BitVec 32 := (BitVec.ofBool b).setWidth 32

def conditionalBranchImmediate (imm19 : BitVec 32) (cond : BitVec 4) : BitVec 32 :=
  0x54000000#32 ||| (imm19 &&& 0x7ffff) <<< 5 ||| cond.setWidth 32

def compareAndBranchImmediate (sf op : Bool) (imm19 : BitVec 32) (rt : BitVec 5) : BitVec 32 :=
  0x34000000#32 ||| bit sf <<< 31 ||| bit op <<< 24 ||| (imm19 &&& 0x7ffff) <<< 5 ||| rt.setWidth 32

def testAndBranchImmediate (op : Bool) (b50 : BitVec 6) (imm14 : BitVec 32) (rt : BitVec 5) :
    BitVec 32 :=
  0x36000000#32 ||| (b50 >>> 5).setWidth 32 <<< 31 ||| bit op <<< 24 |||
    (b50 &&& 0x1f).setWidth 32 <<< 19 ||| (imm14 &&& 0x3fff) <<< 5 ||| rt.setWidth 32

def unconditionalBranchImmediate (op : Bool) (imm26 : BitVec 32) : BitVec 32 :=
  0x14000000#32 ||| bit op <<< 31 ||| imm26 &&& 0x3ffffff

def nopPseudo : BitVec 32 := 0xd503201f

/-- What a branch tests. -/
inductive Branch where
  | conditional (cond : BitVec 4)
  | compareAndBranch (sf op : Bool) (rt : BitVec 5)
  | testAndBranch (op : Bool) (b50 : BitVec 6) (rt : BitVec 5)
  deriving DecidableEq, Repr

def disassembleConditionalBranchImmediate (insn : BitVec 32) : Option (Branch × Int) :=
  if insn &&& 0xfe000000 = 0x54000000 then
    some (.conditional (insn.setWidth 4), ((insn <<< 8).sshiftRight 13).toInt) else none

def disassembleCompareAndBranchImmediate (insn : BitVec 32) : Option (Branch × Int) :=
  if insn &&& 0x7e000000 = 0x34000000 then
    some (.compareAndBranch (insn.getLsbD 31) (insn.getLsbD 24) (insn.setWidth 5),
      ((insn <<< 8).sshiftRight 13).toInt) else none

def disassembleTestAndBranchImmediate (insn : BitVec 32) : Option (Branch × Int) :=
  if insn &&& 0x7e000000 = 0x36000000 then
    some (.testAndBranch (insn.getLsbD 24)
      (insn.sshiftRight 26 &&& 0x20 ||| insn.sshiftRight 19 &&& 0x1f |>.setWidth 6)
      (insn.setWidth 5), ((insn <<< 13).sshiftRight 18).toInt) else none

def disassembleUnconditionalBranchImmediate (insn : BitVec 32) : Option (Bool × Int) :=
  if insn &&& 0x7c000000 = 0x14000000 then
    some (insn.getLsbD 31, ((insn <<< 6).sshiftRight 6).toInt) else none

/-- The disassemblers in the order `relinkJumpOrCall` tries them. -/
def disassembleBranch (insn : BitVec 32) : Option (Branch × Int) :=
  disassembleConditionalBranchImmediate insn <|> disassembleCompareAndBranchImmediate insn <|>
    disassembleTestAndBranchImmediate insn

theorem immediate_eq (w : BitVec 32) :
    (w <<< 8).sshiftRight 13 = (w.extractLsb' 5 19).signExtend 32 ∧
      (w <<< 13).sshiftRight 18 = (w.extractLsb' 5 14).signExtend 32 ∧
      (w <<< 6).sshiftRight 6 = (w.setWidth 26).signExtend 32 := by
  refine ⟨?_, ?_, ?_⟩ <;> ext i hi <;> interval_cases i <;>
    simp [BitVec.getElem_sshiftRight, BitVec.msb, BitVec.getElem_signExtend]

theorem toInt_setWidth_ofInt (width : Nat) (h : width ≤ 32) (offset : Int) :
    (((BitVec.ofInt 32 offset).setWidth width).signExtend 32).toInt = offset.bmod (2 ^ width) := by
  rw [BitVec.toInt_signExtend_of_le h, ← BitVec.signExtend_eq_setWidth_of_le _ h,
    BitVec.toInt_signExtend, BitVec.toInt_ofInt, Nat.min_eq_left h,
    Int.bmod_bmod_of_dvd (Nat.pow_dvd_pow 2 h)]

section

variable (imm : BitVec 32) (cond : BitVec 4) (sf op : Bool) (b50 : BitVec 6) (rt : BitVec 5)

theorem disassemble_conditionalBranchImmediate :
    disassembleBranch (conditionalBranchImmediate imm cond) =
      some (.conditional cond, ((imm.setWidth 19).signExtend 32).toInt) := by
  generalize hw : conditionalBranchImmediate imm cond = w
  simp only [conditionalBranchImmediate] at hw
  have hfl : w &&& 0xfe000000#32 = 0x54000000#32 ∧ w.setWidth 4 = cond ∧
      w.extractLsb' 5 19 = imm.setWidth 19 := by
    refine ⟨?_, ?_, ?_⟩ <;> ext i hi <;> interval_cases i <;> simp [← hw]
  simp [disassembleBranch, disassembleConditionalBranchImmediate, hfl, immediate_eq]

theorem disassemble_compareAndBranchImmediate :
    disassembleBranch (compareAndBranchImmediate sf op imm rt) =
      some (.compareAndBranch sf op rt, ((imm.setWidth 19).signExtend 32).toInt) := by
  generalize hw : compareAndBranchImmediate sf op imm rt = w
  simp only [compareAndBranchImmediate, bit] at hw
  -- Bit 29 tells the word from a conditional branch.
  have ho : ¬w &&& 0xfe000000#32 = 0x54000000#32 := by
    intro h
    simpa [← hw] using congrArg (getLsbD · 29) h
  have hfl : w &&& 0x7e000000#32 = 0x34000000#32 ∧ w.setWidth 5 = rt ∧
      w.extractLsb' 5 19 = imm.setWidth 19 := by
    refine ⟨?_, ?_, ?_⟩ <;> ext i hi <;> interval_cases i <;> simp [← hw]
  have hbt : w[31] = sf ∧ w[24] = op := by simp [← hw]
  simp [disassembleBranch, disassembleConditionalBranchImmediate, ho, hbt,
    disassembleCompareAndBranchImmediate, hfl, immediate_eq]

theorem disassemble_testAndBranchImmediate :
    disassembleBranch (testAndBranchImmediate op b50 imm rt) =
      some (.testAndBranch op b50 rt, ((imm.setWidth 14).signExtend 32).toInt) := by
  generalize hw : testAndBranchImmediate op b50 imm rt = w
  simp only [testAndBranchImmediate, bit] at hw
  have ho : ¬w &&& 0xfe000000#32 = 0x54000000#32 := by
    intro h
    simpa [← hw] using congrArg (getLsbD · 29) h
  have hfl : w &&& 0x7e000000#32 = 0x36000000#32 ∧ w.setWidth 5 = rt ∧
      w.extractLsb' 5 14 = imm.setWidth 14 := by
    refine ⟨?_, ?_, ?_⟩ <;> ext i hi <;> interval_cases i <;> simp [← hw]
  have hn : (w.sshiftRight 26 &&& 32#32 ||| w.sshiftRight 19 &&& 31#32).setWidth 6 = b50 := by
    ext i hi
    interval_cases i <;> simp [← hw, getElem_sshiftRight]
  have hop : w[24] = op := by simp [← hw]
  simp [disassembleBranch, disassembleConditionalBranchImmediate, ho, hop,
    disassembleCompareAndBranchImmediate, disassembleTestAndBranchImmediate, hfl, hn,
    immediate_eq]

theorem disassembleUnconditionalBranchImmediate_eq :
    disassembleUnconditionalBranchImmediate (unconditionalBranchImmediate op imm) =
      some (op, ((imm.setWidth 26).signExtend 32).toInt) := by
  generalize hw : unconditionalBranchImmediate op imm = w
  simp only [unconditionalBranchImmediate, bit] at hw
  have hfl : w &&& 0x7c000000#32 = 0x14000000#32 ∧ w.setWidth 26 = imm.setWidth 26 := by
    constructor <;> ext i hi <;> interval_cases i <;> simp [← hw]
  have hop : w[31] = op := by simp [← hw]
  simp [disassembleUnconditionalBranchImmediate, hfl, hop, immediate_eq]

end

/-! ### Linking -/

namespace Branch

def invert : Branch → Branch
  | conditional cond => conditional (cond ^^^ 1)
  | compareAndBranch sf op rt => compareAndBranch sf (!op) rt
  | testAndBranch op b50 rt => testAndBranch (!op) b50 rt

/-- The bits of the immediate. -/
def width : Branch → Nat
  | testAndBranch .. => 14
  | _ => 19

def word (offset : Int) : Branch → BitVec 32
  | conditional cond => conditionalBranchImmediate (BitVec.ofInt 32 offset) cond
  | compareAndBranch sf op rt => compareAndBranchImmediate sf op (BitVec.ofInt 32 offset) rt
  | testAndBranch op b50 rt => testAndBranchImmediate op b50 (BitVec.ofInt 32 offset) rt

theorem bmod_width (b : Branch) (offset : Int) (h : 0 ≤ offset ∧ offset ≤ 8) :
    offset.bmod (2 ^ b.width) = offset := by
  cases b <;> simp only [width] <;> exact Int.bmod_eq_of_le (by omega) (by omega)

theorem disassembleBranch_word (b : Branch) (offset : Int) :
    disassembleBranch (b.word offset) = some (b, offset.bmod (2 ^ b.width)) := by
  have h := toInt_setWidth_ofInt b.width (by cases b <;> simp [width]) offset
  rw [← h]
  cases b with
  | conditional cond => exact disassemble_conditionalBranchImmediate _ cond
  | compareAndBranch sf op rt => exact disassemble_compareAndBranchImmediate _ sf op rt
  | testAndBranch op b50 rt => exact disassemble_testAndBranchImmediate _ op b50 rt

end Branch

def linkJumpOrCall (isCall : Bool) (offset : Int) : BitVec 32 :=
  unconditionalBranchImmediate isCall (BitVec.ofInt 32 offset)

/-- What `linkConditionalBranch`, `linkCompareAndBranch` and `linkTestAndBranch` share. -/
def linkBranch (isDirect : Bool) (b : Branch) (code : BitVec 32 × BitVec 32) (offset : Int) :
    BitVec 32 × BitVec 32 :=
  if offset.bmod (2 ^ b.width) = offset ∨ isDirect then
    (b.word offset, if isDirect then code.2 else nopPseudo)
  else (b.invert.word 2, linkJumpOrCall false (offset - 1))

def linkConditionalBranch (isDirect : Bool) (condition : BitVec 4) :=
  linkBranch isDirect (.conditional condition)

def linkCompareAndBranch (isDirect op is64Bit : Bool) (rt : BitVec 5) :=
  linkBranch isDirect (.compareAndBranch is64Bit op rt)

def linkTestAndBranch (isDirect op : Bool) (b50 : BitVec 6) (rt : BitVec 5) :=
  linkBranch isDirect (.testAndBranch op b50 rt)

def relinkJumpOrCall (isCall : Bool) (code : BitVec 32 × BitVec 32) (offset : Int) :
    BitVec 32 × BitVec 32 :=
  match if !isCall && code.2 == nopPseudo then disassembleBranch code.1 else none with
  -- The inverse branch of the far form has the immediate 2, and no nop behind it.
  | some (b, imm) => linkBranch false (if imm = 8 then b.invert else b) code offset
  | none => (code.1, linkJumpOrCall isCall (offset - 1))

/-! ### Where control goes -/

structure Machine where
  (n z c v : Bool)
  register : BitVec 5 → BitVec 64

def Machine.holds (m : Machine) (cond : BitVec 4) : Bool :=
  let base := match cond.toNat / 2 with
    | 0 => m.z
    | 1 => m.c
    | 2 => m.n
    | 3 => m.v
    | 4 => m.c && !m.z
    | 5 => m.n == m.v
    | 6 => m.n == m.v && !m.z
    | _ => true
  if cond.getLsbD 0 ∧ cond ≠ 15 then !base else base

namespace Branch

def taken (m : Machine) : Branch → Bool
  | conditional cond => m.holds cond
  | compareAndBranch sf op rt => op == ((m.register rt).setWidth (if sf then 64 else 32) != 0)
  | testAndBranch op b50 rt => op == (m.register rt).getLsbD b50.toNat

/-- The condition is not `ConditionAL` or `ConditionInvalid`, which have no inverse. -/
def Invertible : Branch → Prop
  | conditional cond => cond < 14
  | _ => True

theorem Invertible.invert {b : Branch} (hb : b.Invertible) : b.invert.Invertible := by
  cases b with
  | conditional cond =>
    revert cond
    simp only [Invertible, Branch.invert]
    decide
  | _ => trivial

theorem Invertible.taken_invert {b : Branch} (hb : b.Invertible) (m : Machine) :
    b.invert.taken m = !b.taken m := by
  cases b with
  | conditional cond =>
    obtain ⟨n, z, c, v, register⟩ := m
    revert cond n z c v
    simp only [Invertible, Branch.invert, taken, Machine.holds]
    decide
  | compareAndBranch sf op rt => cases op <;> simp [Branch.invert, taken]
  | testAndBranch op b50 rt => cases op <;> simp [Branch.invert, taken]

end Branch

/-- Where control goes from a patchable branch, as a distance from it. -/
def next (m : Machine) (code : BitVec 32 × BitVec 32) : Option Int := do
  let (b, imm) ← disassembleBranch code.1
  if b.taken m then some imm
  else if code.2 = nopPseudo then some 2
  else (disassembleUnconditionalBranchImmediate code.2).map (1 + ·.2)

/-- The jump of the far form reaches the target. -/
def InRange (offset : Int) : Prop := -2 ^ 25 < offset ∧ offset < 2 ^ 25

theorem linkJumpOrCall_ne_nopPseudo (isCall : Bool) (offset : Int) :
    linkJumpOrCall isCall offset ≠ nopPseudo := by
  intro h
  simpa [linkJumpOrCall, unconditionalBranchImmediate, nopPseudo, bit] using
    congrArg (getLsbD · 30) h

section

variable {b : Branch} {code : BitVec 32 × BitVec 32} {offset first : Int}

theorem next_jump (hb : b.Invertible) (h : InRange offset) (m : Machine) :
    next m (b.invert.word 2, linkJumpOrCall false (offset - 1)) =
      some (if b.taken m then offset else 2) := by
  have htw := b.invert.bmod_width 2 (by simp)
  have hj : (offset - 1).bmod (2 ^ 26) = offset - 1 := by
    rw [InRange] at h
    exact Int.bmod_eq_of_le (by omega) (by omega)
  have hwr : disassembleUnconditionalBranchImmediate (linkJumpOrCall false (offset - 1)) =
      some (false, offset - 1) := by
    rw [linkJumpOrCall, disassembleUnconditionalBranchImmediate_eq,
      toInt_setWidth_ofInt 26 (by simp), hj]
  cases ht : b.taken m <;>
    simp [next, Branch.disassembleBranch_word, htw, hb.taken_invert, ht, hwr,
      linkJumpOrCall_ne_nopPseudo]

theorem next_linkBranch (hb : b.Invertible) (h : InRange offset) (m : Machine) :
    next m (linkBranch false b code offset) = some (if b.taken m then offset else 2) := by
  by_cases hf : offset.bmod (2 ^ b.width) = offset
  · cases ht : b.taken m <;>
      simp [linkBranch, next, Branch.disassembleBranch_word, hf, ht]
  · simpa [linkBranch, hf] using next_jump hb h m

theorem relink_linkBranch :
    relinkJumpOrCall false (linkBranch false b code first) offset =
      if first.bmod (2 ^ b.width) = first then
        linkBranch false (if first = 8 then b.invert else b) code offset
      else (b.invert.word 2, linkJumpOrCall false (offset - 1)) := by
  by_cases hf : first.bmod (2 ^ b.width) = first
  · simp [relinkJumpOrCall, linkBranch, hf, Branch.disassembleBranch_word]
  · simp [relinkJumpOrCall, linkBranch, hf, linkJumpOrCall_ne_nopPseudo]

/-- After a first target eight instructions away, the target and the following instruction are
swapped. -/
theorem next_relink (hb : b.Invertible) (h : InRange offset) (m : Machine) :
    next m (relinkJumpOrCall false (linkBranch false b code first) offset) =
      some (if b.taken m ↔ first ≠ 8 then offset else 2) := by
  rw [relink_linkBranch]
  by_cases hfr : first = 8
  · have hf := b.bmod_width 8 (by simp)
    simp [hfr, hf, next_linkBranch hb.invert h, hb.taken_invert]
  · split
    · simp [hfr, next_linkBranch hb h]
    · simp [hfr, next_jump hb h]

/-- Linking is right, and relinking does the same unless the first target was eight instructions
away and the second is not the following instruction. -/
theorem relinkJumpOrCall_iff (hb : b.Invertible) (h : InRange offset) :
    (∀ m, next m (linkBranch false b code offset) = some (if b.taken m then offset else 2)) ∧
      ((∀ m, next m (relinkJumpOrCall false (linkBranch false b code first) offset) =
        next m (linkBranch false b code offset)) ↔ first ≠ 8 ∨ offset = 2) := by
  refine ⟨next_linkBranch hb h, ?_⟩
  simp only [next_relink hb h, next_linkBranch hb h]
  refine ⟨fun hsame => ?_, fun hcase m => ?_⟩
  · obtain ⟨m⟩ : Nonempty Machine := ⟨⟨false, false, false, false, fun _ => 0⟩⟩
    have hm := hsame m
    by_contra! hcase
    cases htaken : b.taken m <;> simp [htaken, hcase, hcase.2.symm] at hm
  · rcases hcase with hcase | hcase <;> simp [hcase]

end

theorem relinkJumpOrCall_tbnz :
    next ⟨false, false, false, false, fun _ => 32⟩
      (relinkJumpOrCall false (linkTestAndBranch false true 5 3 (0, 0) 100000) 20) = some 20 :=
  (relinkJumpOrCall_iff (b := .testAndBranch true 5 3) trivial ⟨by decide, by decide⟩).2.2
    (.inl (by decide)) _

/-- A branch on equality linked eight instructions ahead and then twenty ahead. -/
theorem relinkJumpOrCall_eight :
    next ⟨false, true, false, false, fun _ => 0⟩
        (relinkJumpOrCall false (linkConditionalBranch false 0 (0, 0) 8) 20) = some 2 ∧
      next ⟨false, true, false, false, fun _ => 0⟩
        (linkConditionalBranch false 0 (0, 0) 20) = some 20 := by
  decide

end QtWebKit.JIT.ARM64Assembler
