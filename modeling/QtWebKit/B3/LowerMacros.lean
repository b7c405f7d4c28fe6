import QtWebKit.B3.Value
import QtWebKit.Lib.SortedDispatch

/-!
# Lowering of macros

A `Switch` becomes a decision tree of compares, and the divisions that never trap become
branches around the plain division. The lowering inserts blocks; each is reached only from
the code that stood in the place of the lowered value.

## Implementation notes

The inserted blocks have no cycle, so a successor that was inserted is given by its code; a
block with two predecessors is the same code twice. The values that a block computes are
computed where they are used. A failed run is one that executes a division with an open result.
-/

namespace QtWebKit.B3

open List Option

open Lib (Increasing Bracket Fits leavesNoGap)

/-- The values of the inserted code; the children are those of the lowered value. -/
inductive MacroValue (w : Nat) where
  | child (index : Fin 2)
  | const (value : BitVec w)
  | add (left right : MacroValue w)
  | sub (left right : MacroValue w)
  | mul (left right : MacroValue w)
  | div (left right : MacroValue w)
  | mod (left right : MacroValue w)
  | chillDiv (left right : MacroValue w)

/-- The values that branches test. -/
inductive MacroTest (w : Nat) where
  | value (child : MacroValue w)
  | equal (left right : MacroValue w)
  | above (left right : MacroValue w)
  | lessThan (left right : MacroValue w)

/-- Inserted code: its successors are blocks that were there before, or inserted code. -/
inductive MacroCode (w : Nat) where
  | existing (block : Nat)
  | jump (target : MacroCode w)
  | upsilonJump (result : MacroValue w) (target : MacroCode w)
  | branch (test : MacroTest w) (taken notTaken : MacroCode w)

section

variable {w : Nat} (children : Fin 2 → BitVec w)

def MacroValue.eval : MacroValue w → Option (BitVec w)
  | child index => some (children index)
  | const value => some value
  | add left right => left.eval.bind fun x => right.eval.map fun y => x + y
  | sub left right => left.eval.bind fun x => right.eval.map fun y => x - y
  | mul left right => left.eval.bind fun x => right.eval.map fun y => x * y
  | div left right => left.eval.bind fun x => right.eval.bind fun y =>
    if isOpen x y then none else some (x.sdiv y)
  | mod left right => left.eval.bind fun x => right.eval.bind fun y =>
    if isOpen x y then none else some (x.srem y)
  | chillDiv left right => left.eval.bind fun x => right.eval.map fun y => B3.chillDiv x y

def MacroTest.eval : MacroTest w → Option Bool
  | value child => (child.eval children).map fun x => decide (x ≠ 0)
  | equal left right => (left.eval children).bind fun x => (right.eval children).map fun y =>
    decide (x = y)
  | above left right => (left.eval children).bind fun x => (right.eval children).map fun y =>
    y.ult x
  | lessThan left right => (left.eval children).bind fun x => (right.eval children).map fun y =>
    x.slt y

/-- The block that is reached and the value of the phi. -/
def MacroCode.run (phi : Option (BitVec w)) : MacroCode w → Option (Nat × Option (BitVec w))
  | existing block => some (block, phi)
  | jump target => target.run phi
  | upsilonJump result target => (result.eval children).bind fun x => target.run (some x)
  | branch test taken notTaken =>
    (test.eval children).bind fun holds => if holds then taken.run phi else notTaken.run phi

end

/-! ### Switches -/

structure SwitchCase where
  caseValue : Int
  target : Nat
  deriving DecidableEq, Repr

section

variable {w : Nat} (cases : List SwitchCase) (fallThrough : Nat)

def switchCase (i : Nat) : SwitchCase := cases.getD i ⟨0, 0⟩

/-- The constant of a case in the type of the switch. -/
def caseConst (w : Nat) (i : Nat) : MacroValue w :=
  .const (BitVec.ofInt w (switchCase cases i).caseValue)

def recursivelyBuildSwitch (start : Nat) (hardStart : Bool) (stop : Nat) : MacroCode w :=
  if stop - start ≤ 3 then
    let allConsecutive :=
      leavesNoGap (fun i => (switchCase cases i).caseValue) cases.length start hardStart stop
    let limit := if allConsecutive then stop - start - 1 else stop - start
    let last := if allConsecutive then (switchCase cases (stop - 1)).target else fallThrough
    (List.range' start limit).foldr (fun i nextCheck =>
      .branch (.equal (.child 0) (caseConst cases w i)) (.existing (switchCase cases i).target)
        nextCheck)
      (.jump (.existing last))
  else
    let median := (start + stop) / 2
    .branch (.lessThan (.child 0) (caseConst cases w median))
      (recursivelyBuildSwitch start hardStart median) (recursivelyBuildSwitch median true stop)
termination_by stop - start

/-- The code in the place of a `Switch`. -/
def lowerSwitch : MacroCode w :=
  let sorted := cases.mergeSort fun a b => a.caseValue ≤ b.caseValue
  recursivelyBuildSwitch sorted fallThrough 0 false sorted.length

/-- The successor that a `Switch` chooses. -/
def switchTarget (value : Int) : Nat :=
  match cases.find? fun entry => entry.caseValue = value with
  | some entry => entry.target
  | none => fallThrough

end

/-! ### Chill divisions -/

section

variable {w : Nat} (after : Nat)

inductive ChillOpcode where
  | chillDiv
  | chillMod
  deriving DecidableEq, Repr

/-- The code in the place of a chill division on x86; `after` is the block of its uses. -/
def makeDivisionChill (opcode : ChillOpcode) : MacroCode w :=
  let one : MacroValue w := .const 1
  let isDenOK : MacroTest w := .above (.add (.child 1) one) one
  let badNumerator : MacroValue w := .const (BitVec.intMin w)
  let normalDivCase : MacroCode w :=
    .upsilonJump (match opcode with
      | .chillDiv => .div (.child 0) (.child 1)
      | .chillMod => .mod (.child 0) (.child 1)) (.existing after)
  let zeroDenCase : MacroCode w := .upsilonJump (.const 0) (.existing after)
  let intMinCase : MacroCode w :=
    .upsilonJump (match opcode with
      | .chillDiv => badNumerator
      | .chillMod => .const 0) (.existing after)
  let neg1DenCase : MacroCode w := .branch (.equal (.child 0) badNumerator) intMinCase normalDivCase
  let shadyDenCase : MacroCode w := .branch (.value (.child 1)) neg1DenCase zeroDenCase
  .branch isDenOK normalDivCase shadyDenCase

/-- The code in the place of a `ChillMod` on ARM64, where `ChillDiv` is an instruction. -/
def makeModChill : MacroCode w :=
  let divResult : MacroValue w := .chillDiv (.child 0) (.child 1)
  let normalModCase : MacroCode w :=
    .upsilonJump (.sub (.child 0) (.mul divResult (.child 1))) (.existing after)
  let zeroDenCase : MacroCode w := .upsilonJump (.const 0) (.existing after)
  .branch (.value (.child 1)) normalModCase zeroDenCase

/-- The code in the place of a chill division; no code if the instruction stays. -/
def lowerChill (isARM64 : Bool) : ChillOpcode → Option (MacroCode w)
  | .chillDiv => if isARM64 then none else some (makeDivisionChill after .chillDiv)
  | .chillMod => some (if isARM64 then makeModChill after else makeDivisionChill after .chillMod)

def ChillOpcode.eval : ChillOpcode → BitVec w → BitVec w → BitVec w
  | chillDiv => B3.chillDiv
  | chillMod => B3.chillMod

end

/-! ### The lowered switch -/

section

variable {w : Nat} {cases : List SwitchCase} {fallThrough : Nat} {children : Fin 2 → BitVec w}
  {phi : Option (BitVec w)}

theorem run_checks (hw : 0 < w) {indices : List Nat} {next : MacroCode w} {tgt}
    (hf : ∀ i ∈ indices, Fits w (switchCase cases i).caseValue)
    (hht : ∀ i ∈ indices, (switchCase cases i).caseValue = (children 0).toInt →
      tgt = (switchCase cases i).target)
    (hms : (∀ i ∈ indices, (switchCase cases i).caseValue ≠ (children 0).toInt) →
      next.run children phi = some (tgt, phi)) :
    (indices.foldr (fun i nextCheck =>
      .branch (.equal (.child 0) (caseConst cases w i)) (.existing (switchCase cases i).target)
        nextCheck)
      next).run children phi = some (tgt, phi) := by
  induction indices with
  | nil => exact hms (by simp)
  | cons i rest ih =>
    rw [forall_mem_cons] at hf hht
    have ht : (MacroTest.equal (.child 0) (caseConst cases w i)).eval children =
        some (decide ((switchCase cases i).caseValue = (children 0).toInt)) := by
      simp [MacroTest.eval, MacroValue.eval, caseConst, Lib.eq_ofInt_iff hw hf.1]
    rw [foldr_cons, MacroCode.run, ht, bind_some]
    by_cases heq : (switchCase cases i).caseValue = (children 0).toInt
    · rw [if_pos (decide_eq_true heq), hht.1 heq, MacroCode.run]
    · rw [if_neg (by simpa using heq)]
      exact ih hf.2 hht.2 fun hr => hms (forall_mem_cons.mpr ⟨heq, hr⟩)

/-- Every part of the sorted cases has code that chooses the successor of the values between
its bounds. -/
theorem run_recursivelyBuildSwitch
    (hin : Increasing (fun i => (switchCase cases i).caseValue) cases.length) (hw : 0 < w)
    (hf : ∀ i < cases.length, Fits w (switchCase cases i).caseValue) {start hardStart}
    {stop} (hlt : start < stop) (hle : stop ≤ cases.length) (hh : hardStart = true → start ≠ 0)
    (hb : Bracket (fun i => (switchCase cases i).caseValue) cases.length start stop
      (children 0).toInt) :
    (recursivelyBuildSwitch cases fallThrough start hardStart stop).run children phi =
      some (switchTarget cases fallThrough (children 0).toInt, phi) := by
  have hsl (i) (hi : i < cases.length) (heq : (switchCase cases i).caseValue = (children 0).toInt) :
      switchTarget cases fallThrough (children 0).toInt = (switchCase cases i).target := by
    rw [← heq, switchTarget, switchCase, Lib.find?_key hin hi]
  induction hsz : stop - start using Nat.strong_induction_on generalizing start hardStart stop with
  | h size ih =>
    rw [recursivelyBuildSwitch]
    split
    · dsimp only
      apply run_checks hw
      · intro i hi
        have := mem_range'_1.mp hi
        exact hf i (by split at this <;> omega)
      · intro i hi heq
        have := mem_range'_1.mp hi
        exact hsl i (by split at this <;> omega) heq
      · intro hno
        have his (i) (hi : i < cases.length)
            (heq : (switchCase cases i).caseValue = (children 0).toInt) : start ≤ i ∧ i < stop :=
          hb.mem_of_key_eq hin hi heq (by omega)
        cases hg : leavesNoGap (fun i => (switchCase cases i).caseValue) cases.length start
          hardStart stop with
        | true =>
          rw [hg, if_pos rfl] at hno
          obtain ⟨i, hst, hp, heq⟩ := hb.exists_key_eq hh hlt hg
          have hl : i = stop - 1 := by
            by_contra ho
            exact hno i (mem_range'_1.mpr (by omega)) heq
          rw [if_pos rfl, ← hl, hsl i (by omega) heq]
          rfl
        | false =>
          rw [hg, if_neg Bool.false_ne_true] at hno
          have ho : ∀ i < cases.length, (switchCase cases i).caseValue ≠ (children 0).toInt := by
            intro i hi heq
            have := his i hi heq
            exact hno i (mem_range'_1.mpr (by omega)) heq
          rw [if_neg Bool.false_ne_true, switchTarget, Lib.find?_key_eq_none ho]
          rfl
    · have ht : (MacroTest.lessThan (.child 0) (caseConst cases w ((start + stop) / 2))).eval
        children =
          some (decide ((children 0).toInt <
            (switchCase cases ((start + stop) / 2)).caseValue)) := by
        have hls := @Lib.slt_ofInt_iff _ _ hw (hf ((start + stop) / 2) (by omega)) (children 0)
        simp only [MacroTest.eval, MacroValue.eval, caseConst, bind_some, map_some, some.injEq]
        rw [Bool.eq_iff_iff, hls, decide_eq_true_iff]
      rw [MacroCode.run, ht, bind_some]
      by_cases hls : (children 0).toInt < (switchCase cases ((start + stop) / 2)).caseValue
      · rw [if_pos (decide_eq_true hls)]
        exact ih _ (by omega) (by omega) (by omega) hh (hb.left hls) rfl
      · rw [if_neg (by simpa using hls)]
        exact ih _ (by omega) (by omega) hle (by omega) (hb.right hls) rfl

theorem switchTarget_perm {sorted : List SwitchCase} (hpr : sorted.Perm cases)
    (hd : (cases.map SwitchCase.caseValue).Nodup) (val : Int) :
    switchTarget sorted fallThrough val = switchTarget cases fallThrough val := by
  unfold switchTarget
  cases hfn : cases.find? fun ent => ent.caseValue = val with
  | none =>
    have hno := find?_eq_none.mpr fun ent he => find?_eq_none.mp hfn ent (hpr.mem_iff.mp he)
    rw [hno]
  | some ent =>
    have hv : ent.caseValue = val := by simpa using find?_some hfn
    obtain ⟨oth, ho⟩ : ∃ oth, sorted.find? (fun ent => ent.caseValue = val) = some oth :=
      isSome_iff_exists.mp (find?_isSome.mpr
        ⟨ent, hpr.mem_iff.mpr (mem_of_find?_eq_some hfn), decide_eq_true hv⟩)
    have hsm : oth = ent := by
      apply inj_on_of_nodup_map hd (hpr.mem_iff.mp (mem_of_find?_eq_some ho))
        (mem_of_find?_eq_some hfn)
      have hv' : oth.caseValue = val := by simpa using find?_some ho
      exact hv'.trans hv.symm
    rw [ho, hsm]

theorem run_lowerSwitch (hw : 0 < w) (hd : (cases.map SwitchCase.caseValue).Nodup)
    (hf : ∀ ent ∈ cases, Fits w ent.caseValue) :
    (lowerSwitch cases fallThrough).run children phi =
      some (switchTarget cases fallThrough (children 0).toInt, phi) := by
  unfold lowerSwitch
  have hpr := mergeSort_perm cases fun a b => decide (a.caseValue ≤ b.caseValue)
  have hpa := Lib.pairwise_mergeSort_key hd
  dsimp only
  generalize (cases.mergeSort fun a b => decide (a.caseValue ≤ b.caseValue)) = sorted at hpr hpa ⊢
  rw [← switchTarget_perm hpr hd]
  cases hs : sorted with
  | nil =>
    rw [length_nil, recursivelyBuildSwitch]
    rfl
  | cons ent rest =>
    rw [← hs]
    have hps : 0 < sorted.length := by rw [hs]; exact Nat.succ_pos _
    refine run_recursivelyBuildSwitch (Lib.increasing_of_pairwise hpa ⟨0, 0⟩) hw (fun i hi => ?_)
      hps
      (le_refl _) (by simp) (Bracket.whole _)
    rw [switchCase, getD_eq_getElem _ _ hi]
    exact hf _ (hpr.mem_iff.mp (getElem_mem hi))

end

/-! ### The lowered divisions -/

section

variable {w : Nat} {after : Nat} {children : Fin 2 → BitVec w} {phi : Option (BitVec w)}

/-- The test `den + 1 > 1` for the denominators other than `0` and `-1`. -/
theorem ult_add_one_iff (hw : 0 < w) (den : BitVec w) :
    (1#w).ult (den + 1#w) = true ↔ den ≠ 0 ∧ den ≠ -1 := by
  have hpw : 1 < 2 ^ w := Nat.one_lt_two_pow hw.ne'
  have hz : den = 0 ↔ den.toNat = 0 := by rw [← BitVec.toNat_inj]; rfl
  have hon : den = -1 ↔ den.toNat = 2 ^ w - 1 := by
    rw [← BitVec.toNat_inj, show (-1 : BitVec w) = BitVec.allOnes w from BitVec.neg_one_eq_allOnes,
      BitVec.toNat_allOnes]
  have hlt := den.isLt
  rw [BitVec.ult, decide_eq_true_iff, BitVec.toNat_add, BitVec.toNat_ofNat, Nat.mod_eq_of_lt hpw,
    ne_eq, hz, ne_eq, hon]
  by_cases hmx : den.toNat = 2 ^ w - 1
  · rw [hmx, Nat.sub_add_cancel hpw.le, Nat.mod_self]
    omega
  · rw [Nat.mod_eq_of_lt (by omega)]
    omega

theorem run_makeDivisionChill (hw : 0 < w) (opcode : ChillOpcode) :
    (makeDivisionChill after opcode).run children phi =
      some (after, some (opcode.eval (children 0) (children 1))) := by
  have ht : (MacroTest.above (.add (.child 1) (.const 1)) (.const 1)).eval children =
      some ((1#w).ult (children 1 + 1#w)) := rfl
  unfold makeDivisionChill
  dsimp only
  rw [MacroCode.run, ht, bind_some]
  by_cases hok : children 1 ≠ 0 ∧ children 1 ≠ -1
  · have hz : children 1 ≠ 0#w := hok.1
    have hon : children 1 ≠ -1#w := hok.2
    rw [if_pos ((ult_add_one_iff hw _).mpr hok)]
    cases opcode <;>
      simp [MacroCode.run, MacroValue.eval, isOpen, ChillOpcode.eval, chillDiv, chillMod, hz, hon]
  · rw [if_neg (mt (ult_add_one_iff hw _).mp hok)]
    by_cases hz : children 1 = 0
    · cases opcode <;> simp [MacroCode.run, MacroTest.eval, MacroValue.eval, ChillOpcode.eval,
        chillDiv, chillMod, hz]
    · have hon : children 1 = -1 := by
        by_contra ho
        exact hok ⟨hz, ho⟩
      by_cases hm : children 0 = BitVec.intMin w <;> cases opcode <;>
        simp_all [MacroCode.run, MacroTest.eval, MacroValue.eval, isOpen, ChillOpcode.eval,
          chillDiv, chillMod]

/-- The remainder is what the quotient leaves. -/
theorem sub_chillDiv_mul (numerator : BitVec w) {denominator} (h : denominator ≠ 0) :
    numerator - chillDiv numerator denominator * denominator = chillMod numerator denominator := by
  rw [chillDiv, if_neg h, chillMod, if_neg h]
  split
  · rename_i hm
    rw [hm.1, hm.2, BitVec.mul_neg, show (1 : BitVec w) = 1#w from rfl, BitVec.mul_one,
      BitVec.neg_intMin, BitVec.sub_self]
    rfl
  · rename_i hm
    apply BitVec.eq_of_toInt_eq
    have hq : numerator ≠ BitVec.intMin w ∨ denominator ≠ -1#w := by
      by_contra hbt
      rw [not_or, not_not, not_not] at hbt
      exact hm ⟨hbt.2, hbt.1⟩
    rw [BitVec.toInt_sub, BitVec.toInt_mul, BitVec.toInt_sdiv_of_ne_or_ne _ _ hq, Int.sub_bmod_bmod,
      BitVec.toInt_srem, Int.mul_comm, ← Int.tmod_def, ← BitVec.toInt_srem,
      BitVec.toInt_bmod_cancel]

theorem run_makeModChill :
    (makeModChill after).run children phi =
      some (after, some (chillMod (children 0) (children 1))) := by
  unfold makeModChill
  by_cases hz : children 1 = 0
  · simp [MacroCode.run, MacroTest.eval, MacroValue.eval, chillMod, hz]
  · have hne : children 1 ≠ 0#w := hz
    simp [MacroCode.run, MacroTest.eval, MacroValue.eval, hne, sub_chillDiv_mul _ hz]

end

/-- The lowered code does what the macro does: a switch with distinct cases of its type reaches
the successor of its value, and every chill division is lowered, except for the division that
ARM64 has as an instruction, to code that has the chill result without a division that is
open. -/
theorem lowerMacros_preserves (t : Ty) :
    (∀ (cases : List SwitchCase) (fallThrough : Nat) (children : Fin 2 → BitVec t.bits)
        (phi : Option (BitVec t.bits)),
      (cases.map SwitchCase.caseValue).Nodup → (∀ entry ∈ cases, Fits t.bits entry.caseValue) →
        (lowerSwitch cases fallThrough).run children phi =
          some (switchTarget cases fallThrough (children 0).toInt, phi)) ∧
    (∀ (isARM64 : Bool) (opcode : ChillOpcode) (after : Nat),
      (isARM64 = true → opcode ≠ .chillDiv) →
      ∃ code : MacroCode t.bits, lowerChill after isARM64 opcode = some code ∧
        ∀ (children : Fin 2 → BitVec t.bits) (phi : Option (BitVec t.bits)),
          code.run children phi = some (after, some (opcode.eval (children 0) (children 1)))) := by
  have hw : 0 < t.bits := by cases t <;> decide
  refine ⟨fun cases fallThrough children phi => run_lowerSwitch hw, ?_⟩
  intro isARM64 opcode after hlowered
  cases opcode with
  | chillDiv =>
    cases isARM64 with
    | true => exact absurd rfl (hlowered rfl)
    | false => exact ⟨_, rfl, fun _ _ => run_makeDivisionChill hw .chillDiv⟩
  | chillMod =>
    cases isARM64 with
    | true => exact ⟨_, rfl, fun _ _ => run_makeModChill⟩
    | false => exact ⟨_, rfl, fun _ _ => run_makeDivisionChill hw .chillMod⟩

/-- A switch on the extreme values, the overflowing division on x86 and the modulo on ARM64. -/
theorem lowerMacros_preserves_int32 :
    (lowerSwitch [⟨2147483647, 1⟩, ⟨-2147483648, 2⟩, ⟨0, 3⟩, ⟨1, 4⟩] 5).run
        (fun _ => BitVec.intMin Ty.int32.bits) none =
      some (switchTarget [⟨2147483647, 1⟩, ⟨-2147483648, 2⟩, ⟨0, 3⟩, ⟨1, 4⟩] 5
        (BitVec.intMin Ty.int32.bits).toInt, none) ∧
    (∃ code : MacroCode Ty.int32.bits, lowerChill 7 false .chillDiv = some code ∧
      code.run (fun i => if i = 0 then BitVec.intMin Ty.int32.bits else -1) none =
        some (7, some (chillDiv (BitVec.intMin Ty.int32.bits) (-1)))) ∧
    ∃ code : MacroCode Ty.int32.bits, lowerChill 7 true .chillMod = some code ∧
      code.run (fun _ => 0) none = some (7, some (chillMod 0 0)) := by
  refine ⟨(lowerMacros_preserves .int32).1 _ _ _ _ (by decide) (by simp [Fits, Ty.bits]), ?_, ?_⟩
  · obtain ⟨code, hcode, hrun⟩ := (lowerMacros_preserves .int32).2 false .chillDiv 7 nofun
    exact ⟨code, hcode, hrun _ none⟩
  · obtain ⟨code, hcode, hrun⟩ := (lowerMacros_preserves .int32).2 true .chillMod 7 nofun
    exact ⟨code, hcode, hrun _ none⟩

end QtWebKit.B3
