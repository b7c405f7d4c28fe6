import QtWebKit.Lib.SortedDispatch

/-!
# Binary switches

A binary switch compares a register with the values of its cases. The constructor builds a
list of branch codes for a decision tree over the sorted cases, with random choices that keep
the tree balanced. The client then calls `advance` again and again: each call plants branches
up to the next case, whose body the client plants.

## Implementation notes

The random numbers are a sequence that the build reads from the front. A failed release
assertion is `none`. A vector of cases has less than `2 ^ 29` elements, so no index overflows.
The body of a case leaves the switch.
-/

namespace QtWebKit.JIT

open List Option

open Lib (Increasing Bracket Fits leavesNoGap)

namespace BinarySwitch

inductive SwitchType where
  | int32
  | intPtr
  deriving DecidableEq, Repr

def SwitchType.width : SwitchType → Nat
  | int32 => 32
  | intPtr => 64

structure Case where
  value : Int
  index : Nat
  deriving DecidableEq, Repr

inductive BranchCode where
  | notEqualToFallThrough (index : Nat)
  | notEqualToPush (index : Nat)
  | lessThanToPush (index : Nat)
  | pop
  | executeCase (index : Nat)
  deriving DecidableEq, Repr

/-! ### The branch codes -/

section

variable (cases : List Case) (random : Nat → UInt32)

/-- `m_cases[i].value`. -/
def caseValue (i : Nat) : Int := (cases.getD i ⟨0, 0⟩).value

/-- `std::random_shuffle` with the numbers from `next` on. -/
def randomShuffle (next : Nat) (indices : Array Nat) : Array Nat :=
  (range' 1 (indices.size - 1)).foldl
    (fun shuffled i => shuffled.swapIfInBounds i ((random (next + i - 1)).toNat % (i + 1))) indices

def leafBranches (allConsecutive : Bool) : List Nat → List BranchCode
  | [] => []
  | [last] =>
    if allConsecutive then [.executeCase last]
    else [.notEqualToFallThrough last, .executeCase last]
  | index :: rest =>
    .notEqualToPush index :: .executeCase index :: .pop :: leafBranches allConsecutive rest

/-- The index of the less-than compare and the next random number. -/
def medianIndex (next start stop : Nat) : Option (Nat × Nat) :=
  let median := (start + stop) / 2
  if (stop - start) % 2 = 1 then
    if median - start + 1 = stop - median then some (median + (random next).toNat % 2, next + 1)
      else none
  else if median - start = stop - median then some (median, next) else none

/-- The branch codes for a part of the sorted cases, and the next random number. -/
def build (next start : Nat) (hardStart : Bool) (stop : Nat) : Option (List BranchCode × Nat) :=
  if stop - start = 0 then none
  else if stop - start ≤ 3 then
    let allConsecutive := leavesNoGap (caseValue cases) cases.length start hardStart stop
    let localCaseIndices := randomShuffle random next (range' start (stop - start)).toArray
    some (leafBranches allConsecutive localCaseIndices.toList, next + (stop - start - 1))
  else
    match medianIndex random next start stop with
    | none => none
    | some (median, next) =>
      if start < median ∧ median + 1 < stop then
        match build next median true stop with
        | none => none
        | some (right, next) =>
          match build next start hardStart median with
          | none => none
          | some (left, next) => some (.lessThanToPush median :: (right ++ .pop :: left), next)
      else none
termination_by stop - start

end

/-! ### The planted code -/

inductive Condition where
  | notEqual
  | lessThan
  deriving DecidableEq, Repr

inductive Instruction (w : Nat) where
  | branch (condition : Condition) (immediate : BitVec w)
  | jump
  | caseBody (caseIndex : Nat)
  deriving DecidableEq, Repr

/-- What the assembler and the switch have recorded; a jump is the position of its branch. -/
structure Emitter (w : Nat) where
  instructions : List (Instruction w)
  links : List (Nat × Nat)
  jumpStack : List Nat
  fallThrough : List Nat

section

variable (cases : List Case) {w : Nat}

/-- `m_cases[i].value` in the type of the switch. -/
def immediate (w : Nat) (cases : List Case) (index : Nat) : BitVec w :=
  BitVec.ofInt w (caseValue cases index)

namespace Emitter

def empty : Emitter w := ⟨[], [], [], []⟩

def plant (s : Emitter w) (instruction : Instruction w) : Emitter w :=
  { s with instructions := s.instructions ++ [instruction] }

/-- A jump that the client links. -/
def plantFallThrough (s : Emitter w) (instruction : Instruction w) : Emitter w :=
  { s.plant instruction with fallThrough := s.instructions.length :: s.fallThrough }

/-- A branch that is taken if the condition holds for the register and a case. -/
def branchOn (condition : Condition) (index : Nat) : Instruction w :=
  .branch condition (immediate w cases index)

def plantPush (s : Emitter w) (condition : Condition) (index : Nat) : Emitter w :=
  { s.plant (branchOn cases condition index) with
    jumpStack := s.instructions.length :: s.jumpStack }

/-- The body of a case, which the client plants. -/
def plantCase (s : Emitter w) (index : Nat) : Emitter w :=
  s.plant (.caseBody (cases.getD index ⟨0, 0⟩).index)

/-- One turn of the loop of `advance`, or the body of a case. -/
def emit (s : Emitter w) : BranchCode → Option (Emitter w)
  | .notEqualToFallThrough index => some (s.plantFallThrough (branchOn cases .notEqual index))
  | .notEqualToPush index => some (s.plantPush cases .notEqual index)
  | .lessThanToPush index => some (s.plantPush cases .lessThan index)
  | .pop =>
    match s.jumpStack with
    | [] => none
    | jump :: rest =>
      some { s with jumpStack := rest, links := (jump, s.instructions.length) :: s.links }
  | .executeCase index => some (s.plantCase cases index)

end Emitter

/-- The loop of `advance` over the branch codes that are left. -/
def advanceLoop : List BranchCode → Emitter w → Option (Option (Nat × List BranchCode) × Emitter w)
  | [], _ => none
  | .executeCase index :: branches, s => some (some (index, branches), s)
  | code :: branches, s =>
    match s.emit cases code with
    | none => none
    | some s => advanceLoop branches s

/-- The next case with the branch codes after it, or no case. -/
def advance (branches : List BranchCode) (s : Emitter w) :
    Option (Option (Nat × List BranchCode) × Emitter w) :=
  if cases.isEmpty then
    some (none, s.plantFallThrough .jump)
  else if branches.isEmpty then
    if s.jumpStack.isEmpty then some (none, s) else none
  else advanceLoop cases branches s

/-- The client's loop, with a bound on the number of calls of `advance`. -/
def plantCases : Nat → List BranchCode → Emitter w → Option (Emitter w)
  | 0, _, _ => none
  | fuel + 1, branches, s =>
    match advance cases branches s with
    | none => none
    | some (none, s) => some s
    | some (some (index, branches), s) => plantCases fuel branches (s.plantCase cases index)

end

/-- The constructor: the cases in order and their branch codes. -/
def new (cases : List Int) (random : Nat → UInt32) : Option (List Case × List BranchCode) :=
  if cases.isEmpty then some ([], [])
  else
    let sorted := (cases.zipIdx.map fun entry => Case.mk entry.1 entry.2).mergeSort
      fun a b => a.value ≤ b.value
    if sorted.Pairwise fun a b => a.value < b.value then
      match build sorted random 0 0 false sorted.length with
      | none => none
      | some (branches, _) => some (sorted, branches)
    else none

/-! ### Execution -/

inductive Outcome where
  | reached (caseIndex : Nat)
  | fellThrough
  deriving DecidableEq, Repr

inductive Step where
  | goto (pc : Nat)
  | done (outcome : Outcome)
  | stuck

namespace Emitter

variable {w : Nat}

def Holds (value : BitVec w) : Condition → BitVec w → Bool
  | .notEqual, immediate => value ≠ immediate
  | .lessThan, immediate => value.slt immediate

/-- Where a jump leads; the client links the fall-through jumps. -/
def follow (s : Emitter w) (jump : Nat) : Step :=
  if jump ∈ s.fallThrough then .done .fellThrough
  else
    match s.links.lookup jump with
    | some target => .goto target
    | none => .stuck

def step (s : Emitter w) (value : BitVec w) (pc : Nat) : Step :=
  match s.instructions[pc]? with
  | none => .stuck
  | some (.branch condition immediate) => if Holds value condition immediate then s.follow pc
    else .goto (pc + 1)
  | some .jump => s.follow pc
  | some (.caseBody caseIndex) => .done (.reached caseIndex)

def run (s : Emitter w) (value : BitVec w) : Nat → Nat → Option Outcome
  | 0, _ => none
  | fuel + 1, pc =>
    match s.step value pc with
    | .goto pc => run s value fuel pc
    | .done outcome => some outcome
    | .stuck => none

end Emitter

/-! ### Code that stays -/

namespace Emitter

variable {w : Nat} {s t u : Emitter w}

/-- The code of `s` and its jumps that are not on the stack stay as they are. -/
structure Extends (s t : Emitter w) : Prop where
  length : s.instructions.length ≤ t.instructions.length
  instruction : ∀ pc < s.instructions.length, t.instructions[pc]? = s.instructions[pc]?
  stack : ∀ jump ∈ t.jumpStack, jump < s.instructions.length → jump ∈ s.jumpStack
  follow : ∀ jump < s.instructions.length, jump ∉ s.jumpStack → t.follow jump = s.follow jump

/-- Jumps on the stack are planted and lead nowhere yet. -/
structure Valid (s : Emitter w) : Prop where
  stack : ∀ jump ∈ s.jumpStack, jump < s.instructions.length ∧ jump ∉ s.fallThrough
  fallThrough : ∀ jump ∈ s.fallThrough, jump < s.instructions.length

theorem Extends.refl (s : Emitter w) : s.Extends s :=
  ⟨le_refl _, fun _ _ => rfl, fun _ h _ => h, fun _ _ _ => rfl⟩

theorem Extends.trans (h : s.Extends t) (h' : t.Extends u) : s.Extends u where
  length := h.length.trans h'.length
  instruction pc hpc := (h'.instruction pc (hpc.trans_le h.length)).trans (h.instruction pc hpc)
  stack jump hj hlt := h.stack jump (h'.stack jump hj (hlt.trans_le h.length)) hlt
  follow jump hlt hsk :=
    (h'.follow jump (hlt.trans_le h.length) fun hj => hsk (h.stack jump hj hlt)).trans
      (h.follow jump hlt hsk)

theorem valid_empty : (empty : Emitter w).Valid := ⟨by simp [empty], by simp [empty]⟩

theorem length_plant (s : Emitter w) (instr : Instruction w) :
    (s.plant instr).instructions.length = s.instructions.length + 1 := length_append

theorem extends_plant (s : Emitter w) (instr : Instruction w) : s.Extends (s.plant instr) where
  length := by rw [length_plant]; omega
  instruction pc hpc := getElem?_append_left hpc
  stack jump hj _ := hj
  follow _ _ _ := rfl

theorem getElem?_plant {instr} (h : (s.plant instr).Extends t) :
    t.instructions[s.instructions.length]? = some instr := by
  rw [h.instruction _ (by rw [length_plant]; omega)]
  exact getElem?_concat_length

theorem Valid.plant (h : s.Valid) (instr : Instruction w) : (s.plant instr).Valid where
  stack jump hj := by
    have := h.stack jump hj
    exact ⟨by rw [length_plant]; omega, this.2⟩
  fallThrough jump hj := by
    have := h.fallThrough jump hj
    rw [length_plant]
    omega

theorem extends_fallThrough (s : Emitter w) (instr : Instruction w) :
    s.Extends (s.plantFallThrough instr) where
  length := (extends_plant s instr).length
  instruction := (extends_plant s instr).instruction
  stack := (extends_plant s instr).stack
  follow jump hlt _ := by
    simp only [Emitter.follow, plantFallThrough, mem_cons, Nat.ne_of_lt hlt, false_or]
    rfl

theorem Valid.fallThroughBranch (h : s.Valid) (instr : Instruction w) :
    (s.plantFallThrough instr).Valid where
  stack jump hj := by
    have hd := h.stack jump hj
    refine ⟨((h.plant instr).stack jump hj).1, ?_⟩
    exact fun hm => (mem_cons.mp hm).elim (by omega) hd.2
  fallThrough jump hj := by
    obtain rfl | hd := mem_cons.mp hj
    · exact Nat.lt_of_lt_of_eq (Nat.lt_succ_self _) (length_plant s instr).symm
    · exact (h.plant instr).fallThrough jump hd

theorem extends_push (s : Emitter w) (cases : List Case) (cond : Condition) (idx : Nat) :
    s.Extends (s.plantPush cases cond idx) where
  length := (extends_plant s _).length
  instruction := (extends_plant s _).instruction
  stack jump hj hlt := by
    obtain rfl | hd := mem_cons.mp hj
    · omega
    · exact hd
  follow _ _ _ := rfl

theorem Valid.push (h : s.Valid) (cases : List Case) (cond : Condition) (idx : Nat) :
    (s.plantPush cases cond idx).Valid where
  stack jump hj := by
    obtain rfl | hd := mem_cons.mp hj
    · refine ⟨Nat.lt_of_lt_of_eq (Nat.lt_succ_self _) (length_plant s _).symm, fun hm => ?_⟩
      exact Nat.lt_irrefl _ (h.fallThrough _ hm)
    · exact (h.plant _).stack jump hd
  fallThrough := (h.plant _).fallThrough

/-- Linking the jump on the top of the stack. -/
theorem emit_pop {cases jump rest} (h : s.Valid) (hsk : s.jumpStack = jump :: rest) :
    ∃ t, s.emit cases .pop = some t ∧ t.jumpStack = rest ∧ t.instructions = s.instructions ∧
      t.Valid ∧
      s.Extends t ∧ t.follow jump = .goto s.instructions.length := by
  have hj := h.stack jump (by simp [hsk])
  refine ⟨{ s with jumpStack := rest, links := (jump, s.instructions.length) :: s.links },
    by rw [emit, hsk], rfl, rfl, ⟨fun other ho => ?_, h.fallThrough⟩, ?_, ?_⟩
  · exact h.stack other (by rw [hsk]; exact mem_cons_of_mem _ ho)
  · refine ⟨le_refl _, fun _ _ => rfl, fun other ho _ => ?_, fun other _ ho => ?_⟩
    · rw [hsk]
      exact mem_cons_of_mem _ ho
    · have hne : (other == jump) = false := by
        rw [beq_eq_false_iff_ne]
        rintro rfl
        exact ho (by simp [hsk])
      simp only [Emitter.follow, lookup_cons, hne]
  · simp [Emitter.follow, hj.2]

end Emitter

/-! ### Codes that dispatch -/

section

variable {cases : List Case} {w : Nat} {possible : BitVec w → Prop} {outcome : BitVec w → Outcome}

/-- The codes plant a piece of code that uses no jump from outside. From its first instruction
the possible values lead to the outcome, whatever is planted later. -/
def Dispatches (cases : List Case) (codes : List BranchCode) (possible : BitVec w → Prop)
    (outcome : BitVec w → Outcome) : Prop :=
  ∀ s : Emitter w, s.Valid → ∃ t, codes.foldlM (Emitter.emit cases) s = some t ∧
    t.jumpStack = s.jumpStack ∧ t.Valid ∧ s.Extends t ∧
    ∀ value, possible value → ∀ later, t.Extends later → ∀ fuel, codes.length ≤ fuel →
      later.run value fuel s.instructions.length = some (outcome value)

def reachedCase (cases : List Case) (index : Nat) : Outcome :=
  .reached (cases.getD index ⟨0, 0⟩).index

theorem Dispatches.mono {codes} (h : Dispatches cases codes possible outcome)
    {possible' : BitVec w → Prop} (him : ∀ val, possible' val → possible val) :
    Dispatches cases codes possible' outcome := by
  intro s hs
  obtain ⟨t, hem, hsk, hvl, hex, hu⟩ := h s hs
  exact ⟨t, hem, hsk, hvl, hex, fun val hv => hu val (him val hv)⟩

theorem Emitter.run_plantCase {s later : Emitter w} {idx}
    (h : (s.plantCase cases idx).Extends later) {val fuel} (hfl : 0 < fuel) :
    later.run val fuel s.instructions.length = some (reachedCase cases idx) := by
  obtain ⟨fuel, rfl⟩ := Nat.exists_eq_succ_of_ne_zero hfl.ne'
  rw [run, step, getElem?_plant h]
  rfl

theorem dispatches_executeCase {idx}
    (h : ∀ val, possible val → outcome val = reachedCase cases idx) :
    Dispatches cases [.executeCase idx] possible outcome := by
  intro s hs
  refine ⟨s.plantCase cases idx, rfl, rfl, hs.plant _, s.extends_plant _, ?_⟩
  intro val hv later hlr fuel hfl
  rw [h val hv]
  exact Emitter.run_plantCase hlr hfl

theorem dispatches_notEqualToFallThrough {idx} (h : ∀ val, possible val → outcome val =
      if val = immediate w cases idx then reachedCase cases idx else .fellThrough) :
    Dispatches cases [.notEqualToFallThrough idx, .executeCase idx] possible outcome := by
  intro s hs
  have hvl := hs.fallThroughBranch (Emitter.branchOn cases .notEqual idx)
  have hn : (s.plantFallThrough (Emitter.branchOn cases .notEqual idx)).instructions.length =
      s.instructions.length + 1 := Emitter.length_plant s _
  refine ⟨_, rfl, rfl, hvl.plant _, (s.extends_fallThrough _).trans (Emitter.extends_plant _ _), ?_⟩
  intro val hv later hlr fuel hfl
  have hb := (Emitter.extends_plant _ _).trans hlr
  obtain ⟨fuel, rfl⟩ :=
      Nat.exists_eq_succ_of_ne_zero (Nat.ne_of_gt (Nat.lt_of_lt_of_le Nat.zero_lt_two hfl))
  have hc : later.instructions[s.instructions.length]? =
      some (Emitter.branchOn cases .notEqual idx) := by
    rw [hb.instruction _ (by omega)]
    exact getElem?_concat_length
  have hfw : later.follow s.instructions.length = .done .fellThrough := by
    rw [hb.follow _ (by omega) fun hm => Nat.lt_irrefl _ (hs.stack _ hm).1]
    simp [Emitter.follow, Emitter.plantFallThrough]
  rw [h val hv, Emitter.run, Emitter.step, hc]
  by_cases heq : val = immediate w cases idx
  · have hu := @Emitter.run_plantCase _ _ _ _ _ hlr val fuel (Nat.lt_of_succ_lt_succ hfl)
    rw [hn] at hu
    simpa [Emitter.branchOn, Emitter.Holds, heq] using hu
  · simp [Emitter.branchOn, Emitter.Holds, heq, hfw]

def pushCode : Condition → Nat → BranchCode
  | .notEqual, index => .notEqualToPush index
  | .lessThan, index => .lessThanToPush index

/-- A branch over one piece of code to another. -/
theorem dispatches_push {cond idx right left} (hrg : Dispatches cases right
      (fun val => possible val ∧ Emitter.Holds val cond (immediate w cases idx) = false) outcome)
    (hlf : Dispatches cases left
      (fun val => possible val ∧ Emitter.Holds val cond (immediate w cases idx) = true) outcome) :
    Dispatches cases (pushCode cond idx :: (right ++ .pop :: left)) possible outcome := by
  intro s hs
  have hps : s.emit cases (pushCode cond idx) = some (s.plantPush cases cond idx) := by
    cases cond <;> rfl
  obtain ⟨t, hem, hsk, hvl, hex, hu⟩ := hrg _ (hs.push cases cond idx)
  obtain ⟨u, hpp, hr, hc, hvl', hex', hfw⟩ := @Emitter.emit_pop _ _ cases _ _ hvl hsk
  obtain ⟨v, hem', hsk', hvl'', hex'', hu'⟩ := hlf u hvl'
  refine ⟨v, ?_, hsk'.trans hr, hvl'',
    ((s.extends_push cases cond idx).trans hex).trans (hex'.trans hex''), ?_⟩
  · rw [foldlM_cons, hps, bind_eq_bind, bind_some, foldlM_append, hem, bind_eq_bind, bind_some,
      foldlM_cons, hpp, bind_eq_bind, bind_some, hem']
  · intro val hv later hlr fuel hfl
    rw [length_cons, length_append, length_cons] at hfl
    obtain ⟨fuel, rfl⟩ := Nat.exists_eq_succ_of_ne_zero (show fuel ≠ 0 by omega)
    have hb := hex.trans (hex'.trans (hex''.trans hlr))
    have hn : (s.plantPush cases cond idx).instructions.length = s.instructions.length + 1 :=
      Emitter.length_plant s _
    have his : later.instructions[s.instructions.length]? =
        some (Emitter.branchOn cases cond idx) := by
      rw [hb.instruction _ (by omega)]
      exact getElem?_concat_length
    rw [Emitter.run, Emitter.step, his]
    simp only [Emitter.branchOn]
    cases hh : Emitter.Holds val cond (immediate w cases idx) with
    | true =>
      have ht : later.follow s.instructions.length = .goto t.instructions.length := by
        rw [(hex''.trans hlr).follow _ (by rw [hc]; have := hex.length; omega)
          (by rw [hr]; exact fun hm => Nat.lt_irrefl _ (hs.stack _ hm).1), hfw]
      have hnx := hu' val ⟨hv, hh⟩ later hlr fuel (by omega)
      rw [hc] at hnx
      simpa [hh, ht] using hnx
    | false =>
      have hnx := hu val ⟨hv, hh⟩ later (hex'.trans (hex''.trans hlr)) fuel (by omega)
      rw [hn] at hnx
      simpa [hh] using hnx

theorem getLast?_leafBranches {order} (hne : order ≠ []) {allConsecutive} :
    ∃ idx, (leafBranches allConsecutive order).getLast? = some (.executeCase idx) := by
  induction order with
  | nil => exact absurd rfl hne
  | cons idx rest ih =>
    cases rest with
    | nil => exact ⟨idx, by cases allConsecutive <;> rfl⟩
    | cons snd others =>
      obtain ⟨last, hl⟩ := ih (cons_ne_nil _ _)
      refine ⟨last, ?_⟩
      rw [leafBranches, getLast?_cons_cons, getLast?_cons_cons, getLast?_cons, hl]
      · rfl
      · exact cons_ne_nil _ _

theorem leaf_dispatches {order} (hne : order ≠ []) {allConsecutive}
    (hht : ∀ val, ∀ idx ∈ order, val = immediate w cases idx → outcome val = reachedCase cases idx)
    (hms : ∀ val, possible val → (∀ idx ∈ order, val ≠ immediate w cases idx) →
      allConsecutive = false ∧ outcome val = .fellThrough) :
    Dispatches cases (leafBranches allConsecutive order) possible outcome := by
  induction order generalizing possible with
  | nil => exact absurd rfl hne
  | cons idx rest ih =>
    cases rest with
    | nil =>
      unfold leafBranches
      split
      · rename_i hcn
        refine dispatches_executeCase fun val hv => ?_
        by_contra ho
        have hno : ∀ idx' ∈ [idx], val ≠ immediate w cases idx' := by
          rintro idx' hid heq
          exact ho (mem_singleton.mp hid ▸ hht val idx' hid heq)
        rw [(hms val hv hno).1] at hcn
        cases hcn
      · refine dispatches_notEqualToFallThrough fun val hv => ?_
        split
        · rename_i heq
          exact hht val idx mem_cons_self heq
        · rename_i ho
          exact (hms val hv (by simpa using ho)).2
    | cons snd others =>
      change Dispatches cases (pushCode .notEqual idx :: ([.executeCase idx] ++
        .pop :: leafBranches allConsecutive (snd :: others))) possible outcome
      apply dispatches_push
      · refine dispatches_executeCase fun val hv => ?_
        exact hht val idx mem_cons_self (by simpa [Emitter.Holds] using hv.2)
      · apply ih (cons_ne_nil _ _)
        · intro val idx' hid heq
          exact hht val idx' (mem_cons_of_mem _ hid) heq
        · intro val hv hot
          have hf : val ≠ immediate w cases idx := by simpa [Emitter.Holds] using hv.2
          exact hms val hv.1 (forall_mem_cons.mpr ⟨hf, hot⟩)

end

/-! ### The build -/

theorem randomShuffle_perm (random : Nat → UInt32) (next : Nat) (indices : Array Nat) :
    (randomShuffle random next indices).Perm indices := by
  unfold randomShuffle
  generalize range' 1 (indices.size - 1) = turns
  suffices h : ∀ shuffled : Array Nat, (turns.foldl (fun shuffled i =>
      shuffled.swapIfInBounds i ((random (next + i - 1)).toNat % (i + 1))) shuffled).Perm shuffled
        from h indices
  induction turns with
  | nil => exact fun shuffled => Array.Perm.refl shuffled
  | cons i rest ih =>
    intro shuffled
    refine (ih _).trans ?_
    change (shuffled.swapIfInBounds i _).Perm shuffled
    unfold Array.swapIfInBounds
    split
    · split
      · exact Array.swap_perm _ _
      · exact Array.Perm.refl _
    · exact Array.Perm.refl _

/-- The case that a value selects. -/
def selected (cases : List Case) (value : Int) : Outcome :=
  match cases.find? fun entry => entry.value = value with
  | some entry => .reached entry.index
  | none => .fellThrough

section

variable {cases : List Case} {random : Nat → UInt32} {w : Nat}

theorem caseValue_eq {i} (hi : i < cases.length) : caseValue cases i = cases[i].value := by
  rw [caseValue, getD_eq_getElem _ _ hi]

theorem selected_of_eq (hin : Increasing (caseValue cases) cases.length) {i}
    (hi : i < cases.length) : selected cases (caseValue cases i) = reachedCase cases i := by
  rw [selected, caseValue, Lib.find?_key hin hi]
  rfl

theorem selected_of_ne {val} (h : ∀ i < cases.length, caseValue cases i ≠ val) :
    selected cases val = .fellThrough := by
  rw [selected, Lib.find?_key_eq_none h]

theorem medianIndex_eq (random : Nat → UInt32) (next : Nat) {start stop} (h : 3 < stop - start) :
    ∃ median next', medianIndex random next start stop = some (median, next') ∧ start < median ∧
      median + 1 < stop := by
  have hrandom := Nat.mod_lt (random next).toNat Nat.zero_lt_two
  unfold medianIndex
  dsimp only
  split
  · rw [if_pos (by omega)]
    exact ⟨_, _, rfl, by omega, by omega⟩
  · rw [if_pos (by omega)]
    exact ⟨_, _, rfl, by omega, by omega⟩

/-- Every part of the cases has codes that select the case of the values between its bounds. -/
theorem build_dispatches (hin : Increasing (caseValue cases) cases.length) (hw : 0 < w)
    (hft : ∀ i < cases.length, Fits w (caseValue cases i)) (next start : Nat) (hardStart : Bool)
    (stop : Nat)
    (hlt : start < stop) (hle : stop ≤ cases.length) (hhr : hardStart = true → start ≠ 0) :
    ∃ codes next', build cases random next start hardStart stop = some (codes, next') ∧
      (∃ idx, codes.getLast? = some (.executeCase idx)) ∧
      Dispatches cases codes
        (fun val : BitVec w => Bracket (caseValue cases) cases.length start stop val.toInt)
        (fun val => selected cases val.toInt) := by
  induction hsz : stop - start using Nat.strong_induction_on generalizing next start hardStart stop
    with
  | h size ih =>
    rw [build, if_neg (by omega)]
    by_cases hla : stop - start ≤ 3
    · rw [if_pos hla]
      have hpr := (randomShuffle_perm random next (range' start (stop - start)).toArray).toList
      dsimp only
      generalize (randomShuffle random next (range' start (stop - start)).toArray).toList =
        order
        at hpr ⊢
      have hm (idx) : idx ∈ order ↔ start ≤ idx ∧ idx < stop := by
        rw [hpr.mem_iff, List.toList_toArray, List.mem_range'_1,
          Nat.add_sub_cancel' (Nat.le_of_lt hlt)]
      have hne : order ≠ [] := List.ne_nil_of_mem ((hm start).mpr ⟨le_refl _, hlt⟩)
      refine ⟨_, _, rfl, getLast?_leafBranches hne, leaf_dispatches hne ?_ ?_⟩
      · intro val idx hid heq
        have hbd := (hm idx).mp hid
        rw [immediate, Lib.eq_ofInt_iff hw (hft idx (by omega))] at heq
        rw [← heq]
        exact selected_of_eq hin (by omega)
      · intro val hbr hno
        have ho (i) (hi : i < cases.length) : caseValue cases i ≠ val.toInt := by
          intro heq
          have hbd := hbr.mem_of_key_eq hin hi heq (by omega)
          exact hno i ((hm i).mpr hbd) ((Lib.eq_ofInt_iff hw (hft i hi)).mpr heq)
        refine ⟨?_, selected_of_ne ho⟩
        rw [Bool.eq_false_iff]
        intro hg
        obtain ⟨i, _, hi, heq⟩ := hbr.exists_key_eq hhr hlt hg
        exact ho i (by omega) heq
    · rw [if_neg hla]
      obtain ⟨median, next', hmd, hst, hp⟩ := medianIndex_eq random next (Nat.lt_of_not_le hla)
      obtain ⟨right, nextRight, hrg, _, hds⟩ :=
        ih (stop - median) (by omega) next' median true stop (by omega) hle (by omega) rfl
      obtain ⟨left, nextLeft, hlf, ⟨last, hl⟩, hdp⟩ :=
        ih (median - start) (by omega) nextRight start hardStart median (by omega) (by omega) hhr
          rfl
      rw [hmd]
      dsimp only
      rw [if_pos ⟨hst, hp⟩, hrg]
      dsimp only
      rw [hlf]
      refine ⟨_, _, rfl, ⟨last, ?_⟩, ?_⟩
      · rw [← cons_append, getLast?_append, getLast?_cons, hl]
        rfl
      · have hls (val : BitVec w) : Emitter.Holds val .lessThan (immediate w cases median) = true ↔
            val.toInt < caseValue cases median := Lib.slt_ofInt_iff hw (hft median (by omega))
        change Dispatches cases (pushCode .lessThan median :: (right ++ .pop :: left)) _ _
        apply dispatches_push
        · exact hds.mono fun val h => h.1.right (by rw [← hls, h.2]; exact Bool.false_ne_true)
        · exact hdp.mono fun val h => h.1.left ((hls val).mp h.2)

end

/-! ### The client's loop -/

section

variable {cases : List Case} {w : Nat} {s t : Emitter w}

/-- The codes are over, or they end with a case. -/
def EndsWithCase (codes : List BranchCode) : Prop :=
  codes = [] ∨ ∃ index, codes.getLast? = some (.executeCase index)

theorem EndsWithCase.tail {code rest} (h : EndsWithCase (code :: rest)) : EndsWithCase rest := by
  cases rest with
  | nil => exact .inl rfl
  | cons snd others =>
    obtain hnl | ⟨idx, hl⟩ := h
    · cases hnl
    · exact .inr ⟨idx, by rwa [getLast?_cons_cons] at hl⟩

theorem advanceLoop_eq {codes : List BranchCode} (hne : codes ≠ []) (hen : EndsWithCase codes)
    (hem : codes.foldlM (Emitter.emit cases) s = some t) :
    ∃ idx rest u, advanceLoop cases codes s = some (some (idx, rest), u) ∧ EndsWithCase rest ∧
      rest.length < codes.length ∧ rest.foldlM (Emitter.emit cases) (u.plantCase cases idx) =
        some t := by
  induction codes generalizing s with
  | nil => exact absurd rfl hne
  | cons code rest ih =>
    by_cases hca : ∃ idx, code = .executeCase idx
    · obtain ⟨idx, rfl⟩ := hca
      exact ⟨idx, rest, s, rfl, hen.tail, Nat.lt_succ_self _, hem⟩
    · rw [foldlM_cons, bind_eq_bind, bind_eq_some_iff] at hem
      obtain ⟨u, hc, hr⟩ := hem
      have hnm : rest ≠ [] := by
        rintro rfl
        obtain hnl | ⟨idx, hl⟩ := hen
        · cases hnl
        · exact hca ⟨idx, some.inj hl⟩
      obtain ⟨idx, others, v, ha, hen', hn, hot⟩ := ih hnm hen.tail hr
      refine ⟨idx, others, v, ?_, hen', Nat.lt_succ_of_lt hn, hot⟩
      rw [advanceLoop, hc]
      · exact ha
      · exact fun idx heq => hca ⟨idx, heq⟩

theorem plantCases_eq (hcs : cases ≠ []) {codes : List BranchCode} (hen : EndsWithCase codes)
    (hem : codes.foldlM (Emitter.emit cases) s = some t) (hsk : t.jumpStack = []) {fuel}
    (hfl : codes.length < fuel) : plantCases cases fuel codes s = some t := by
  have hcs' : cases.isEmpty = false := by simpa using hcs
  induction fuel generalizing codes s with
  | zero => omega
  | succ fuel ih =>
    rw [plantCases, advance, hcs', if_neg Bool.false_ne_true]
    cases hcd : codes with
    | nil =>
      rw [hcd] at hem
      cases hem
      rw [hsk]
      rfl
    | cons code rest =>
      rw [hcd] at hen hem hfl
      obtain ⟨idx, others, u, ha, hen', hn, hot⟩ :=
        advanceLoop_eq (cons_ne_nil _ _) hen hem
      rw [isEmpty_cons, if_neg Bool.false_ne_true, ha]
      exact ih hen' hot (by omega)

end

/-! ### The switch -/

/-- The outcome of a switch: the case with the value of the register. -/
def dispatch (cases : List Int) (value : Int) : Outcome :=
  match cases.idxOf? value with
  | some index => .reached index
  | none => .fellThrough

theorem perm_sorted (cases : List Int) :
    ((cases.zipIdx.map fun ent => Case.mk ent.1 ent.2).mergeSort fun a b => a.value ≤ b.value).Perm
      (cases.zipIdx.map fun ent => Case.mk ent.1 ent.2) :=
  mergeSort_perm _ _

theorem map_value_zipIdx (cases : List Int) :
    (cases.zipIdx.map fun ent => Case.mk ent.1 ent.2).map Case.value = cases := by
  rw [List.map_map]
  exact List.zipIdx_map_fst 0 cases

theorem selected_sorted {cases : List Int} {sorted : List Case}
    (hin : Increasing (caseValue sorted) sorted.length)
    (hpr : sorted.Perm (cases.zipIdx.map fun ent => Case.mk ent.1 ent.2)) (val : Int) :
    selected sorted val = dispatch cases val := by
  unfold dispatch
  cases hid : cases.idxOf? val with
  | some idx =>
    obtain ⟨hlt, hv⟩ : ∃ hlt : idx < cases.length, cases[idx] = val := by
      rw [idxOf?, findIdx?_eq_some_iff_getElem] at hid
      obtain ⟨hlt, heq, _⟩ := hid
      exact ⟨hlt, by simpa using heq⟩
    have hm : Case.mk val idx ∈ sorted := by
      rw [hpr.mem_iff, List.mem_map]
      exact ⟨(val, idx), List.mem_zipIdx_iff_getElem?.mpr (by simp [hlt, hv]), rfl⟩
    obtain ⟨i, hi, he⟩ := List.mem_iff_getElem.mp hm
    have hsl := selected_of_eq hin hi
    rw [caseValue_eq hi, he, reachedCase, getD_eq_getElem _ _ hi, he] at hsl
    exact hsl
  | none =>
    apply selected_of_ne
    intro i hi heq
    have hm : val ∈ sorted.map Case.value := by
      rw [← heq, caseValue_eq hi]
      exact mem_map_of_mem (getElem_mem hi)
    rw [(hpr.map Case.value).mem_iff, map_value_zipIdx] at hm
    exact idxOf?_eq_none_iff.mp hid hm

/-- With distinct cases of its type, a switch is built and planted whatever the random numbers
are, no jump is left on the stack, and every value of the register reaches its case. -/
theorem plantCases_dispatches (type : SwitchType) {cases : List Int} (hdistinct : cases.Nodup)
    (hfits : ∀ value ∈ cases, Fits type.width value) (random : Nat → UInt32) :
    ∃ sorted branches, new cases random = some (sorted, branches) ∧
      ∃ planted : Emitter type.width,
        (∀ fuel, branches.length < fuel → plantCases sorted fuel branches .empty = some planted) ∧
        planted.jumpStack = [] ∧
        ∀ value fuel, branches.length < fuel →
          planted.run value fuel 0 = some (dispatch cases value.toInt) := by
  have hw : 0 < type.width := by cases type <;> decide
  by_cases hemp : cases = []
  · subst hemp
    refine ⟨[], [], rfl, Emitter.empty.plantFallThrough .jump, ?_, rfl, ?_⟩
    all_goals
      intros
      rename_i fuel hfuel
      obtain ⟨fuel, rfl⟩ := Nat.exists_eq_succ_of_ne_zero (Nat.ne_of_gt hfuel)
      rfl
  · have hnew : cases.isEmpty = false := by simpa using hemp
    have hperm := perm_sorted cases
    have hpair := @Lib.pairwise_mergeSort_key _ Case.value
      (cases.zipIdx.map fun entry => Case.mk entry.1 entry.2) (by rwa [map_value_zipIdx])
    unfold new
    rw [hnew, if_neg Bool.false_ne_true]
    dsimp only
    rw [if_pos hpair]
    generalize ((cases.zipIdx.map fun entry => Case.mk entry.1 entry.2).mergeSort
      fun a b => a.value ≤ b.value) = sorted at hperm hpair ⊢
    have hincr : Increasing (caseValue sorted) sorted.length := Lib.increasing_of_pairwise hpair _
    have hlen : sorted.length = cases.length := by rw [hperm.length_eq]; simp
    have hpos : 0 < sorted.length := by rw [hlen]; exact length_pos_iff.mpr hemp
    have hfits' : ∀ i < sorted.length, Fits type.width (caseValue sorted i) := by
      intro i hi
      apply hfits
      rw [caseValue_eq hi, ← map_value_zipIdx cases, ← (hperm.map Case.value).mem_iff]
      exact mem_map_of_mem (getElem_mem hi)
    obtain ⟨branches, next, hbuild, hlast, hdispatches⟩ :=
        @build_dispatches sorted random type.width hincr hw
      hfits' 0 0 false sorted.length hpos (le_refl _) (by simp)
    rw [hbuild]
    refine ⟨sorted, branches, rfl, ?_⟩
    obtain ⟨planted, hemit, hstk, _, _, hrun⟩ := hdispatches .empty Emitter.valid_empty
    refine ⟨planted, fun fuel hfuel => ?_, hstk, fun value fuel hfuel => ?_⟩
    · exact plantCases_eq (length_pos_iff.mp hpos) (.inr hlast) hemit hstk hfuel
    · rw [← selected_sorted hincr hperm]
      exact hrun value (Bracket.whole _) planted (Emitter.Extends.refl _) fuel (Nat.le_of_lt hfuel)

/-- The extreme values of the type and its neighbours. -/
theorem plantCases_dispatches_extremes :
    ∃ sorted branches, new [2147483647, -2147483648, 0, 1, -1] UInt32.ofNat =
      some (sorted, branches) ∧
      ∃ planted : Emitter SwitchType.int32.width,
        (∀ fuel, branches.length < fuel → plantCases sorted fuel branches .empty = some planted) ∧
        planted.jumpStack = [] ∧
        ∀ value fuel, branches.length < fuel →
          planted.run value fuel 0 =
            some (dispatch [2147483647, -2147483648, 0, 1, -1] value.toInt) :=
  plantCases_dispatches .int32 (by decide) (by simp [Fits, SwitchType.width]) UInt32.ofNat

end BinarySwitch

end QtWebKit.JIT
