import QtWebKit.ContentExtensions.DFABytecodeLayout
import QtWebKit.ContentExtensions.DFABytecodeInterpreter
import Mathlib.Algebra.BigOperators.Ring.List
import Mathlib.Algebra.Order.BigOperators.Group.List

/-!
# The widths of jumps

The compiler reserves a width for a jump before it knows the distance: the worst distance is
computed with 32 bits, as if no jump in front of the destination were compacted. This is
enough for every bytecode below `2 ^ 31` bytes, since the vector of link records cannot have
so many of them that the worst distance wraps to a short one.
-/

namespace QtWebKit.ContentExtensions

open ByteOrder RelocatableCode CompilerState List

open Interpreter (getBits)

/-! ### Reading a distance -/

/-- A distance of three bytes is read in two pieces, the sign in the second one. -/
def getJumpDistance (bytecode : List UInt8) (index jumpSize : Nat) : Option Int :=
  match jumpSize with
  | 1 => some (Int.bmod (getBits bytecode index 1) (2 ^ 8))
  | 2 => some (Int.bmod (getBits bytecode index 2) (2 ^ 16))
  | 3 => some (BitVec.ofNat 32 (getBits bytecode index 2) |||
      BitVec.ofInt 32 (Int.bmod (getBits bytecode (index + 2) 1) (2 ^ 8)) <<< 16).toInt
  | 4 => some (Int.bmod (getBits bytecode index 4) (2 ^ 32))
  | _ => none

theorem getBits_three (code : List UInt8) (idx : Nat) :
    getBits code idx 3 = getBits code idx 2 + 65536 * getBits code (idx + 2) 1 ∧
      getBits code idx 2 < 65536 ∧ getBits code (idx + 2) 1 < 256 := by
  rw [getBits, getBits, getBits, ← drop_drop]
  match code.drop idx with
  | [] => simp [ofLittleEndian]
  | [a] =>
    have := a.toNat_lt
    simp [ofLittleEndian]
    omega
  | [a, b] =>
    have := a.toNat_lt
    have := b.toNat_lt
    simp [ofLittleEndian]
    omega
  | a :: b :: c :: rest =>
    have := a.toNat_lt
    have := b.toNat_lt
    have := c.toNat_lt
    simp [ofLittleEndian]
    omega

/-- The two pieces are disjoint. -/
theorem toInt_or_pieces {low high : Nat} (hlw : low < 65536) (hhg : high < 256) :
    (BitVec.ofNat 32 low ||| BitVec.ofInt 32 (Int.bmod high (2 ^ 8)) <<< 16).toInt =
      Int.bmod (low + 65536 * high : Nat) (2 ^ 24) := by
  have hs : (BitVec.ofInt 32 (Int.bmod high (2 ^ 8)) <<< 16).toNat =
      2 ^ 16 * (if high < 128 then high else high + 65280) := by
    rw [BitVec.toNat_shiftLeft, BitVec.toNat_ofInt, Nat.shiftLeft_eq, Int.bmod_def]
    split_ifs <;> omega
  have hor : (BitVec.ofNat 32 low ||| BitVec.ofInt 32 (Int.bmod high (2 ^ 8)) <<< 16).toNat =
      2 ^ 16 * (if high < 128 then high else high + 65280) + low := by
    rw [BitVec.toNat_or, hs, BitVec.toNat_ofNat, Nat.mod_eq_of_lt (by omega), Nat.or_comm,
      ← Nat.two_pow_add_eq_or_of_lt hlw]
  rw [BitVec.toInt_eq_toNat_cond, hor, Int.bmod_def]
  split_ifs <;> omega

theorem getJumpDistance_eq (code : List UInt8) (idx : Nat) {jsz : Nat} (hp : 1 ≤ jsz)
    (hle : jsz ≤ 4) : getJumpDistance code idx jsz = some (readSigned code idx jsz) := by
  obtain ⟨hth, hlw, hhg⟩ := getBits_three code idx
  obtain rfl | rfl | rfl | rfl : jsz = 1 ∨ jsz = 2 ∨ jsz = 3 ∨ jsz = 4 := by omega
  · rfl
  · rfl
  · rw [getJumpDistance, toInt_or_pieces hlw hhg, ← hth]
    rfl
  · rfl

/-! ### The widths and sizes that the compiler chooses -/

/-- Jumps have one to four bytes. -/
def JumpSizes (state : CompilerState) : Prop := ∀ fixup ∈ state.code.fixups, 1 ≤ fixup.width ∧
    fixup.width ≤ 4

variable {dfa : DFA} {st : CompilerState}

theorem JumpSizes.foldl_emitPiece (h : JumpSizes st) (src : Nat) (pieces : List Piece) :
    JumpSizes (pieces.foldl (emitPiece dfa src) st) := by
  induction pieces generalizing st with
  | nil => exact h
  | cons pc rest ih =>
    apply ih
    intro fixup hfx
    rcases mem_append.mp hfx with hm | hm
    · exact h fixup hm
    · obtain ⟨k, tgt, hk, rfl⟩ := mem_fixupsFrom hm
      have htg := mem_of_getElem? hk
      rw [Piece.targets_block] at htg
      dsimp only
      rw [Piece.width_block (ne_nil_of_mem htg)]
      obtain ⟨ho, hfr, -⟩ := jumpSizeFor_spec dfa src st pc.destinations
      exact ⟨ho, hfr⟩

theorem JumpSizes.compileNode (h : JumpSizes st) (idx : Nat) :
    JumpSizes (st.compileNode dfa idx) := by
  cases hkl : (dfa.node idx).isKilled with
  | true =>
    rw [CompilerState.compileNode, hkl]
    exact h
  | false =>
    rw [compileNode_eq dfa st hkl]
    have hr : JumpSizes (((prologue dfa idx).foldl (emitPiece dfa idx) st).recordStart idx) :=
      h.foldl_emitPiece idx (prologue dfa idx)
    exact hr.foldl_emitPiece idx (body dfa idx)

theorem jumpSizes_compileNodes (dfa : DFA) : JumpSizes (compileNodes dfa) := by
  have hal (order : List Nat) {st : CompilerState} (h : JumpSizes st) :
      JumpSizes (order.foldl (CompilerState.compileNode dfa) st) := by
    induction order generalizing st with
    | nil => exact h
    | cons idx rest ih => exact ih (h.compileNode idx)
  exact hal _ fun fixup hfx => absurd hfx not_mem_nil

/-- A node takes no more bytes than were reserved for it. -/
theorem length_compileNode_le (hdf : dfa.WellFormed) (st : CompilerState) (idx : Nat) :
    (st.compileNode dfa idx).code.bytes.length ≤
      st.code.bytes.length + compiledNodeMaxBytecodeSize (dfa.node idx) := by
  cases hkl : (dfa.node idx).isKilled with
  | true =>
    rw [CompilerState.compileNode, hkl]
    exact Nat.le_add_right _ _
  | false =>
    obtain ⟨pre, hpr, hfd, -⟩ := foldl_emitPiece dfa idx (prologue dfa idx) st
      fun pc hpc d hd => by
        rw [destinations_prologue hpc] at hd
        cases hd
    obtain ⟨mine, hmn, hfl, -⟩ := foldl_emitPiece dfa idx (body dfa idx)
      (CompilerState.recordStart ⟨emitAll st.code pre, st.nodeStartOffsets⟩ idx)
      fun pc hpc d hd =>
        ⟨not_isKilled_of_mem_body hdf hpc hd, _, recordStart_self _ idx, le_refl _,
          Nat.add_le_add_left (sum_maxSize_body_le dfa hkl) _⟩
    rw [compileNode_eq dfa st hkl, hfd, hfl, ← sum_maxSize_prologue_body dfa hkl]
    show (emitAll (emitAll st.code pre) mine).bytes.length ≤ _
    rw [length_emitAll, length_emitAll, Nat.add_assoc]
    exact Nat.add_le_add_left (Nat.add_le_add (sum_size_le hpr) (sum_size_le hmn)) _

theorem linkDistance_eq_some {starts tgt loc jsz}
    {d} (h : linkDistance starts tgt loc jsz = some d) :
    ∃ dest, starts tgt = some dest ∧ d = toInt32 (dest - loc) ∧
      dest < 2147483647 ∧ Fits jsz d := by
  rw [linkDistance] at h
  cases hst : starts tgt with
  | none =>
    rw [hst] at h
    cases h
  | some dest =>
    rw [hst] at h
    dsimp only at h
    split_ifs at h with hf
    obtain rfl := Option.some.inj h
    exact ⟨dest, rfl, rfl, hf⟩

theorem length_of_compile (hdf : dfa.WellFormed) {code : List UInt8}
    (h : compile dfa = some code) : code.length = (compileNodes dfa).code.bytes.length := by
  obtain ⟨done, blks, -, hc⟩ := compiled_compileNodes hdf
  obtain ⟨-, -, rfl⟩ := (compile_eq hc code).mp h
  rw [hc.length_eq, length_append, toLittleEndian_length, length_linkedFrom]

/-- The jumps of bytecode that was linked. -/
theorem getJumpDistance_of_compile (hdf : dfa.WellFormed) {code : List UInt8}
    (h : compile dfa = some code) (hln : code.length < 2147483648) {fixup : Fixup Nat}
    (hfx : fixup ∈ (compileNodes dfa).code.fixups) :
    ∃ dest, (compileNodes dfa).nodeStartOffsets fixup.target = some dest ∧
      Fits fixup.width (dest - fixup.location) ∧
      getJumpDistance code fixup.index fixup.width = some (dest - fixup.location : Int) := by
  obtain ⟨ho, hfr⟩ := jumpSizes_compileNodes dfa fixup hfx
  obtain ⟨done, blks, -, hc⟩ := compiled_compileNodes hdf
  obtain ⟨-, hlk, rfl⟩ := (compile_eq hc code).mp h
  have hh : Holds (linkDistance (compileNodes dfa).nodeStartOffsets) _ 4 blks :=
    ⟨hlk, _, [], toLittleEndian_length 4 (4 + (blks.map Block.size).sum), by rw [append_nil]⟩
  rw [hc.code, emitAll_eq] at hfx
  obtain ⟨d, hd, hrd⟩ := hh.readSigned_fixup hfx
  obtain ⟨dest, hdt, hds, hlt, hf⟩ := linkDistance_eq_some hd
  have hloc : fixup.location ≤ 4 + (blks.map Block.size).sum := location_le_of_mem_fixupsAll hfx
  rw [length_append, toLittleEndian_length, length_linkedFrom] at hln
  rw [toInt32_of_lt (by omega) (by omega)] at hds
  subst hds
  exact ⟨dest, hdt, hf, by rw [getJumpDistance_eq _ _ ho hfr, hrd hf]⟩

/-! ### Limits of the compiler -/

/-- What the types of the code admit: the number of actions of a node has 16 bits, and the
buffer of a vector has at most `2 ^ 32 - 1` bytes, of which a link record takes 20. -/
structure DFA.WithinLimits (dfa : DFA) : Prop where
  actionsLength : ∀ index, (dfa.node index).actions.length ≤ 65535
  linkRecords : 20 * (compileNodes dfa).code.fixups.length ≤ maxUnsigned

theorem actionsBytecodeSize_le (node : DFANode) :
    actionsBytecodeSize node ≤ 7 * node.actions.length := by
  rw [actionsBytecodeSize, Nat.mul_comm]
  refine (List.sum_le_card_nsmul _ 7 fun size hsz => ?_).trans_eq (by rw [length_map]; rfl)
  obtain ⟨action, -, rfl⟩ := mem_map.mp hsz
  rw [appendActionBytecodeSize]
  split_ifs <;> decide

theorem nodeTransitionsMaxBytecodeSize_le (node : DFANode) :
    nodeTransitionsMaxBytecodeSize node ≤ 901 := by
  have ht : ((transitions node).jumpTables.map checkForJumpTableMaxBytecodeSize).sum ≤
      ((transitions node).jumpTables.map fun tbl => 7 * tbl.ranges.length).sum := by
    refine List.sum_le_sum fun tbl hm => ?_
    obtain ⟨hle, hsz⟩ := proper_jumpTables node tbl hm
    rw [checkForJumpTableMaxBytecodeSize, JumpTable.ranges, length_singles]
    omega
  have hg : ((transitions node).ranges.map checkForRangeMaxBytecodeSize).sum ≤
      ((transitions node).ranges.map fun _ => 7).sum := by
    refine List.sum_le_sum fun range _ => ?_
    rw [checkForRangeMaxBytecodeSize]
    split_ifs <;> decide
  have hch := length_checks_le node
  rw [Transitions.checks, length_append, length_flatMap] at hch
  rw [List.sum_map_mul_left] at ht
  rw [map_const', sum_replicate_nat] at hg
  rw [nodeTransitionsMaxBytecodeSize]
  split_ifs <;> omega

/-- No node is long. -/
theorem DFA.WithinLimits.compiledNodeMaxBytecodeSize_le (h : dfa.WithinLimits) (idx : Nat) :
    compiledNodeMaxBytecodeSize (dfa.node idx) ≤ 8388608 := by
  have hac := actionsBytecodeSize_le (dfa.node idx)
  have htr := nodeTransitionsMaxBytecodeSize_le (dfa.node idx)
  have hln := h.actionsLength idx
  rw [compiledNodeMaxBytecodeSize]
  split_ifs <;> omega

/-- The worst offsets exceed the bytecode by three bytes for each link record. -/
theorem DFA.WithinLimits.reserved (h : dfa.WithinLimits) (hdf : dfa.WellFormed)
    (hln : (compileNodes dfa).code.bytes.length < 2147483648) :
    Reserved dfa (nextIndex dfa dfa.nodes.length) (compileNodes dfa).code.bytes.length := by
  obtain ⟨done, blks, -, hc⟩ := compiled_compileNodes hdf
  have hrs := hc.reserve
  have hlk := h.linkRecords
  rw [maxUnsigned] at hlk
  exact .inr ⟨h.compiledNodeMaxBytecodeSize_le, by omega, hln⟩

/-- Bytecode below `2 ^ 31` bytes is linked without a failing assertion, every jump fits the
width that was chosen for it and is read back; a node takes no more bytes than reserved. -/
theorem compile_jumps (dfa : DFA) (hdfa : dfa.WellFormed) (hlimits : dfa.WithinLimits)
    (hsize : (compileNodes dfa).code.bytes.length < 2147483648) :
    (∃ bytecode, compile dfa = some bytecode ∧
      bytecode.length = (compileNodes dfa).code.bytes.length ∧
      ∀ fixup ∈ (compileNodes dfa).code.fixups, ∃ destination,
        (compileNodes dfa).nodeStartOffsets fixup.target = some destination ∧
          Fits fixup.width (destination - fixup.location) ∧
          getJumpDistance bytecode fixup.index fixup.width =
            some (destination - fixup.location : Int)) ∧
    ∀ (state : CompilerState) (index : Nat), (state.compileNode dfa index).code.bytes.length ≤
      state.code.bytes.length + compiledNodeMaxBytecodeSize (dfa.node index) := by
  obtain ⟨bytecode, hcomp⟩ := exists_compile_of_reserved hdfa (hlimits.reserved hdfa hsize)
  have hlen := length_of_compile hdfa hcomp
  exact ⟨⟨bytecode, hcomp, hlen, fun fixup hfixup =>
    getJumpDistance_of_compile hdfa hcomp (hlen.trans_lt hsize) hfixup⟩, length_compileNode_le hdfa⟩

/-- An automaton for digits, with a jump forward and one back to the same node. -/
def digitsDFA : DFA :=
  ⟨[⟨false, [], [⟨48, 57, 1⟩]⟩, ⟨false, [⟨false, 0, 7⟩], [⟨48, 57, 1⟩]⟩], 0⟩

theorem compile_jumps_digits :
    (compileNodes digitsDFA).code.fixups.length = 2 ∧ ∃ bytecode,
      compile digitsDFA = some bytecode ∧
      ∀ fixup ∈ (compileNodes digitsDFA).code.fixups, ∃ destination,
        (compileNodes digitsDFA).nodeStartOffsets fixup.target = some destination ∧
          getJumpDistance bytecode fixup.index fixup.width =
            some (destination - fixup.location : Int) := by
  have hfixups : (compileNodes digitsDFA).code.fixups.length = 2 := by decide +kernel
  have hactions (index : Nat) : (digitsDFA.node index).actions.length ≤ 65535 := by
    rcases digitsDFA.node_mem_or_eq index with hnode | hnode
    · revert hnode
      generalize digitsDFA.node index = node
      revert node
      decide
    · rw [hnode]
      decide
  obtain ⟨⟨bytecode, hcomp, -, hjumps⟩, -⟩ := compile_jumps digitsDFA
    (DFA.wellFormed_of_nodes rfl (by decide) (by decide)) ⟨hactions, by rw [hfixups]; decide⟩
    (by decide +kernel)
  refine ⟨hfixups, bytecode, hcomp, fun fixup hfixup => ?_⟩
  obtain ⟨destination, hstart, -, hread⟩ := hjumps fixup hfixup
  exact ⟨destination, hstart, hread⟩

end QtWebKit.ContentExtensions
