import QtWebKit.ContentExtensions.DFATransitions

/-!
# The layout of the bytecode

The compiler writes one block for each action, jump table and range of a node
and one for its end. Every node that is not killed has its blocks at its start
offset, and no jump is longer than the width that was reserved for it, provided
that the bytecode stays below `2 ^ 31 - 1` bytes without compaction, or that
compaction saves little and no node is long.

## Implementation notes

A piece is an instruction whose jump size is not chosen yet; this makes all
ways of emitting code one fold over pieces.
-/

namespace QtWebKit.ContentExtensions

open ByteOrder RelocatableCode List Option

/-! ### Pieces -/

inductive Piece where
  | action (word : ActionWord)
  | branch (instruction : Nat) (arguments destinations : List Nat)
  | terminate

namespace Piece

def destinations : Piece → List Nat
  | action _ => []
  | branch _ _ destinations => destinations
  | terminate => []

def block (jumpSize : Nat) : Piece → Block Nat
  | action word => appendActionBlock word
  | branch instruction arguments destinations =>
    jumpBlock instruction jumpSize arguments destinations
  | terminate => terminateBlock

def maxSize : Piece → Nat
  | action word => appendActionBytecodeSize word
  | branch _ arguments destinations => 1 + arguments.length + 4 * destinations.length
  | terminate => 1

def ofJumpTable (jumpTable : JumpTable) : Piece :=
  branch (jumpTableInstruction jumpTable.caseSensitive) [jumpTable.min, jumpTable.max]
    jumpTable.destinations

def ofRange (range : Range) : Piece :=
  if range.min = range.max then
    branch (checkValueInstruction range.caseSensitive) [range.min] [range.destination]
  else
    branch (checkValueRangeInstruction range.caseSensitive) [range.min, range.max]
      [range.destination]

def ofEnd (transitions : Transitions) : Piece :=
  if transitions.useFallbackTransition then
    branch Instruction.jump [] [transitions.fallbackTransitionTarget]
  else terminate

theorem size_appendActionBlock (action : ActionWord) :
    (appendActionBlock action).size = appendActionBytecodeSize action := by
  rw [appendActionBlock, appendActionBytecodeSize]
  split_ifs <;> simp [Block.size]

theorem targets_block (jsz : Nat) (pc : Piece) : (pc.block jsz).targets = pc.destinations := by
  cases pc with
  | action word =>
    rw [block, appendActionBlock]
    split_ifs <;> rfl
  | branch instr args dests => rfl
  | terminate => rfl

theorem width_block {jsz} {pc : Piece} (h : pc.destinations ≠ []) : (pc.block jsz).width = jsz := by
  cases pc with
  | action word => exact absurd rfl h
  | branch instr args dests => rfl
  | terminate => exact absurd rfl h

theorem size_block_le {jsz} (h : jsz ≤ 4) (pc : Piece) : (pc.block jsz).size ≤ pc.maxSize := by
  cases pc with
  | action word => exact (size_appendActionBlock word).le
  | branch instr args dests =>
    simp only [block, jumpBlock, Block.size, maxSize, length_cons, length_map]
    have := Nat.mul_le_mul_right dests.length h
    omega
  | terminate => exact le_refl 1

theorem size_block_pos (jsz : Nat) (pc : Piece) : 0 < (pc.block jsz).size := by
  cases pc with
  | action word =>
    rw [block, size_appendActionBlock, appendActionBytecodeSize]
    split_ifs <;> decide
  | branch instr args dests => exact Nat.lt_add_right _ (Nat.succ_pos _)
  | terminate => exact Nat.one_pos

/-- Compaction saves at most three bytes for each jump. -/
theorem maxSize_le {jsz} (h : 1 ≤ jsz) (pc : Piece) :
    pc.maxSize ≤ (pc.block jsz).size + 3 * (pc.block jsz).targets.length := by
  cases pc with
  | action word => exact (size_appendActionBlock word).ge.trans (Nat.le_add_right _ _)
  | branch instr args dests =>
    simp only [block, jumpBlock, Block.size, maxSize, length_cons, length_map]
    have := Nat.mul_le_mul_right dests.length h
    omega
  | terminate => exact le_refl 1

/-- A block of this piece with one of the four jump sizes. -/
def Emitted (piece : Piece) (block : Block Nat) : Prop :=
  ∃ jumpSize, 1 ≤ jumpSize ∧ jumpSize ≤ 4 ∧ block = piece.block jumpSize

end Piece

def actionPieces (node : DFANode) : List Piece := node.actions.map Piece.action

def transitionPieces (node : DFANode) : List Piece :=
  (transitions node).jumpTables.map Piece.ofJumpTable ++
    ((transitions node).ranges.map Piece.ofRange ++ [Piece.ofEnd (transitions node)])

theorem sum_maxSize_actionPieces (node : DFANode) :
    ((actionPieces node).map Piece.maxSize).sum = actionsBytecodeSize node := by
  rw [actionPieces, List.map_map]
  rfl

theorem sum_maxSize_transitionPieces (node : DFANode) :
    ((transitionPieces node).map Piece.maxSize).sum = nodeTransitionsMaxBytecodeSize node := by
  have ht : (transitions node).jumpTables.map (Piece.maxSize ∘ Piece.ofJumpTable) =
      (transitions node).jumpTables.map checkForJumpTableMaxBytecodeSize := by
    refine map_congr_left fun tbl hmm => ?_
    obtain ⟨hle, hsz⟩ := proper_jumpTables node tbl hmm
    simp only [Function.comp_apply, Piece.ofJumpTable, Piece.maxSize,
      checkForJumpTableMaxBytecodeSize, length_cons, length_nil]
    omega
  have hrg : (transitions node).ranges.map (Piece.maxSize ∘ Piece.ofRange) =
      (transitions node).ranges.map checkForRangeMaxBytecodeSize := by
    refine map_congr_left fun range _ => ?_
    rw [Function.comp_apply, Piece.ofRange, checkForRangeMaxBytecodeSize]
    split_ifs <;> rfl
  have he : (Piece.ofEnd (transitions node)).maxSize =
      if (transitions node).useFallbackTransition then 5 else 1 := by
    rw [Piece.ofEnd]
    split_ifs <;> rfl
  rw [transitionPieces, nodeTransitionsMaxBytecodeSize, List.map_append, List.map_append,
    List.sum_append, List.sum_append, List.map_map, List.map_map, ht, hrg,
    List.map_singleton, List.sum_singleton, he, Nat.add_assoc]

/-- All jumps of a node go to live nodes. -/
theorem not_isKilled_of_mem_destinations {dfa : DFA} (hdf : dfa.WellFormed) {idx}
    {pc : Piece} (hp : pc ∈ transitionPieces (dfa.node idx)) {d}
    (hd : d ∈ pc.destinations) : (dfa.node d).isKilled = false := by
  have hch : ∀ range ∈ (transitions (dfa.node idx)).checks, range.destination = d →
      (dfa.node d).isKilled = false :=
    fun range hg heq => heq ▸ not_isKilled_of_mem_checks hdf idx hg
  rw [transitionPieces, List.mem_append, List.mem_append, List.mem_singleton] at hp
  rcases hp with htb | hg | rfl
  · obtain ⟨tbl, hmm, rfl⟩ := List.mem_map.mp htb
    have hds : d ∈ tbl.ranges.map Range.destination := by
      rw [JumpTable.ranges, map_destination_singles]
      exact hd
    obtain ⟨range, hg, heq⟩ := List.mem_map.mp hds
    exact hch range (List.mem_append_left _ (List.mem_flatMap.mpr ⟨tbl, hmm, hg⟩)) heq
  · obtain ⟨range, hmm, rfl⟩ := List.mem_map.mp hg
    refine hch range (List.mem_append_right _ hmm) ?_
    rw [Piece.ofRange] at hd
    split_ifs at hd <;> exact (mem_singleton.mp hd).symm
  · rw [Piece.ofEnd] at hd
    split_ifs at hd with hfa
    · rw [mem_singleton.mp hd, fallbackTransitionTarget_eq hfa]
      exact not_isKilled_bestFallbackTarget hdf idx hfa
    · cases hd

/-! ### The compiler as a fold over pieces -/

namespace CompilerState

variable (dfa : DFA) (source : Nat)

/-- The jump size that is wide enough for all destinations. -/
def jumpSizeFor (state : CompilerState) (destinations : List Nat) : Nat :=
  destinations.foldl (fun jumpSize destination =>
    max jumpSize (smallestPossibleJumpSize
      (state.longestPossibleJump dfa state.code.bytes.length source destination))) 1

def emitPiece (state : CompilerState) (piece : Piece) : CompilerState :=
  state.emit (piece.block (state.jumpSizeFor dfa source piece.destinations))

theorem one_le_smallestPossibleJumpSize (n : Int) : 1 ≤ smallestPossibleJumpSize n := by
  rw [smallestPossibleJumpSize]
  split_ifs <;> decide

theorem smallestPossibleJumpSize_le (n : Int) : smallestPossibleJumpSize n ≤ 4 := by
  rw [smallestPossibleJumpSize]
  split_ifs <;> decide

theorem emitBranch_eq (st : CompilerState) (dest instr : Nat) (args : List Nat) :
    st.emitBranch dfa source dest instr args =
      st.emitPiece dfa source (.branch instr args [dest]) := by
  rw [emitPiece, Piece.destinations, jumpSizeFor, foldl_cons, foldl_nil,
    Nat.max_eq_right (one_le_smallestPossibleJumpSize _)]
  rfl

theorem compileCheckForRange_eq (st : CompilerState) (range : Range) :
    compileCheckForRange dfa source st range = st.emitPiece dfa source (.ofRange range) := by
  rw [compileCheckForRange, Piece.ofRange]
  split_ifs
  · exact emitBranch_eq dfa source st _ _ _
  · exact emitBranch_eq dfa source st _ _ _

theorem compileNodeTransitions_eq (st : CompilerState) :
    st.compileNodeTransitions dfa source =
      (transitionPieces (dfa.node source)).foldl (emitPiece dfa source) st := by
  rw [compileNodeTransitions, transitionPieces, foldl_append, foldl_append, foldl_map,
    foldl_map, foldl_cons, foldl_nil]
  have hrg := funext₂ (compileCheckForRange_eq dfa source)
  have ht : compileJumpTable dfa source =
      fun st tbl => st.emitPiece dfa source (.ofJumpTable tbl) := rfl
  simp only [hrg, ht]
  rw [Piece.ofEnd]
  split_ifs
  · exact emitBranch_eq dfa source _ _ _ _
  · rfl

theorem emitActions_eq (st : CompilerState) :
    st.emitActions (dfa.node source).actions =
      (actionPieces (dfa.node source)).foldl (emitPiece dfa source) st := by
  rw [emitActions, actionPieces, foldl_map]
  rfl

/-- What is written in front of the start of a node. -/
def prologue (index : Nat) : List Piece :=
  if index = dfa.root then actionPieces (dfa.node index) else []

/-- What is written from the start of a node on. -/
def body (index : Nat) : List Piece :=
  if index = dfa.root then transitionPieces (dfa.node index)
  else actionPieces (dfa.node index) ++ transitionPieces (dfa.node index)

theorem compileNode_eq (st : CompilerState) {idx} (h : (dfa.node idx).isKilled = false) :
    st.compileNode dfa idx =
      (body dfa idx).foldl (emitPiece dfa idx)
        (((prologue dfa idx).foldl (emitPiece dfa idx) st).recordStart idx) := by
  rw [compileNode, body, prologue]
  simp only [h, Bool.false_eq_true, if_false]
  split_ifs with hr
  · rw [compileNodeTransitions_eq, emitActions_eq]
  · rw [foldl_append, ← emitActions_eq, ← compileNodeTransitions_eq]
    rfl

theorem sum_maxSize_prologue_body {idx} (h : (dfa.node idx).isKilled = false) :
    ((prologue dfa idx).map Piece.maxSize).sum + ((body dfa idx).map Piece.maxSize).sum =
      compiledNodeMaxBytecodeSize (dfa.node idx) := by
  rw [compiledNodeMaxBytecodeSize, h, if_neg Bool.false_ne_true, prologue, body,
    ← sum_maxSize_actionPieces, ← sum_maxSize_transitionPieces]
  split_ifs
  · rfl
  · rw [map_nil, sum_nil, Nat.zero_add, map_append, sum_append]

theorem sum_maxSize_body_le {idx} (h : (dfa.node idx).isKilled = false) :
    ((body dfa idx).map Piece.maxSize).sum ≤ compiledNodeMaxBytecodeSize (dfa.node idx) := by
  rw [← sum_maxSize_prologue_body dfa h]
  exact Nat.le_add_left _ _

/-! ### Jump sizes -/

theorem toInt32_of_lt {n} (hlw : -2147483648 ≤ n) (hhg : n < 2147483648) : toInt32 n = n :=
  Int.bmod_eq_of_le (by omega) (by omega)

/-- A number from `2 ^ 31` on is taken for a negative one. -/
theorem toInt32_of_ge {n} (hlw : 2147483648 ≤ n) (hhg : n < 4294967296) :
    toInt32 n = n - 4294967296 := by
  rw [toInt32, Int.bmod_eq_iff (by decide)]
  refine ⟨by omega, by omega, -1, by omega⟩

/-- The width that is reserved for a jump to a node that is not compiled yet
suffices for the jump to its start. -/
theorem smallestPossibleJumpSize_reserved (jump gap back : Int) (hjump : 0 ≤ jump)
    (hback : 0 ≤ back)
    (hgp : gap < 2147483647 ∨ back ≤ 8388608 ∧ gap < 3000000000 ∧ jump < 2147483648)
    (hle : jump + back ≤ gap) :
    smallestPossibleJumpSize (toInt32 jump) ≤ smallestPossibleJumpSize (toInt32 (gap + back)) := by
  rw [toInt32_of_lt (n := jump) (by omega) (by omega)]
  by_cases hlt : gap + back < 2147483648
  · rw [toInt32_of_lt (by omega) hlt, smallestPossibleJumpSize, smallestPossibleJumpSize]
    split_ifs <;> omega
  · rw [toInt32_of_ge (by omega) (by omega), smallestPossibleJumpSize, smallestPossibleJumpSize]
    split_ifs <;> omega

theorem fits_of_smallestPossibleJumpSize {n width}
    (h : smallestPossibleJumpSize n ≤ width) (hwd : width ≤ 4) (hlw : -2147483648 ≤ n)
    (hhg : n < 2147483648) : Fits width n := by
  have hcs : width = 1 ∧ -128 ≤ n ∧ n < 128 ∨ width = 2 ∧ -32768 ≤ n ∧ n < 32768 ∨
      width = 3 ∧ -8388608 ≤ n ∧ n < 8388608 ∨ width = 4 := by
    rw [smallestPossibleJumpSize] at h
    split_ifs at h <;> omega
  rcases hcs with ⟨rfl, hn⟩ | ⟨rfl, hn⟩ | ⟨rfl, hn⟩ | rfl <;>
    exact Int.bmod_eq_of_le (by omega) (by omega)

theorem foldl_max_spec {α : Type} (f : α → Nat) (items : List α) (n : Nat) :
    n ≤ items.foldl (fun m a => max m (f a)) n ∧
      (∀ a ∈ items, f a ≤ items.foldl (fun m a => max m (f a)) n) ∧
      ∀ bound, n ≤ bound → (∀ a ∈ items, f a ≤ bound) →
        items.foldl (fun m a => max m (f a)) n ≤ bound := by
  induction items generalizing n with
  | nil => simp
  | cons a rest ih =>
    obtain ⟨hle, ha, hls⟩ := ih (max n (f a))
    rw [foldl_cons]
    refine ⟨(Nat.le_max_left _ _).trans hle, ?_, fun bound hn hbd => ?_⟩
    · exact forall_mem_cons.mpr ⟨(Nat.le_max_right _ _).trans hle, ha⟩
    · rw [forall_mem_cons] at hbd
      exact hls bound (Nat.max_le.mpr ⟨hn, hbd.1⟩) hbd.2

theorem jumpSizeFor_spec (st : CompilerState) (dests : List Nat) :
    1 ≤ st.jumpSizeFor dfa source dests ∧
      st.jumpSizeFor dfa source dests ≤ 4 ∧
      ∀ d ∈ dests, smallestPossibleJumpSize
        (st.longestPossibleJump dfa st.code.bytes.length source d) ≤
          st.jumpSizeFor dfa source dests := by
  obtain ⟨hle, ha, hls⟩ := foldl_max_spec (fun d => smallestPossibleJumpSize
    (st.longestPossibleJump dfa st.code.bytes.length source d)) dests 1
  exact ⟨hle, hls 4 (by decide) fun d _ => smallestPossibleJumpSize_le _, ha⟩

/-! ### Emitting pieces -/

/-- The jumps of a block are wide enough, as far as the compiler knows the
starts of the nodes. -/
def Suits (state : CompilerState) (location : Nat) (block : Block Nat) : Prop :=
  ∀ d ∈ block.targets, (dfa.node d).isKilled = false ∧ block.width ≤ 4 ∧
    ∃ source start, state.nodeStartOffsets source = some start ∧ start ≤ location ∧
      location ≤ start + compiledNodeMaxBytecodeSize (dfa.node source) ∧
      smallestPossibleJumpSize (state.longestPossibleJump dfa location source d) ≤ block.width

theorem foldl_emitPiece (pieces : List Piece) (st : CompilerState)
    (hpc : ∀ pc ∈ pieces, ∀ d ∈ pc.destinations, (dfa.node d).isKilled = false ∧
      ∃ start, st.nodeStartOffsets source = some start ∧ start ≤ st.code.bytes.length ∧
        st.code.bytes.length + (pieces.map Piece.maxSize).sum ≤
          start + compiledNodeMaxBytecodeSize (dfa.node source)) :
    ∃ blks, List.Forall₂ Piece.Emitted pieces blks ∧
      pieces.foldl (emitPiece dfa source) st =
        ⟨emitAll st.code blks, st.nodeStartOffsets⟩ ∧
      AllFrom (Suits dfa st) st.code.bytes.length blks := by
  induction pieces generalizing st with
  | nil => exact ⟨[], .nil, rfl, trivial⟩
  | cons pc rest ih =>
    rw [forall_mem_cons] at hpc
    obtain ⟨ho, hfr, hwi⟩ := jumpSizeFor_spec dfa source st pc.destinations
    have hl : (st.emitPiece dfa source pc).code.bytes.length = st.code.bytes.length +
          (pc.block (st.jumpSizeFor dfa source pc.destinations)).size := by
      rw [← Block.length_unlinked, ← length_append]
      rfl
    obtain ⟨blks, hem, hfo, hs⟩ := ih (st.emitPiece dfa source pc)
      fun next hnx d hd => by
        obtain ⟨hlv, start, hst, hle, hmx⟩ := hpc.2 next hnx d hd
        have := Piece.size_block_le hfr pc
        rw [map_cons, sum_cons] at hmx
        exact ⟨hlv, start, hst, by omega, by omega⟩
    refine ⟨pc.block (st.jumpSizeFor dfa source pc.destinations) :: blks,
      .cons ⟨_, ho, hfr, rfl⟩ hem, ?_, ?_, ?_⟩
    · rw [foldl_cons, hfo]
      rfl
    · intro d hd
      rw [Piece.targets_block] at hd
      obtain ⟨hlv, start, hst, hle, hmx⟩ := hpc.1 d hd
      rw [Piece.width_block (ne_nil_of_mem hd)]
      exact ⟨hlv, hfr, source, start, hst, hle, (Nat.le_add_right _ _).trans hmx, hwi d hd⟩
    · rw [hl] at hs
      exact hs

theorem sum_size_le {pieces : List Piece} {blks : List (Block Nat)}
    (h : List.Forall₂ Piece.Emitted pieces blks) :
    (blks.map Block.size).sum ≤ (pieces.map Piece.maxSize).sum := by
  induction h with
  | nil => exact le_refl 0
  | cons hb _ ih =>
    obtain ⟨jsz, -, hfr, rfl⟩ := hb
    rw [map_cons, map_cons, sum_cons, sum_cons]
    exact Nat.add_le_add (Piece.size_block_le hfr _) ih

theorem sum_maxSize_le {pieces : List Piece} {blks : List (Block Nat)}
    (h : List.Forall₂ Piece.Emitted pieces blks) (loc : Nat) :
    (pieces.map Piece.maxSize).sum ≤
      (blks.map Block.size).sum + 3 * (fixupsAll loc blks).length := by
  induction h generalizing loc with
  | nil => exact Nat.zero_le _
  | @cons pc blk _ _ hb _ ih =>
    obtain ⟨jsz, ho, -, rfl⟩ := hb
    have hle := Piece.maxSize_le ho pc
    have hr := ih (loc + (pc.block jsz).size)
    rw [map_cons, map_cons, sum_cons, sum_cons, fixupsAll, length_append, Block.length_fixups]
    omega

theorem length_emitAll (code : Code Nat) (blks : List (Block Nat)) :
    (emitAll code blks).bytes.length = code.bytes.length + (blks.map Block.size).sum := by
  rw [emitAll_eq, length_append, length_flatMap]
  congr 3
  exact funext Block.length_unlinked

theorem length_fixups_emitAll (code : Code Nat) (blks : List (Block Nat)) :
    (emitAll code blks).fixups.length =
      code.fixups.length + (fixupsAll code.bytes.length blks).length := by
  rw [emitAll_eq, length_append]

/-! ### The invariant of the compiler -/

/-- A node's blocks, its start behind its prologue; the root comes first. -/
def NodeAt (blocks : List (Block Nat)) (index start : Nat) : Prop :=
  ∃ front pre mine back, blocks = front ++ (pre ++ (mine ++ back)) ∧
    start = 4 + (front.map Block.size).sum + (pre.map Block.size).sum ∧
    List.Forall₂ Piece.Emitted (prologue dfa index) pre ∧
    List.Forall₂ Piece.Emitted (body dfa index) mine ∧ (index = dfa.root → front = [])

/-- The worst distances can be taken for the real ones: they fit 31 bits, or compaction saves
little and no node is long. -/
def Reserved (frontier length : Nat) : Prop :=
  frontier < 2147483647 ∨ (∀ i, compiledNodeMaxBytecodeSize (dfa.node i) ≤ 8388608) ∧
    frontier < 3000000000 ∧ length < 2147483648

/-- What holds when these nodes have been compiled. -/
structure Compiled (frontier : Nat) (done : List Nat) (state : CompilerState)
    (blocks : List (Block Nat)) : Prop where
  code : state.code = emitAll ⟨[0, 0, 0, 0], []⟩ blocks
  nodes : ∀ i start, state.nodeStartOffsets i = some start → NodeAt dfa blocks i start
  recorded : ∀ i, (∃ start, state.nodeStartOffsets i = some start) ↔
    i ∈ done ∧ (dfa.node i).isKilled = false
  length : state.code.bytes.length ≤ frontier
  reserve : frontier ≤ state.code.bytes.length + 3 * state.code.fixups.length
  slack : ∀ i start, state.nodeStartOffsets i = some start →
    state.code.bytes.length + maxNodeStartOffset dfa i ≤ frontier + start
  suits : Reserved dfa frontier state.code.bytes.length → AllFrom (Suits dfa state) 4 blocks

variable {dfa} {st : CompilerState} {blks : List (Block Nat)} {frontier : Nat}
  {done : List Nat} {idx : Nat}

theorem Reserved.mono {frontier' len len'} (h : Reserved dfa frontier' len')
    (hf : frontier ≤ frontier') (hl : len ≤ len') : Reserved dfa frontier len := by
  rcases h with h | ⟨hsz, hfr, hln⟩
  · exact .inl (by omega)
  · exact .inr ⟨hsz, by omega, by omega⟩

theorem NodeAt.append {start} (h : NodeAt dfa blks idx start) (more : List (Block Nat)) :
    NodeAt dfa (blks ++ more) idx start := by
  obtain ⟨front, pre, mine, back, rfl, h⟩ := h
  exact ⟨front, pre, mine, back ++ more, by simp only [append_assoc], h⟩

theorem Compiled.length_eq (h : Compiled dfa frontier done st blks) :
    st.code.bytes.length = 4 + (blks.map Block.size).sum := by
  rw [h.code, length_emitAll]
  rfl

theorem recordStart_self (st : CompilerState) (idx : Nat) :
    (st.recordStart idx).nodeStartOffsets idx = some st.code.bytes.length :=
  if_pos rfl

theorem recordStart_of_ne (st : CompilerState) {idx i} (h : i ≠ idx) :
    (st.recordStart idx).nodeStartOffsets i = st.nodeStartOffsets i :=
  if_neg h

theorem recordStart_eq_some {i start} (h : (st.recordStart idx).nodeStartOffsets i = some start) :
    i = idx ∧ start = st.code.bytes.length ∨
      i ≠ idx ∧ st.nodeStartOffsets i = some start := by
  by_cases hi : i = idx
  · subst hi
    rw [recordStart_self] at h
    exact .inl ⟨rfl, (some.inj h).symm⟩
  · rw [recordStart_of_ne st hi] at h
    exact .inr ⟨hi, h⟩

theorem exists_recordStart_iff {i} (hw : st.nodeStartOffsets idx = none) :
    (∃ start, (st.recordStart idx).nodeStartOffsets i = some start) ↔
      i = idx ∨ ∃ start, st.nodeStartOffsets i = some start := by
  constructor
  · rintro ⟨start, hi⟩
    rcases recordStart_eq_some hi with ⟨rfl, -⟩ | ⟨-, hi⟩
    · exact .inl rfl
    · exact .inr ⟨start, hi⟩
  · rintro (rfl | ⟨start, hi⟩)
    · exact ⟨_, recordStart_self st i⟩
    · have hne : i ≠ idx := by
        rintro rfl
        rw [hw] at hi
        cases hi
      exact ⟨start, (recordStart_of_ne st hne).trans hi⟩

/-- Recording a start keeps the earlier jumps wide enough. -/
theorem Suits.recordStart {loc} {block : Block Nat} (h : Suits dfa st loc block)
    (hw : st.nodeStartOffsets idx = none) (hsl : ∀ i start, st.nodeStartOffsets i = some start →
      st.code.bytes.length + maxNodeStartOffset dfa i ≤ maxNodeStartOffset dfa idx + start)
    (hmx : Reserved dfa (maxNodeStartOffset dfa idx) st.code.bytes.length)
    (hlc : loc + block.size ≤ st.code.bytes.length) :
    Suits dfa (st.recordStart idx) loc block := by
  intro d hd
  obtain ⟨hlv, hwd, source, start, hst, hle, hbk, hsz⟩ := h d hd
  have hc : source ≠ idx := by
    rintro rfl
    rw [hw] at hst
    cases hst
  refine ⟨hlv, hwd, source, start, (recordStart_of_ne st hc).trans hst, hle, hbk, le_trans ?_ hsz⟩
  by_cases hid : d = idx
  · subst hid
    have hgp := hsl source start hst
    simp only [longestPossibleJump, recordStart_self, hw, hst, getD_some]
    rw [sub_eq_add_neg _ ((start : Int) - loc), neg_sub]
    refine smallestPossibleJumpSize_reserved _ _ _ (by omega) (by omega) ?_ (by omega)
    rcases hmx with hmx | ⟨hnd, hmx, hln⟩
    · exact .inl (by omega)
    · have := hnd source
      exact .inr ⟨by omega, by omega, by omega⟩
  · simp [longestPossibleJump, recordStart_of_ne st hid, recordStart_of_ne st hc]

theorem destinations_eq_nil_of_mem_actionPieces {node} {pc : Piece}
    (h : pc ∈ actionPieces node) : pc.destinations = [] := by
  obtain ⟨action, -, rfl⟩ := mem_map.mp h
  rfl

theorem destinations_prologue {pc : Piece} (h : pc ∈ prologue dfa idx) : pc.destinations = [] := by
  rw [prologue] at h
  split_ifs at h
  · exact destinations_eq_nil_of_mem_actionPieces h
  · cases h

theorem not_isKilled_of_mem_body (hdf : dfa.WellFormed) {pc : Piece} (h : pc ∈ body dfa idx)
    {d} (hd : d ∈ pc.destinations) : (dfa.node d).isKilled = false := by
  rw [body] at h
  split_ifs at h
  · exact not_isKilled_of_mem_destinations hdf h hd
  · rcases mem_append.mp h with h | h
    · rw [destinations_eq_nil_of_mem_actionPieces h] at hd
      cases hd
    · exact not_isKilled_of_mem_destinations hdf h hd

theorem Compiled.compileNode_of_isKilled (h : Compiled dfa frontier done st blks)
    (hk : (dfa.node idx).isKilled = true) :
    Compiled dfa (frontier + compiledNodeMaxBytecodeSize (dfa.node idx)) (idx :: done)
      (st.compileNode dfa idx) blks := by
  have hsa : st.compileNode dfa idx = st := by
    simp [compileNode, hk]
  have hsz : compiledNodeMaxBytecodeSize (dfa.node idx) = 0 := if_pos hk
  rw [hsa, hsz, Nat.add_zero]
  refine ⟨h.code, h.nodes, fun i => (h.recorded i).trans ?_, h.length, h.reserve, h.slack, h.suits⟩
  rw [mem_cons, or_and_right, or_iff_right]
  rintro ⟨rfl, hlv⟩
  rw [hk] at hlv
  cases hlv

/-- Compiling one more node. -/
theorem Compiled.compileNode (hdf : dfa.WellFormed) (h : Compiled dfa frontier done st blks)
    (hw : idx ∉ done) (hr : idx = dfa.root → blks = [])
    (hmx : maxNodeStartOffset dfa idx = frontier + ((prologue dfa idx).map Piece.maxSize).sum) :
    ∃ blks', Compiled dfa (frontier + compiledNodeMaxBytecodeSize (dfa.node idx)) (idx :: done)
      (st.compileNode dfa idx) blks' := by
  cases hlv : (dfa.node idx).isKilled with
  | true => exact ⟨blks, h.compileNode_of_isKilled hlv⟩
  | false =>
    have hno : st.nodeStartOffsets idx = none := by
      rw [eq_none_iff_forall_ne_some]
      exact fun start hst => hw ((h.recorded idx).mp ⟨start, hst⟩).1
    obtain ⟨pre, hpr, hfd, hsp⟩ := foldl_emitPiece dfa idx (prologue dfa idx) st
      fun pc hp d hd => by
        rw [destinations_prologue hp] at hd
        cases hd
    obtain ⟨mine, hm, hfl, hss⟩ := foldl_emitPiece dfa idx (body dfa idx)
      (CompilerState.recordStart ⟨emitAll st.code pre, st.nodeStartOffsets⟩ idx)
      fun pc hp d hd =>
        ⟨not_isKilled_of_mem_body hdf hp hd, _, recordStart_self _ idx, le_refl _,
          Nat.add_le_add_left (sum_maxSize_body_le dfa hlv) _⟩
    have hst := length_emitAll st.code pre
    have he := length_emitAll (emitAll st.code pre) mine
    have hl := h.length_eq
    have hpreSize := sum_size_le hpr
    have hmineSize := sum_size_le hm
    have hsz := sum_maxSize_prologue_body dfa hlv
    have hfrontier := h.length
    have hrs := h.reserve
    have hpreMax := sum_maxSize_le hpr st.code.bytes.length
    have hmineMax := sum_maxSize_le hm (emitAll st.code pre).bytes.length
    rw [compileNode_eq dfa st hlv, hfd, hfl]
    refine ⟨blks ++ (pre ++ mine), ?_, fun i start hi => ?_, fun i => ?_, ?_, ?_,
      fun i start hi => ?_, fun hbd => ?_⟩
    · rw [emitAll_append, emitAll_append, ← h.code]
      rfl
    · rcases recordStart_eq_some hi with ⟨rfl, rfl⟩ | ⟨-, hi⟩
      · exact ⟨blks, pre, mine, [], by rw [append_nil], by rw [hst, hl], hpr, hm, hr⟩
      · exact (h.nodes i start hi).append _
    · rw [mem_cons, or_and_right, ← h.recorded i, and_iff_left_of_imp (by rintro rfl; exact hlv)]
      exact exists_recordStart_iff hno
    · show (emitAll (emitAll st.code pre) mine).bytes.length ≤ _
      omega
    · show _ ≤ (emitAll (emitAll st.code pre) mine).bytes.length +
        3 * (emitAll (emitAll st.code pre) mine).fixups.length
      rw [he, length_fixups_emitAll, length_fixups_emitAll]
      omega
    · show (emitAll (emitAll st.code pre) mine).bytes.length + _ ≤ _
      rcases recordStart_eq_some hi with ⟨rfl, rfl⟩ | ⟨-, hi⟩
      · simp only
        omega
      · have := h.slack i start hi
        omega
    · have hln : st.code.bytes.length ≤ (emitAll (emitAll st.code pre) mine).bytes.length := by
        omega
      have hol : AllFrom (Suits dfa st) 4 (blks ++ pre) := by
        rw [allFrom_append, ← hl]
        exact ⟨h.suits (hbd.mono (Nat.le_add_right _ _) hln), hsp⟩
      rw [← append_assoc, allFrom_append]
      constructor
      · refine hol.imp fun loc block hlc hb => ?_
        have hb' : Suits dfa ⟨emitAll st.code pre, st.nodeStartOffsets⟩ loc block := hb
        refine hb'.recordStart hno (fun i start hi => ?_)
          (hbd.mono (by omega) (he.ge.trans' (Nat.le_add_right _ _))) ?_
        · have := h.slack i start hi
          simp only
          omega
        · rw [map_append, sum_append] at hlc
          simp only
          omega
      · rw [map_append, sum_append, ← Nat.add_assoc, ← hl, ← hst]
        exact hss

/-- The root and the nodes below an index. -/
theorem compiled_range (hdf : dfa.WellFormed) (n : Nat) :
    ∃ blks, Compiled dfa (nextIndex dfa n)
      (((range n).filter fun idx => idx ≠ dfa.root).reverse ++ [dfa.root])
      (((range n).filter fun idx => idx ≠ dfa.root).foldl (CompilerState.compileNode dfa)
        (CompilerState.compileNode dfa ⟨⟨[0, 0, 0, 0], []⟩, fun _ => none⟩ dfa.root)) blks := by
  induction n with
  | zero =>
    have hin : Compiled dfa 4 [] ⟨⟨[0, 0, 0, 0], []⟩, fun _ => none⟩ [] :=
      ⟨rfl, by simp, by simp, le_refl 4, le_refl 4, by simp, fun _ => trivial⟩
    refine hin.compileNode hdf (by simp) (fun _ => rfl) ?_
    rw [maxNodeStartOffset, if_pos rfl, prologue, if_pos rfl, sum_maxSize_actionPieces]
  | succ n ih =>
    obtain ⟨blks, h⟩ := ih
    rw [range_succ, filter_append, nextIndex]
    by_cases hr : n = dfa.root
    · rw [if_pos hr, filter_singleton]
      simp only [hr, ne_eq, not_true_eq_false, decide_false, cond_false, append_nil, Nat.add_zero]
      exact ⟨blks, hr ▸ h⟩
    · rw [if_neg hr, filter_singleton]
      simp only [hr, ne_eq, not_false_eq_true, decide_true, cond_true, reverse_append,
        reverse_singleton, foldl_append, foldl_cons, foldl_nil, cons_append]
      refine h.compileNode hdf ?_ (fun heq => absurd heq hr) ?_
      · simp [hr]
      · rw [maxNodeStartOffset, if_neg hr, prologue, if_neg hr]
        rfl

theorem compiled_compileNodes (hdf : dfa.WellFormed) :
    ∃ done blks, (∀ i, (dfa.node i).isKilled = false → i ∈ done) ∧
      Compiled dfa (nextIndex dfa dfa.nodes.length) done (compileNodes dfa) blks := by
  obtain ⟨blks, h⟩ := compiled_range hdf dfa.nodes.length
  refine ⟨_, blks, fun i hi => ?_, h⟩
  have := DFA.lt_of_not_isKilled hi
  by_cases hr : i = dfa.root
  · simp [hr]
  · simp [hr, this]

end CompilerState

/-! ### The finished program -/

open CompilerState

/-- The bytecode of an automaton: a header, the root behind its prologue, and all
live nodes at their starts. -/
structure Program (dfa : DFA) (nodeStartOffsets : Nat → Option Nat) (bytecode : List UInt8) :
    Prop where
  header : ofLittleEndian (bytecode.take 4) = bytecode.length
  nodes : ∀ i, (dfa.node i).isKilled = false → ∃ start blocks, nodeStartOffsets i = some start ∧
    List.Forall₂ Piece.Emitted (body dfa i) blocks ∧
    Holds (linkDistance nodeStartOffsets) bytecode start blocks
  root : ∃ pre, List.Forall₂ Piece.Emitted (prologue dfa dfa.root) pre ∧
    Holds (linkDistance nodeStartOffsets) bytecode 4 pre ∧
    nodeStartOffsets dfa.root = some (4 + (pre.map Block.size).sum)

theorem compile_eq {dfa frontier done} {blks : List (Block Nat)}
    (h : Compiled dfa frontier done (compileNodes dfa) blks) (bytecode : List UInt8) :
    compile dfa = some bytecode ↔
      4 + (blks.map Block.size).sum ≤ maxUnsigned ∧
        LinkableFrom (linkDistance (compileNodes dfa).nodeStartOffsets) 4 blks ∧
        bytecode = toLittleEndian 4 (4 + (blks.map Block.size).sum) ++
          linkedFrom (linkDistance (compileNodes dfa).nodeStartOffsets) 4 blks := by
  have hse : ∀ linked : List UInt8, Code.setBits ([0, 0, 0, 0] ++ linked) 0
          (toLittleEndian 4 ([0, 0, 0, 0] ++ linked : List UInt8).length) =
        some (toLittleEndian 4 (4 + linked.length) ++ linked) := by
    intro linked
    rw [length_append]
    exact setBits_append [] _ linked (by rw [toLittleEndian_length]; rfl)
  rw [compile]
  simp only [h.length_eq]
  split_ifs with hl
  · rw [bind_eq_some_iff]
    constructor
    · rintro ⟨linked, hlk, hcd⟩
      rw [h.code, link_emitAll] at hlk
      obtain ⟨hln, rfl⟩ := hlk
      rw [hse, some.injEq, length_linkedFrom] at hcd
      exact ⟨hl, hln, hcd.symm⟩
    · rintro ⟨-, hln, rfl⟩
      have hli : (compileNodes dfa).code.link
          (linkDistance (compileNodes dfa).nodeStartOffsets) =
            some ([0, 0, 0, 0] ++
              linkedFrom (linkDistance (compileNodes dfa).nodeStartOffsets) 4 blks) := by
        rw [h.code, link_emitAll]
        exact ⟨hln, rfl⟩
      exact ⟨_, hli, by rw [hse, length_linkedFrom]⟩
  · simp [hl]

/-- What the compiler returns is the program of the automaton. -/
theorem program_of_compile {dfa : DFA} (hdf : dfa.WellFormed) {bytecode}
    (h : compile dfa = some bytecode) :
    Program dfa (compileNodes dfa).nodeStartOffsets bytecode := by
  obtain ⟨done, blks, hdn, hcm⟩ := compiled_compileNodes hdf
  obtain ⟨hl, hln, hcd⟩ := (compile_eq hcm bytecode).mp h
  have hh : Holds (linkDistance (compileNodes dfa).nodeStartOffsets) bytecode 4 blks :=
    ⟨hln, _, [], toLittleEndian_length 4 _, by rw [append_nil, hcd]⟩
  have hnd : ∀ i, (dfa.node i).isKilled = false → ∃ start,
      (compileNodes dfa).nodeStartOffsets i = some start ∧ NodeAt dfa blks i start := by
    intro i hi
    obtain ⟨start, hst⟩ := (hcm.recorded i).mpr ⟨hdn i hi, hi⟩
    exact ⟨start, hst, hcm.nodes i start hst⟩
  refine ⟨?_, fun i hi => ?_, ?_⟩
  · rw [hcd, take_left' (toLittleEndian_length 4 _), ofLittleEndian_toLittleEndian, length_append,
      toLittleEndian_length, length_linkedFrom]
    exact Nat.mod_eq_of_lt (Nat.lt_succ_of_le hl)
  · obtain ⟨start, hst, front, pre, mine, back, hbl, rfl, -, hm, -⟩ := hnd i hi
    rw [hbl] at hh
    exact ⟨_, mine, hst, hm, hh.right.right.left⟩
  · obtain ⟨start, hst, front, pre, mine, back, hbl, rfl, hpr, -, hfn⟩ :=
      hnd dfa.root hdf.root
    obtain rfl := hfn rfl
    rw [hbl, nil_append] at hh
    exact ⟨pre, hpr, hh.left, hst⟩

/-- The end of a node takes a byte. -/
theorem sum_size_body_pos {dfa : DFA} {idx} {blks : List (Block Nat)}
    (h : List.Forall₂ Piece.Emitted (body dfa idx) blks) : 0 < (blks.map Block.size).sum := by
  have hne : body dfa idx ≠ [] := by
    rw [body, transitionPieces]
    split_ifs <;> simp
  generalize body dfa idx = pieces at h hne
  cases h with
  | nil => exact absurd rfl hne
  | cons hb _ =>
    obtain ⟨jsz, -, -, rfl⟩ := hb
    rw [map_cons, sum_cons]
    exact Nat.add_pos_left (Piece.size_block_pos jsz _) _

/-- The compiler succeeds if the widths that it reserves are enough. -/
theorem exists_compile_of_reserved {dfa : DFA} (hdf : dfa.WellFormed)
    (hrs : Reserved dfa (nextIndex dfa dfa.nodes.length) (compileNodes dfa).code.bytes.length) :
    ∃ bytecode, compile dfa = some bytecode := by
  obtain ⟨done, blks, hdn, h⟩ := compiled_compileNodes hdf
  have hl := h.length
  have hlt : 4 + (blks.map Block.size).sum ≤ 2147483647 := by
    rw [← h.length_eq]
    rcases hrs with hrs | hrs <;> omega
  refine ⟨_, (compile_eq h _).mpr ⟨hlt.trans (by decide), ?_, rfl⟩⟩
  · refine (h.suits hrs).imp fun loc block hlc hs d hd => ?_
    obtain ⟨hlv, hwd, source, start, -, -, -, hwi⟩ := hs d hd
    obtain ⟨dest, hds⟩ := (h.recorded d).mpr ⟨hdn d hlv, hlv⟩
    obtain ⟨front, pre, mine, back, hbl, hst, -, hm, -⟩ := h.nodes d dest hds
    have hps := sum_size_body_pos hm
    have hle : dest < 4 + (blks.map Block.size).sum := by
      rw [hst, hbl]
      simp only [map_append, sum_append]
      omega
    have hg := toInt32_of_lt (n := dest - loc) (by omega) (by omega)
    simp only [longestPossibleJump, hds, hg] at hwi
    have hf : Int.bmod (dest - loc) (256 ^ block.width) = dest - loc :=
      fits_of_smallestPossibleJumpSize hwi hwd (by omega) (by omega)
    simp only [linkDistance, hds, hg, hf, and_true]
    rw [if_pos (by omega)]
    rfl

/-- The compiler succeeds if the bytecode is small enough without compaction. -/
theorem exists_compile_eq_some {dfa : DFA} (hdf : dfa.WellFormed)
    (hsz : nextIndex dfa dfa.nodes.length < 2147483647) :
    ∃ bytecode, compile dfa = some bytecode :=
  exists_compile_of_reserved hdf (.inl hsz)

end QtWebKit.ContentExtensions
