import QtWebKit.ContentExtensions.DFABytecodeSteps
import Mathlib.Data.List.Forall2

/-!
# The bytecode refines the automaton

Interpreting the compiled bytecode visits the nodes of the automaton and
collects their actions. The one exception is the end of the url: a node whose
transition on the end leads to its fallback target loses this transition,
because the check is left to the fallback jump and the jump is not taken at the
end of the url.
-/

namespace QtWebKit.ContentExtensions

open RelocatableCode CompilerState List

/-- The edge that the bytecode of a node follows. -/
def DFANode.followed (node : DFANode) (c : Nat) : Option Nat :=
  if c = 0 ∧ node.canUseFallbackTransition = true ∧
    node.target 0 = some node.bestFallbackTarget then
    none
  else node.target c

namespace Interpreter

/-! ### Terminating runs -/

section

variable (bytecode : List UInt8) (flags : ResourceFlags) (domainActions : Option (List ActionWord))

/-- The loop over the instructions ends with these actions. -/
inductive Yields : State → List ActionWord → Prop
  | stop {state actions} (h : step bytecode flags domainActions state = .nextDFA actions) :
      Yields state actions
  | move {state next actions} (h : step bytecode flags domainActions state = .next next)
      (hnext : Yields next actions) : Yields state actions

variable {bytecode flags domainActions}

/-- Enough rounds bring the loop to its end. -/
theorem Yields.runDFA {st acts} (h : Yields bytecode flags domainActions st acts) :
    ∃ rounds, ∀ fuel, rounds ≤ fuel →
      runDFA bytecode flags domainActions fuel st = some acts := by
  induction h with
  | stop h =>
    refine ⟨1, fun fuel hfu => ?_⟩
    obtain ⟨fuel, rfl⟩ := Nat.exists_eq_add_of_le' hfu
    rw [Interpreter.runDFA, h]
  | move h _ ih =>
    obtain ⟨rounds, hrn⟩ := ih
    refine ⟨rounds + 1, fun fuel hfu => ?_⟩
    obtain ⟨fuel, rfl⟩ := Nat.exists_eq_add_of_le' (Nat.le_of_add_left_le hfu)
    rw [Interpreter.runDFA, h]
    exact hrn fuel (Nat.le_of_succ_le_succ hfu)

end

variable {bytecode : List UInt8} {flags : ResourceFlags} {domainActions : Option (List ActionWord)}
  {starts : Nat → Option Nat} {loc : Nat} {blks rest : List (Block Nat)}
  {url : List Nat} {res : List ActionWord}

/-! ### The code of a node -/

theorem yields_actions {words : List ActionWord} {after acts}
    (hb : List.Forall₂ Piece.Emitted (words.map Piece.action) blks)
    (h : Holds (linkDistance starts) bytecode loc (blks ++ rest))
    (hr : Yields bytecode flags domainActions ⟨loc + (blks.map Block.size).sum, url, after,
        words.foldl (collect flags domainActions) acts⟩ res) :
    Yields bytecode flags domainActions ⟨loc, url, after, acts⟩ res := by
  induction words generalizing loc blks acts with
  | nil =>
    cases hb
    exact hr
  | cons action more ih =>
    rw [map_cons] at hb
    obtain ⟨blk, blks', ⟨jsz, -, -, rfl⟩, hmr, rfl⟩ := forall₂_cons_left_iff.mp hb
    rw [map_cons, sum_cons, ← Nat.add_assoc, foldl_cons] at hr
    exact .move (step_action flags domainActions h url after acts) (ih hmr h.tail hr)

/-- The checks of a node: either the edge of the character is followed, or all
blocks are skipped. -/
theorem yields_checks {pieces : List (Piece × List Range)} {acts} (hfw : ∀ pc ∈ pieces,
      Follows bytecode flags domainActions starts pc.1 pc.2)
    (hb : List.Forall₂ Piece.Emitted (pieces.map Prod.fst) blks)
    (h : Holds (linkDistance starts) bytecode loc (blks ++ rest)) {tgt}
    (ht : ∀ d, (∃ rng ∈ pieces.flatMap Prod.snd, rng.Leads (url.headD 0) d) ↔ tgt = some d)
    (hsm : ∀ d start, tgt = some d → starts d = some start →
      Yields bytecode flags domainActions ⟨start, url.tail, url.headD 0 = 0, acts⟩ res)
    (hno : tgt = none → Yields bytecode flags domainActions
      ⟨loc + (blks.map Block.size).sum, url, false, acts⟩ res) :
    Yields bytecode flags domainActions ⟨loc, url, false, acts⟩ res := by
  induction pieces generalizing loc blks with
  | nil =>
    cases hb
    cases tgt with
    | none => exact hno rfl
    | some d =>
      obtain ⟨rng, hm, -⟩ := (ht d).mpr rfl
      cases hm
  | cons pc pieces ih =>
    rw [map_cons] at hb
    obtain ⟨blk, blks', ⟨jsz, ho, hfr, rfl⟩, hmr, rfl⟩ :=
      forall₂_cons_left_iff.mp hb
    rw [forall_mem_cons] at hfw
    obtain ⟨hed, hsk, -⟩ :=
      hfw.1 jsz loc (blks' ++ rest) url acts ho hfr h
    simp only [flatMap_cons, mem_append, or_and_right, exists_or] at ht
    by_cases hld : ∃ d, ∃ rng ∈ pc.2, rng.Leads (url.headD 0) d
    · obtain ⟨d, hld⟩ := hld
      obtain ⟨start, hst, hs⟩ := hed d hld
      exact .move hs (hsm d start ((ht d).mp (.inl hld)) hst)
    · refine .move (hsk hld) (ih hfw.2 hmr h.tail (fun d => ?_) fun ht => ?_)
      · rw [← ht d, or_iff_right fun hf => hld ⟨d, hf⟩]
      · rw [Nat.add_assoc, ← sum_cons, ← map_cons]
        exact hno ht

theorem exists_append_of_forall₂ {α β : Type} {R : α → β → Prop} {first snd items}
    (h : List.Forall₂ R (first ++ snd) items) :
    ∃ items₁ items₂, List.Forall₂ R first items₁ ∧ List.Forall₂ R snd items₂ ∧
      items = items₁ ++ items₂ := by
  induction first generalizing items with
  | nil => exact ⟨[], items, .nil, h, rfl⟩
  | cons a first ih =>
    obtain ⟨b, rest, hab, hr, rfl⟩ := forall₂_cons_left_iff.mp h
    obtain ⟨items₁, items₂, h₁, h₂, rfl⟩ := ih hr
    exact ⟨b :: items₁, items₂, .cons hab h₁, h₂, rfl⟩

/-- The pieces of a node that check a character, with the ranges they stand for. -/
def checkPieces (nodeTransitions : Transitions) : List (Piece × List Range) :=
  nodeTransitions.jumpTables.map (fun jumpTable =>
    (Piece.ofJumpTable jumpTable, jumpTable.ranges)) ++
    nodeTransitions.ranges.map fun range => (Piece.ofRange range, [range])

theorem transitionPieces_eq (node : DFANode) :
    transitionPieces node =
      (checkPieces (transitions node)).map Prod.fst ++ [Piece.ofEnd (transitions node)] := by
  rw [transitionPieces, checkPieces, map_append, map_map, map_map, append_assoc]
  rfl

theorem flatMap_checkPieces (nodeTransitions : Transitions) :
    (checkPieces nodeTransitions).flatMap Prod.snd = nodeTransitions.checks := by
  rw [checkPieces, flatMap_append, flatMap_map, flatMap_map, Transitions.checks]
  congr 1
  exact flatMap_singleton' _

theorem max_lt_of_mem_jumpTables {node} {tbl : JumpTable}
    (h : tbl ∈ (transitions node).jumpTables) : tbl.max < 128 := by
  obtain ⟨hle, hsz⟩ := proper_jumpTables node tbl h
  have hlt : tbl.max - tbl.min < tbl.destinations.length := by omega
  have hl : (tbl.ranges)[tbl.max - tbl.min]? =
      some ⟨tbl.max, tbl.max, tbl.destinations[tbl.max - tbl.min],
        tbl.caseSensitive⟩ := by
    rw [JumpTable.ranges, getElem?_singles, getElem?_eq_getElem hlt, Option.map_some,
      Nat.add_sub_of_le hle]
  exact (proper_checks node _ (mem_append_left _ (mem_flatMap.mpr
    ⟨tbl, h, mem_of_getElem? hl⟩))).ascii

variable (bytecode flags domainActions starts) in
theorem follows_checkPieces (node : DFANode) : ∀ pc ∈ checkPieces (transitions node),
    Follows bytecode flags domainActions starts pc.1 pc.2 := by
  intro pc hpi
  rw [checkPieces, mem_append, mem_map, mem_map] at hpi
  rcases hpi with ⟨tbl, hm, rfl⟩ | ⟨rng, hm, rfl⟩
  · exact follows_ofJumpTable flags domainActions (proper_jumpTables node tbl hm)
      (max_lt_of_mem_jumpTables hm)
  · exact follows_ofRange flags domainActions (proper_checks node rng (mem_append_right _ hm))

section

variable {dfa : DFA} {idx : Nat} {acts : List ActionWord}
  (hb : List.Forall₂ Piece.Emitted (transitionPieces (dfa.node idx)) blks)
  (h : Holds (linkDistance starts) bytecode loc (blks ++ rest))

include hb h

/-- After the end of the url, the transitions of a node end the automaton. -/
theorem yields_transitions_after :
    Yields bytecode flags domainActions ⟨loc, url, true, acts⟩ acts := by
  have hfw := follows_checkPieces bytecode flags domainActions starts (dfa.node idx)
  rw [transitionPieces_eq] at hb
  cases hpc : checkPieces (transitions (dfa.node idx)) with
  | nil =>
    rw [hpc, map_nil, nil_append] at hb
    obtain ⟨blk, blks', ⟨jsz, -, hfr, rfl⟩, -, rfl⟩ :=
      forall₂_cons_left_iff.mp hb
    exact .stop (step_end flags domainActions hfr h (.inr (.inr rfl)))
  | cons pc pieces =>
    rw [hpc, map_cons, cons_append] at hb
    obtain ⟨blk, blks', ⟨jsz, ho, hfr, rfl⟩, -, rfl⟩ :=
      forall₂_cons_left_iff.mp hb
    rw [hpc, forall_mem_cons] at hfw
    exact .stop (hfw.1 jsz loc _ url acts ho hfr h).2.2

/-- The transitions of a node follow its edge for the character, or end the automaton. -/
theorem yields_transitions (hdf : dfa.WellFormed) (hc : url.headD 0 < 128)
    (hsm : ∀ d start, (dfa.node idx).followed (url.headD 0) = some d → starts d = some start →
      Yields bytecode flags domainActions ⟨start, url.tail, url.headD 0 = 0, acts⟩ res)
    (hno : (dfa.node idx).followed (url.headD 0) = none → res = acts) :
    Yields bytecode flags domainActions ⟨loc, url, false, acts⟩ res := by
  rw [transitionPieces_eq] at hb
  obtain ⟨checks, last, hcc, hl, rfl⟩ := exists_append_of_forall₂ hb
  obtain ⟨blk, blks', ⟨jsz, ho, hfr, rfl⟩, -, rfl⟩ := forall₂_cons_left_iff.mp hl
  rw [append_assoc] at h
  have he := h.right
  have hld (d) := leads_checks hdf idx (d := d) hc
  rw [← flatMap_checkPieces] at hld
  have hfw := follows_checkPieces bytecode flags domainActions starts (dfa.node idx)
  rw [DFANode.followed] at hsm hno
  by_cases hfa : (dfa.node idx).canUseFallbackTransition = true ∧
      (dfa.node idx).target (url.headD 0) = some (dfa.node idx).bestFallbackTarget
  · -- The edge is left to the fallback jump.
    have hch (d) :
        (∃ rng ∈ (checkPieces (transitions (dfa.node idx))).flatMap Prod.snd,
          rng.Leads (url.headD 0) d) ↔ (none : Option Nat) = some d := by
      rw [hld, hfa.2]
      simp [hfa.1]
    refine yields_checks hfw hcc h hch (fun d _ hd => by cases hd) fun _ => ?_
    by_cases hz : url.headD 0 = 0
    · rw [if_pos ⟨hz, hfa.1, hz ▸ hfa.2⟩] at hno
      rw [hno rfl]
      exact .stop (step_end flags domainActions hfr he (.inr (.inl hz)))
    · obtain ⟨start, hst, hs⟩ := step_fallback flags domainActions ho hfr he hfa.1 hz
      rw [fallbackTransitionTarget_eq hfa.1] at hst
      rw [if_neg fun h => hz h.1] at hsm
      exact .move hs (hsm _ start hfa.2 hst)
  · have hfd : ¬(url.headD 0 = 0 ∧ (dfa.node idx).canUseFallbackTransition = true ∧
        (dfa.node idx).target 0 = some (dfa.node idx).bestFallbackTarget) :=
      fun h => hfa ⟨h.2.1, by rw [h.1]; exact h.2.2⟩
    rw [if_neg hfd] at hsm hno
    have hch (d) :
        (∃ rng ∈ (checkPieces (transitions (dfa.node idx))).flatMap Prod.snd,
          rng.Leads (url.headD 0) d) ↔ (dfa.node idx).target (url.headD 0) = some d := by
      rw [hld, and_iff_left_iff_imp]
      rintro ht ⟨hus, rfl⟩
      exact hfa ⟨hus, ht⟩
    refine yields_checks hfw hcc h hch hsm fun ht => ?_
    rw [hno ht]
    refine .stop (step_end flags domainActions hfr he ?_)
    by_contra hcv
    simp only [not_or, Bool.not_eq_false] at hcv
    obtain ⟨t, hm, hct⟩ :=
      DFANode.exists_of_canUseFallbackTransition hcv.1 hcv.2.1 hc
    have hex := (DFANode.target_eq_some (hdf.sorted idx)).mpr ⟨t, hm, hct, rfl⟩
    rw [ht] at hex
    cases hex

end

/-! ### Reading the url -/

/-- The actions that are appended on the way into a node; those of the root are
appended only once. -/
def entered (dfa : DFA) (index : Nat) : List ActionWord :=
  if index = dfa.root then [] else (dfa.node index).actions

variable (flags domainActions) in
def enter (dfa : DFA) (actions : List ActionWord) (index : Nat) : List ActionWord :=
  (entered dfa index).foldl (collect flags domainActions) actions

theorem body_eq (dfa : DFA) (idx : Nat) :
    body dfa idx =
      (entered dfa idx).map Piece.action ++ transitionPieces (dfa.node idx) := by
  rw [body, entered]
  split_ifs
  · rw [map_nil, nil_append]
  · rw [actionPieces]

section

variable {dfa : DFA} (hdf : dfa.WellFormed) (hpr : Program dfa starts bytecode)

include hdf hpr

omit hdf in
theorem yields_node_after {idx start} (hlv : (dfa.node idx).isKilled = false)
    (hst : starts idx = some start) (acts : List ActionWord) :
    Yields bytecode flags domainActions ⟨start, url, true, acts⟩
      (enter flags domainActions dfa acts idx) := by
  obtain ⟨start', blks, hst', hb, h⟩ := hpr.nodes idx hlv
  obtain rfl := Option.some.inj (hst.symm.trans hst')
  rw [body_eq] at hb
  obtain ⟨first, snd, hf, hsn, rfl⟩ := exists_append_of_forall₂ hb
  have hsc := h.right
  rw [← append_nil snd] at hsc
  exact yields_actions hf h (yields_transitions_after hsn hsc)

theorem yields_node {idx start} (hlv : (dfa.node idx).isKilled = false)
    (hst : starts idx = some start) (hc : url.headD 0 < 128) {acts}
    (hsm : ∀ d start, (dfa.node idx).followed (url.headD 0) = some d → starts d = some start →
      Yields bytecode flags domainActions
        ⟨start, url.tail, url.headD 0 = 0, enter flags domainActions dfa acts idx⟩ res)
    (hno : (dfa.node idx).followed (url.headD 0) = none →
      res = enter flags domainActions dfa acts idx) :
    Yields bytecode flags domainActions ⟨start, url, false, acts⟩ res := by
  obtain ⟨start', blks, hst', hb, h⟩ := hpr.nodes idx hlv
  obtain rfl := Option.some.inj (hst.symm.trans hst')
  rw [body_eq] at hb
  obtain ⟨first, snd, hf, hsn, rfl⟩ := exists_append_of_forall₂ hb
  have hsc := h.right
  rw [← append_nil snd] at hsc
  exact yields_actions hf h (yields_transitions hsn hsc hdf hc hsm hno)

omit hpr in
theorem not_isKilled_of_followed {idx c d} (h : (dfa.node idx).followed c = some d) :
    (dfa.node d).isKilled = false := by
  rw [DFANode.followed] at h
  split_ifs at h
  obtain ⟨t, hm, -, rfl⟩ := (DFANode.target_eq_some (hdf.sorted idx)).mp h
  exact hdf.targets idx t hm

variable (flags domainActions) in
/-- From the start of a node, the interpreter enters the nodes on the path of the url. -/
theorem yields_url (hu : ∀ c ∈ url, c ≠ 0 ∧ c < 128) {idx start}
    (hlv : (dfa.node idx).isKilled = false) (hst : starts idx = some start)
    (acts : List ActionWord) :
    Yields bytecode flags domainActions ⟨start, url, false, acts⟩
      ((visitedBy (fun i c => (dfa.node i).followed c) idx (url ++ [0])).foldl
        (enter flags domainActions dfa) acts) := by
  induction url generalizing idx start acts with
  | nil =>
    refine yields_node hdf hpr hlv hst (by decide) (fun d start' hd hst' => ?_) fun hno => ?_
    · have hpt : visitedBy (fun i c => (dfa.node i).followed c) idx ([] ++ [0]) = [idx, d] := by
        simp only [nil_append, visitedBy]
        rw [show (dfa.node idx).followed 0 = some d from hd]
      rw [hpt]
      exact yields_node_after hpr (not_isKilled_of_followed hdf hd) hst' _
    · simp only [nil_append, visitedBy]
      rw [show (dfa.node idx).followed 0 = none from hno]
      rfl
  | cons c rest ih =>
    rw [forall_mem_cons] at hu
    have hc : (c :: rest).headD 0 < 128 := hu.1.2
    refine yields_node hdf hpr hlv hst hc (fun d start' hd hst' => ?_) fun hno => ?_
    · have hpt : visitedBy (fun i c => (dfa.node i).followed c) idx (c :: rest ++ [0]) =
          idx :: visitedBy (fun i c => (dfa.node i).followed c) d (rest ++ [0]) := by
        simp only [cons_append, visitedBy]
        rw [show (dfa.node idx).followed c = some d from hd]
      rw [hpt, foldl_cons, headD_cons, decide_eq_false hu.1.1]
      exact ih hu.2 (not_isKilled_of_followed hdf hd) hst' _
    · simp only [cons_append, visitedBy]
      rw [show (dfa.node idx).followed c = none from hno]
      rfl

end

/-! ### The root -/

/-- The instructions of a node's transitions do not append actions. -/
theorem getInstruction_transitionPieces {node} {pc : Piece} {jsz}
    (hpi : pc ∈ transitionPieces node) (hfr : jsz ≤ 4)
    (h : Holds (linkDistance starts) bytecode loc (pc.block jsz :: rest)) :
    getInstruction bytecode loc < 6 ∨ 9 < getInstruction bytecode loc := by
  rw [transitionPieces, mem_append, mem_append, mem_map, mem_map, mem_singleton] at hpi
  rcases hpi with ⟨tbl, -, rfl⟩ | ⟨rng, -, rfl⟩ | rfl
  · have hlt : jumpTableInstruction tbl.caseSensitive < 6 := by
      rw [jumpTableInstruction]
      split_ifs <;> decide
    rw [getInstruction_branch hfr (by omega) h]
    exact .inl hlt
  · rw [Piece.ofRange] at h
    split_ifs at h
    · have hlt : checkValueInstruction rng.caseSensitive < 6 := by
        rw [checkValueInstruction]
        split_ifs <;> decide
      rw [getInstruction_branch hfr (by omega) h]
      exact .inl hlt
    · have hlt : checkValueRangeInstruction rng.caseSensitive < 6 := by
        rw [checkValueRangeInstruction]
        split_ifs <;> decide
      rw [getInstruction_branch hfr (by omega) h]
      exact .inl hlt
  · rw [Piece.ofEnd] at h
    split_ifs at h
    · rw [getInstruction_branch hfr (by decide) h]
      exact .inr (by decide)
    · rw [getInstruction_eq h rfl (by decide) (by decide)]
      exact .inr (by decide)

theorem size_le_of_holds (h : Holds (linkDistance starts) bytecode loc blks) :
    loc + (blks.map Block.size).sum ≤ bytecode.length := by
  obtain ⟨-, before, after, rfl, rfl⟩ := h
  rw [length_append, length_append, length_linkedFrom]
  omega

theorem one_le_size_block (pc : Piece) (jsz : Nat) : 1 ≤ (pc.block jsz).size := by
  cases pc with
  | action word =>
    rw [Piece.block, Piece.size_appendActionBlock, appendActionBytecodeSize]
    split_ifs <;> decide
  | branch instr args dests =>
    simp only [Piece.block, jumpBlock, Block.size, length_cons]
    omega
  | terminate => exact le_refl 1

/-- The loop over the root's actions stops at an instruction that appends nothing. -/
theorem appendRootActions_stop {dfaBytecodeLength programCounter fuel acts}
    (h : getInstruction bytecode programCounter < 6 ∨ 9 < getInstruction bytecode programCounter) :
    appendRootActions bytecode flags domainActions dfaBytecodeLength (fuel + 1) programCounter
      acts =
      some (programCounter, acts) := by
  rw [appendRootActions]
  split_ifs
  · split <;> first | omega | rfl
  · rfl

theorem appendRootActions_action {word : ActionWord} {dfaBytecodeLength fuel acts}
    (h : Holds (linkDistance starts) bytecode loc (appendActionBlock word :: rest))
    (hlt : loc < dfaBytecodeLength) :
    appendRootActions bytecode flags domainActions dfaBytecodeLength (fuel + 1) loc acts =
      appendRootActions bytecode flags domainActions dfaBytecodeLength fuel
        (loc + (appendActionBlock word).size)
        (if word.flags ≠ 0 then collect flags domainActions acts word else acts) := by
  have hin := getInstruction_action h
  rw [Piece.size_appendActionBlock, appendActionBytecodeSize, appendRootActions, if_pos hlt]
  by_cases hfl : word.flags = 0
  · rw [actionInstruction, if_neg (not_not.mpr hfl)] at hin
    rw [if_neg (not_not.mpr hfl), if_neg (not_not.mpr hfl), hin]
    cases word.ifDomain <;> rfl
  · have hrs := interpretTestFlagsAndAppendAction_eq flags domainActions h hfl acts
    rw [actionInstruction, if_pos hfl] at hin
    rw [if_pos hfl, if_pos hfl, hin]
    cases hdm : word.ifDomain with
    | false =>
      rw [hdm] at hrs
      simp [Instruction.testFlagsAndAppendAction, hrs]
    | true =>
      rw [hdm] at hrs
      simp [Instruction.testFlagsAndAppendActionWithIfDomain, hrs]

/-- The loop over the root's actions collects those with flags. -/
theorem appendRootActions_eq {words acts : List ActionWord} {dfaBytecodeLength fuel}
    (hb : List.Forall₂ Piece.Emitted (words.map Piece.action) blks)
    (h : Holds (linkDistance starts) bytecode loc blks)
    (hn : loc + (blks.map Block.size).sum ≤ dfaBytecodeLength)
    (hp : getInstruction bytecode (loc + (blks.map Block.size).sum) < 6 ∨
      9 < getInstruction bytecode (loc + (blks.map Block.size).sum))
    (hfu : words.length + 1 ≤ fuel) :
    appendRootActions bytecode flags domainActions dfaBytecodeLength fuel loc acts =
      some (loc + (blks.map Block.size).sum,
        (words.filter fun word => word.flags ≠ 0).foldl (collect flags domainActions) acts) := by
  obtain ⟨fuel, rfl⟩ := Nat.exists_eq_add_of_le' (Nat.le_of_add_left_le hfu)
  induction words generalizing loc blks acts fuel with
  | nil =>
    cases hb
    exact appendRootActions_stop hp
  | cons word words ih =>
    rw [map_cons] at hb
    obtain ⟨blk, blks', ⟨jsz, -, -, rfl⟩, hmr, rfl⟩ := forall₂_cons_left_iff.mp hb
    have hpo := one_le_size_block (.action word) jsz
    rw [map_cons, sum_cons, ← Nat.add_assoc] at hn hp
    obtain ⟨fuel, rfl⟩ : ∃ n, fuel = n + 1 :=
      ⟨fuel - 1, by rw [length_cons] at hfu; omega⟩
    rw [length_cons] at hfu
    refine (appendRootActions_action h (by omega)).trans ?_
    refine (ih hmr h.tail hn hp fuel (by omega)).trans ?_
    rw [map_cons, sum_cons, ← Nat.add_assoc, filter_cons]
    by_cases hfl : word.flags = 0
    · simp [hfl]
    · simp only [hfl, ne_eq, not_false_eq_true, decide_true, if_true, foldl_cons]

/-! ### The whole program -/

theorem interpretFrom_length {fuel acts} :
    interpretFrom bytecode flags domainActions url (fuel + 1) bytecode.length acts = some acts := by
  rw [interpretFrom, if_neg (lt_irrefl _)]

variable (flags domainActions) in
/-- The interpreter collects the root's actions with flags and the actions of all
nodes that the bytecode enters. -/
theorem interpret_of_program {dfa : DFA} (hdf : dfa.WellFormed)
    (hpr : Program dfa starts bytecode) (hu : ∀ c ∈ url, c ≠ 0 ∧ c < 128) :
    ∃ rounds, ∀ fuel, rounds ≤ fuel →
      interpret bytecode flags domainActions fuel url =
        some ((visitedBy (fun i c => (dfa.node i).followed c) dfa.root (url ++ [0])).foldl
          (enter flags domainActions dfa)
          (((dfa.node dfa.root).actions.filter fun word => word.flags ≠ 0).foldl
            (collect flags domainActions) [])) := by
  obtain ⟨pre, hpre, hpe, hst⟩ := hpr.root
  obtain ⟨start, blks, hst', hb, hbd⟩ := hpr.nodes dfa.root hdf.root
  obtain rfl := Option.some.inj (hst.symm.trans hst')
  rw [prologue, if_pos rfl] at hpre
  rw [body, if_pos rfl, transitionPieces_eq] at hb
  have hn := size_le_of_holds hbd
  have hf : (getInstruction bytecode (4 + (pre.map Block.size).sum) < 6 ∨
      9 < getInstruction bytecode (4 + (pre.map Block.size).sum)) ∧
      4 + (pre.map Block.size).sum < bytecode.length := by
    cases blks with
    | nil => simp at hb
    | cons blk blks =>
      obtain ⟨pc, pieces, ⟨jsz, ho, hfr, rfl⟩, -, hpc⟩ :=
        forall₂_cons_right_iff.mp hb
      have hm : pc ∈ transitionPieces (dfa.node dfa.root) := by
        rw [transitionPieces_eq, hpc]
        exact mem_cons_self
      have hpo := one_le_size_block pc jsz
      rw [map_cons, sum_cons] at hn
      exact ⟨getInstruction_transitionPieces hm hfr hbd, by omega⟩
  obtain ⟨rounds, hrn⟩ := (yields_url flags domainActions hdf hpr hu hdf.root hst
    (((dfa.node dfa.root).actions.filter fun word => word.flags ≠ 0).foldl
      (collect flags domainActions) [])).runDFA
  refine ⟨max rounds ((dfa.node dfa.root).actions.length + 1) + 1, fun fuel hfu => ?_⟩
  obtain ⟨fuel, rfl⟩ : ∃ n, fuel = n + 1 := ⟨fuel - 1, by omega⟩
  have hh : getBits bytecode 0 4 = bytecode.length := hpr.header
  rw [interpret, interpretFrom, if_pos (by omega)]
  simp only [hh, Nat.zero_add, if_true, true_and]
  rw [appendRootActions_eq hpre hpe hf.2.le hf.1 (by omega), Option.bind_some]
  simp only
  rw [if_neg (by omega), hrn fuel (by omega), Option.bind_some]
  obtain ⟨fuel, rfl⟩ : ∃ n, fuel = n + 1 := ⟨fuel - 1, by omega⟩
  exact interpretFrom_length

/-! ### The collected actions -/

variable (flags domainActions) in
/-- The flags and the domain of an action match. -/
def passes (action : ActionWord) : Bool :=
  flagsMatch action.flags flags && (domainActions.all fun domainActions =>
    matchesDomain action domainActions)

theorem collect_eq (acts : List ActionWord) (word : ActionWord) :
    collect flags domainActions acts word =
      if passes flags domainActions word then acts.insert word else acts := by
  rw [collect, passes]
  cases flagsMatch word.flags flags with
  | false => rfl
  | true =>
    cases domainActions with
    | none => rfl
    | some domains => rw [if_pos rfl, addAction, Bool.true_and, Option.all_some]

theorem mem_collect {acts word action} :
    action ∈ collect flags domainActions acts word ↔
      action ∈ acts ∨ action = word ∧ passes flags domainActions action = true := by
  rw [collect_eq]
  split_ifs with hps
  · rw [mem_insert_iff, or_comm]
    refine or_congr_right ⟨?_, And.left⟩
    rintro rfl
    exact ⟨rfl, hps⟩
  · refine (or_iff_left ?_).symm
    rintro ⟨rfl, h⟩
    exact hps h

theorem mem_foldl_collect {words acts : List ActionWord} {action} :
    action ∈ words.foldl (collect flags domainActions) acts ↔
      action ∈ acts ∨ action ∈ words ∧ passes flags domainActions action = true := by
  induction words generalizing acts with
  | nil => simp
  | cons word words ih =>
    rw [foldl_cons, ih, mem_collect, mem_cons, or_and_right, or_assoc]

theorem mem_foldl_enter {dfa} {nodes : List Nat} {acts action} :
    action ∈ nodes.foldl (enter flags domainActions dfa) acts ↔
      action ∈ acts ∨
        (∃ i ∈ nodes, action ∈ entered dfa i) ∧ passes flags domainActions action = true := by
  induction nodes generalizing acts with
  | nil => simp
  | cons i nodes ih =>
    rw [foldl_cons, ih, enter, mem_foldl_collect, or_assoc]
    simp [or_and_right, exists_or]

end Interpreter

open Interpreter

/-! ### The refinement -/

/-- The interpreter returns exactly the matching actions of the nodes that the
automaton visits while it reads the url and its end. -/
def RefinesOn (dfa : DFA) (bytecode : List UInt8) (flags : ResourceFlags) (url : List Nat) : Prop :=
  ∃ rounds, ∀ fuel, rounds ≤ fuel → ∃ actions, interpret bytecode flags none fuel url =
    some actions ∧
    ∀ action, action ∈ actions ↔ ∃ i ∈ dfa.visited dfa.root (url ++ [0]),
      action ∈ (dfa.node i).actions ∧ flagsMatch action.flags flags = true

/-- The node at the end of the url leaves the end of the url to its fallback
transition, whose target has a matching action that no other visited node has. -/
def DFA.LosesAction (dfa : DFA) (flags : ResourceFlags) (url : List Nat) : Prop :=
  ∃ last, dfa.reached dfa.root url = some last ∧
    (dfa.node last).canUseFallbackTransition = true ∧
    (dfa.node last).target 0 = some (dfa.node last).bestFallbackTarget ∧
    ∃ action ∈ (dfa.node (dfa.node last).bestFallbackTarget).actions,
      flagsMatch action.flags flags = true ∧
        ∀ i ∈ dfa.visited dfa.root url, action ∉ (dfa.node i).actions

section

variable {dfa : DFA} {url : List Nat} (hu : ∀ c ∈ url, c ≠ 0 ∧ c < 128)

include hu

/-- The bytecode enters the nodes of the automaton, except possibly the last one. -/
theorem visitedBy_followed :
    visitedBy (fun i c => (dfa.node i).followed c) dfa.root (url ++ [0]) =
      dfa.visited dfa.root url ++
        ((dfa.reached dfa.root url).bind fun last => (dfa.node last).followed 0).toList := by
  have hcn : ∀ i, ∀ c ∈ url, (dfa.node i).followed c = (dfa.node i).target c :=
    fun i c hc => if_neg fun h => (hu c hc).1 h.1
  rw [visitedBy_concat, visitedBy_congr hcn, reachedBy_congr hcn]
  rfl

omit hu in
theorem visited_concat :
    dfa.visited dfa.root (url ++ [0]) =
      dfa.visited dfa.root url ++
        ((dfa.reached dfa.root url).bind fun last => (dfa.node last).target 0).toList :=
  visitedBy_concat dfa.root url 0

/-- What the interpreter returns for the program of an automaton whose root has
no actions. -/
theorem interpret_program_spec (hdf : dfa.WellFormed) (hrt : (dfa.node dfa.root).actions = [])
    {starts bytecode} (hpr : Program dfa starts bytecode) (flags : ResourceFlags) :
    ∃ rounds, ∀ fuel, rounds ≤ fuel → ∃ acts,
      interpret bytecode flags none fuel url = some acts ∧
        ∀ action, action ∈ acts ↔
          ∃ i ∈ visitedBy (fun i c => (dfa.node i).followed c) dfa.root (url ++ [0]),
            action ∈ (dfa.node i).actions ∧ flagsMatch action.flags flags = true := by
  obtain ⟨rounds, hrn⟩ := interpret_of_program flags none hdf hpr hu
  refine ⟨rounds, fun fuel hfu => ⟨_, hrn fuel hfu, fun action => ?_⟩⟩
  have hen (i) : entered dfa i = (dfa.node i).actions := by
    rw [entered]
    split_ifs with hi
    · rw [hi, hrt]
    · rfl
  simp [hrt, mem_foldl_enter, hen, passes, ← exists_and_right, and_assoc]

end

/-- Interpreting the compiled bytecode gives the matching actions of all visited
nodes exactly if no action is lost at the end of the url. -/
theorem refinesOn_compile_iff {dfa : DFA} (hdfa : dfa.WellFormed)
    (hroot : (dfa.node dfa.root).actions = []) (flags : ResourceFlags) (url : List Nat)
    (hurl : ∀ c ∈ url, c ≠ 0 ∧ c < 128) :
    (nextIndex dfa dfa.nodes.length < 2147483647 → ∃ bytecode, compile dfa = some bytecode) ∧
      ∀ bytecode, compile dfa = some bytecode →
        (RefinesOn dfa bytecode flags url ↔ ¬dfa.LosesAction flags url) := by
  refine ⟨exists_compile_eq_some hdfa, fun bytecode hcomp => ?_⟩
  obtain ⟨rounds, hspec⟩ :=
      interpret_program_spec hurl hdfa hroot (program_of_compile hdfa hcomp) flags
  rw [visitedBy_followed hurl] at hspec
  constructor
  · rintro ⟨rounds', hrefines⟩ ⟨last, hlast, huse, htgt, action, hact, hflags, hnew⟩
    obtain ⟨actions, hacts, hmem⟩ := hspec (max rounds rounds') (Nat.le_max_left _ _)
    obtain ⟨actions', hacts', hmem'⟩ := hrefines (max rounds rounds') (Nat.le_max_right _ _)
    obtain rfl := Option.some.inj (hacts.symm.trans hacts')
    have hfollowed : (dfa.node last).followed 0 = none := if_pos ⟨rfl, huse, htgt⟩
    have hvisited := (hmem' action).mpr ⟨(dfa.node last).bestFallbackTarget, by
      rw [visited_concat, hlast, Option.bind_some, htgt]
      exact mem_concat_self, hact, hflags⟩
    rw [hmem, hlast, Option.bind_some, hfollowed] at hvisited
    obtain ⟨i, hi, hold, -⟩ := hvisited
    exact hnew i (by simpa using hi) hold
  · intro hkeeps
    refine ⟨rounds, fun fuel hfuel => ?_⟩
    obtain ⟨actions, hacts, hmem⟩ := hspec fuel hfuel
    refine ⟨actions, hacts, fun action => (hmem action).trans ?_⟩
    rw [visited_concat]
    cases hlast : dfa.reached dfa.root url with
    | none => rfl
    | some last =>
      simp only [Option.bind_some]
      by_cases hlost : (dfa.node last).canUseFallbackTransition = true ∧
          (dfa.node last).target 0 = some (dfa.node last).bestFallbackTarget
      · rw [DFANode.followed, if_pos ⟨rfl, hlost⟩, hlost.2]
        simp only [Option.toList_none, Option.toList_some, append_nil, mem_append,
          mem_singleton, or_and_right, exists_or, exists_eq_left]
        refine (or_iff_left_of_imp ?_).symm
        rintro ⟨hact, hflags⟩
        by_contra hnew
        refine hkeeps ⟨last, hlast, hlost.1, hlost.2, action, hact, hflags, fun i hi hold => ?_⟩
        exact hnew ⟨i, hi, hold, hflags⟩
      · rw [DFANode.followed, if_neg fun h => hlost h.2]

/-- An automaton that goes to an action on every character and on the end of the url. -/
def anyCharacterDFA : DFA := ⟨[⟨false, [], [⟨0, 127, 1⟩]⟩, ⟨false, [⟨false, 0, 7⟩], []⟩], 0⟩

theorem anyCharacterDFA_wellFormed : anyCharacterDFA.WellFormed :=
  DFA.wellFormed_of_nodes rfl (by decide) (by decide)

/-- The action is collected if the url has a character. -/
theorem refinesOn_compile_iff_letter :
    ∃ bytecode, compile anyCharacterDFA = some bytecode ∧
      RefinesOn anyCharacterDFA bytecode 0 [97] := by
  have hspec := refinesOn_compile_iff anyCharacterDFA_wellFormed rfl 0 [97] (by decide)
  obtain ⟨bytecode, hcomp⟩ := hspec.1 (by decide +kernel)
  refine ⟨bytecode, hcomp, (hspec.2 bytecode hcomp).mpr ?_⟩
  rintro ⟨last, hlast, huse, -⟩
  obtain rfl : 1 = last := Option.some.inj hlast
  cases huse

/-- The action is lost if the url is empty. -/
theorem not_refinesOn_anyCharacterDFA :
    ∃ bytecode, compile anyCharacterDFA = some bytecode ∧
      ¬RefinesOn anyCharacterDFA bytecode 0 [] := by
  obtain ⟨bytecode, hcomp⟩ := exists_compile_eq_some anyCharacterDFA_wellFormed (by decide +kernel)
  refine ⟨bytecode, hcomp, ?_⟩
  rintro ⟨rounds', hrefines⟩
  have hurl : ∀ c ∈ ([] : List Nat), c ≠ 0 ∧ c < 128 := by simp
  obtain ⟨rounds, hspec⟩ := interpret_program_spec hurl anyCharacterDFA_wellFormed rfl
    (program_of_compile anyCharacterDFA_wellFormed hcomp) 0
  obtain ⟨actions, hacts, hmem⟩ := hspec (max rounds rounds') (Nat.le_max_left _ _)
  obtain ⟨actions', hacts', hmem'⟩ := hrefines (max rounds rounds') (Nat.le_max_right _ _)
  obtain rfl := Option.some.inj (hacts.symm.trans hacts')
  have hlost : ¬∃ i ∈ visitedBy (fun i c => (anyCharacterDFA.node i).followed c) 0 [0],
      (⟨false, 0, 7⟩ : ActionWord) ∈ (anyCharacterDFA.node i).actions ∧
      flagsMatch 0 0 = true := by decide
  exact hlost ((hmem _).mp ((hmem' _).mpr (by decide)))

end QtWebKit.ContentExtensions
