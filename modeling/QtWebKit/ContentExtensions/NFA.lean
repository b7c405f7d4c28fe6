import QtWebKit.ContentExtensions.DFA
import QtWebKit.ContentExtensions.MutableRangeList
import QtWebKit.Lib.EpsilonGraph

/-!
# Nondeterministic automata of a content extension

A node has transitions on sorted ranges of characters to sets of nodes, silent
transitions to a set of nodes, and a set of actions. The root is node `0`.

## Implementation notes

A node under construction and the finished node are one value. Hash sets are lists
without repetitions.
-/

namespace QtWebKit.ContentExtensions

open EpsilonGraph List

structure NFANode where
  ranges : MutableRangeList (List Nat)
  epsilonTransitionTargets : List Nat
  actions : List ActionWord

def NFANode.empty : NFANode := ⟨.empty, [], []⟩

structure NFA where
  nodes : List NFANode

namespace NFA

variable (nfa : NFA)

def size : Nat := nfa.nodes.length

def node (index : Nat) : NFANode := nfa.nodes.getD index .empty

/-! ### Building nodes -/

/-- A new builder; its node is the last one. -/
def addNode : NFA := ⟨nfa.nodes ++ [.empty]⟩

def modifyNode (index : Nat) (f : NFANode → NFANode) : NFA := ⟨nfa.nodes.modify index f⟩

/-- The converter of `addTransition`. -/
def targetConverter : DataConverter (List Nat) Nat where
  convert target := [target]
  extend existingTargets target := existingTargets.insert target

def addTransition (source first last : Nat) (h : first ≤ last) (targetNodeId : Nat) : NFA :=
  nfa.modifyNode source fun node =>
    { node with ranges := node.ranges.extend (.single first last h targetNodeId) targetConverter }

def addEpsilonTransition (source targetNodeId : Nat) : NFA :=
  nfa.modifyNode source fun node =>
    { node with epsilonTransitionTargets := node.epsilonTransitionTargets.insert targetNodeId }

def setActions (index : Nat) (actions : List ActionWord) : NFA :=
  nfa.modifyNode index fun node =>
    { node with
      actions := actions.foldl (fun actions action => actions.insert action) node.actions }

/-- As many nodes, with nothing on them. -/
def cleared : NFA := ⟨nfa.nodes.map fun _ => .empty⟩

/-! ### Transitions -/

/-- The targets of a node, on a character or silently. -/
def transitions : Transitions Nat Nat
  | index, none => {target | target ∈ (nfa.node index).epsilonTransitionTargets}
  | index, some c =>
    {target | ∃ targets, (nfa.node index).ranges.dataAt c = some targets ∧ target ∈ targets}

@[simp] theorem size_addNode : nfa.addNode.size = nfa.size + 1 := by
  simp [size, addNode]

@[simp] theorem size_modifyNode (idx : Nat) (f : NFANode → NFANode) :
    (nfa.modifyNode idx f).size = nfa.size := by
  simp [size, modifyNode]

@[simp] theorem size_addTransition (src first last : Nat) (h : first ≤ last)
    (tgt : Nat) : (nfa.addTransition src first last h tgt).size = nfa.size :=
  size_modifyNode _ _ _

@[simp] theorem size_addEpsilonTransition (src tgt : Nat) :
    (nfa.addEpsilonTransition src tgt).size = nfa.size :=
  size_modifyNode _ _ _

@[simp] theorem size_setActions (idx : Nat) (acts : List ActionWord) :
    (nfa.setActions idx acts).size = nfa.size :=
  size_modifyNode _ _ _

theorem node_addNode (idx : Nat) : nfa.addNode.node idx = nfa.node idx := by
  rw [node, addNode, node, getD_eq_getElem?_getD, getD_eq_getElem?_getD]
  rcases Nat.lt_trichotomy idx nfa.nodes.length with hlt | heq | hgt
  · rw [getElem?_append_left hlt]
  · simp [heq]
  · rw [getElem?_eq_none (by simp; omega), getElem?_eq_none (by omega)]

@[simp] theorem size_cleared : nfa.cleared.size = nfa.size := by
  simp [size, cleared]

@[simp] theorem transitions_cleared : nfa.cleared.transitions = ⊥ := by
  have hn : ∀ idx, nfa.cleared.node idx = .empty := by
    intro idx
    rw [node, cleared, getD_eq_getElem?_getD, getElem?_map]
    cases nfa.nodes[idx]? <;> rfl
  ext idx label tgt
  cases label <;> simp [transitions, hn, NFANode.empty]

theorem node_modifyNode {idx} (h : idx < nfa.size) (f : NFANode → NFANode) (idx' : Nat) :
    (nfa.modifyNode idx f).node idx' =
      if idx' = idx then f (nfa.node idx') else nfa.node idx' := by
  rw [node, modifyNode, node, getD_eq_getElem?_getD, getD_eq_getElem?_getD, getElem?_modify]
  by_cases heq : idx' = idx
  · subst heq
    have hn := getElem?_eq_getElem h
    simp [hn]
  · simp [heq, Ne.symm heq]

@[simp] theorem transitions_addNode : nfa.addNode.transitions = nfa.transitions := by
  funext idx label
  cases label <;> simp only [transitions, node_addNode]

theorem transitions_setActions {idx} (h : idx < nfa.size)
    (acts : List ActionWord) : (nfa.setActions idx acts).transitions = nfa.transitions := by
  funext idx' label
  cases label <;> simp only [transitions, setActions, node_modifyNode nfa h] <;> split_ifs <;> rfl

theorem transitions_addEpsilonTransition {src} (h : src < nfa.size) (tgt : Nat) :
    (nfa.addEpsilonTransition src tgt).transitions =
      nfa.transitions ⊔ edges src {none} tgt := by
  ext idx label tgt'
  rw [mem_sup, mem_edges]
  cases label with
  | none =>
    simp only [transitions, addEpsilonTransition, node_modifyNode nfa h, Set.mem_ofPred_eq]
    by_cases heq : idx = src
    · simp [heq, mem_insert_iff, or_comm]
    · simp [heq]
  | some c =>
    simp only [transitions, addEpsilonTransition, node_modifyNode nfa h, Set.mem_ofPred_eq]
    split_ifs <;> simp

/-- The targets of a character after a range to one more target. -/
theorem dataAt_extend_single (ranges : MutableRangeList (List Nat)) {first last} (h : first ≤ last)
    (tgt c tgt' : Nat) :
    (∃ tgts, (ranges.extend (.single first last h tgt) targetConverter).dataAt c = some tgts ∧
        tgt' ∈ tgts) ↔
      (∃ tgts, ranges.dataAt c = some tgts ∧ tgt' ∈ tgts) ∨
        (first ≤ c ∧ c ≤ last) ∧ tgt' = tgt := by
  rw [MutableRangeList.dataAt_extend, MutableRangeList.dataAt_single]
  by_cases hc : first ≤ c ∧ c ≤ last
  · cases hr : ranges.dataAt c with
    | none => simp [hc, targetConverter]
    | some tgts => simp [hc, targetConverter, or_comm]
  · simp [hc]

theorem transitions_addTransition {src first last} (h : src < nfa.size)
    (hg : first ≤ last) (tgt : Nat) :
    (nfa.addTransition src first last hg tgt).transitions =
      nfa.transitions ⊔ edges src (some '' Set.Icc first last) tgt := by
  ext idx label tgt'
  rw [mem_sup, mem_edges]
  cases label with
  | none =>
    simp only [transitions, addTransition, node_modifyNode nfa h, Set.mem_ofPred_eq]
    split_ifs <;> simp
  | some c =>
    simp only [transitions, addTransition, node_modifyNode nfa h, Set.mem_ofPred_eq]
    by_cases heq : idx = src
    · simp [heq, dataAt_extend_single]
    · simp [heq]

/-! ### Well-formed automata -/

/-- What builders keep: there is a root, and the targets of silent transitions and of
ASCII characters are nodes. -/
structure WellFormed (nfa : NFA) : Prop where
  nonempty : 0 < nfa.size
  epsilon : ∀ index, ∀ target ∈ (nfa.node index).epsilonTransitionTargets, target < nfa.size
  ranges : ∀ index c targets, (nfa.node index).ranges.dataAt c = some targets →
    c < 128 ∧ targets ≠ [] ∧ ∀ target ∈ targets, target < nfa.size

namespace WellFormed

variable {nfa}

theorem addNode (h : nfa.WellFormed) : nfa.addNode.WellFormed where
  nonempty := by simp
  epsilon idx tgt ht := by
    rw [node_addNode] at ht
    rw [size_addNode]
    exact Nat.lt_succ_of_lt (h.epsilon idx tgt ht)
  ranges idx c tgts htg := by
    rw [node_addNode] at htg
    obtain ⟨hc, hne, hlt⟩ := h.ranges idx c tgts htg
    rw [size_addNode]
    exact ⟨hc, hne, fun tgt ht => Nat.lt_succ_of_lt (hlt tgt ht)⟩

theorem setActions (h : nfa.WellFormed) {idx} (hi : idx < nfa.size)
    (acts : List ActionWord) : (nfa.setActions idx acts).WellFormed where
  nonempty := by rw [size_setActions]; exact h.nonempty
  epsilon idx' tgt ht := by
    rw [NFA.setActions, node_modifyNode nfa hi] at ht
    rw [size_setActions]
    split_ifs at ht <;> exact h.epsilon idx' tgt ht
  ranges idx' c tgts htg := by
    rw [NFA.setActions, node_modifyNode nfa hi] at htg
    rw [size_setActions]
    split_ifs at htg <;> exact h.ranges idx' c tgts htg

theorem addEpsilonTransition (h : nfa.WellFormed) {src tgt} (hs : src < nfa.size)
    (ht : tgt < nfa.size) : (nfa.addEpsilonTransition src tgt).WellFormed where
  nonempty := by rw [size_addEpsilonTransition]; exact h.nonempty
  epsilon idx tgt' ht' := by
    rw [NFA.addEpsilonTransition, node_modifyNode nfa hs] at ht'
    rw [size_addEpsilonTransition]
    split_ifs at ht'
    · rcases mem_insert_iff.mp ht' with rfl | hm
      · exact ht
      · exact h.epsilon idx tgt' hm
    · exact h.epsilon idx tgt' ht'
  ranges idx c tgts htg := by
    rw [NFA.addEpsilonTransition, node_modifyNode nfa hs] at htg
    rw [size_addEpsilonTransition]
    split_ifs at htg <;> exact h.ranges idx c tgts htg

theorem addTransition (h : nfa.WellFormed) {src first last tgt} (hs : src < nfa.size)
    (hg : first ≤ last) (hlast : last < 128) (ht : tgt < nfa.size) :
    (nfa.addTransition src first last hg tgt).WellFormed where
  nonempty := by rw [size_addTransition]; exact h.nonempty
  epsilon idx tgt' ht' := by
    rw [NFA.addTransition, node_modifyNode nfa hs] at ht'
    rw [size_addTransition]
    split_ifs at ht' <;> exact h.epsilon idx tgt' ht'
  ranges idx c tgts htg := by
    rw [NFA.addTransition, node_modifyNode nfa hs] at htg
    rw [size_addTransition]
    split_ifs at htg
    · rw [MutableRangeList.dataAt_extend, MutableRangeList.dataAt_single] at htg
      have hd := h.ranges idx c
      cases hr : (nfa.node idx).ranges.dataAt c with
      | none =>
        rw [hr] at htg
        split_ifs at htg with hc
        · cases htg
          exact ⟨by omega, by simp [targetConverter], by simpa [targetConverter] using ht⟩
        · cases htg
      | some old =>
        obtain ⟨hc, hne, hlt⟩ := hd old hr
        rw [hr] at htg
        split_ifs at htg
        · cases htg
          refine ⟨hc, ne_nil_of_mem (mem_insert_self), ?_⟩
          intro tgt' ht'
          rcases mem_insert_iff.mp ht' with rfl | hm
          · exact ht
          · exact hlt tgt' hm
        · cases htg
          exact ⟨hc, hne, hlt⟩
    · exact h.ranges idx c tgts htg

end WellFormed

end NFA

end QtWebKit.ContentExtensions
