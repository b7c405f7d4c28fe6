import QtWebKit.ContentExtensions.Rule

/-!
# Deterministic automata of a content extension

A node has the actions of its state and transitions on sorted ranges of
characters. The character `0` stands for the end of the url.

## Implementation notes

A node holds its own actions and transitions, which the code keeps in vectors
shared by all nodes. An action word is given by its three parts; the remaining
bits of the word are never set.
-/

namespace QtWebKit.ContentExtensions

open List

def toASCIILower (c : Nat) : Nat := if 65 ≤ c ∧ c ≤ 90 then c + 32 else c

/-- The location of an action, the flags it is conditional on, and the bit of
rules with an if-domain condition. -/
structure ActionWord where
  ifDomain : Bool
  flags : ResourceFlags
  location : UInt32
  deriving DecidableEq, Repr

structure Transition where
  first : Nat
  last : Nat
  target : Nat
  deriving DecidableEq, Repr

structure DFANode where
  isKilled : Bool
  actions : List ActionWord
  transitions : List Transition
  deriving DecidableEq, Repr

structure DFA where
  nodes : List DFANode
  root : Nat
  deriving DecidableEq, Repr

def DFA.node (dfa : DFA) (index : Nat) : DFANode := dfa.nodes.getD index ⟨true, [], []⟩

namespace Transition

def contains (transition : Transition) (c : Nat) : Bool :=
  transition.first ≤ c && c ≤ transition.last

end Transition

namespace DFANode

/-! ### Fallback transitions -/

/-- The loop of `canUseFallbackTransition`. -/
def coversFrom : Nat → List Transition → Bool
  | _, [] => false
  | lastSeenCharacter, transition :: rest =>
    if transition.first ≠ lastSeenCharacter + 1 then false
    else if transition.last = 127 then true
    else coversFrom transition.last rest

def canUseFallbackTransition (node : DFANode) : Bool :=
  match node.transitions with
  | [] => false
  | transition :: rest =>
    if transition.first = 0 then
      if transition.last = 127 then true else coversFrom transition.last rest
    else coversFrom 0 (transition :: rest)

/-- `histogram.add(target, size)`, then the new value of the entry. -/
def addToHistogram (target size : Nat) : List (Nat × Nat) → List (Nat × Nat) × Nat
  | [] => ([(target, size)], size)
  | entry :: rest =>
    if entry.1 = target then ((target, entry.2 + size) :: rest, entry.2 + size)
    else
      let (rest', value) := addToHistogram target size rest
      (entry :: rest', value)

def rangeSize (transition : Transition) : Nat := transition.last - transition.first + 1

/-- The loop of `bestFallbackTarget`. -/
def bestTargetFrom (histogram : List (Nat × Nat)) (bestTarget bestTargetScore : Nat) :
    List Transition → Nat
  | [] => bestTarget
  | transition :: rest =>
    let (histogram', value) := addToHistogram transition.target (rangeSize transition) histogram
    if value > bestTargetScore then bestTargetFrom histogram' transition.target value rest
    else bestTargetFrom histogram' bestTarget bestTargetScore rest

def bestFallbackTarget (node : DFANode) : Nat :=
  let transitions :=
    match node.transitions with
    | transition :: rest =>
      if transition.first = 0 ∧ transition.last = 0 then rest else transition :: rest
    | [] => []
  match transitions with
  | [] => 0
  | transition :: rest =>
    let score := if transition.first = 0 then rangeSize transition - 1 else rangeSize transition
    bestTargetFrom [(transition.target, score)] transition.target score rest

/-! ### The automaton -/

/-- The target of a character. -/
def target (node : DFANode) (c : Nat) : Option Nat :=
  (node.transitions.find? fun transition => transition.contains c).map Transition.target

end DFANode

/-- The nodes on the path of a partial transition function. -/
def visitedBy (next : Nat → Nat → Option Nat) (index : Nat) : List Nat → List Nat
  | [] => [index]
  | c :: rest =>
    index ::
      match next index c with
      | none => []
      | some target => visitedBy next target rest

/-- The node at the end of the path, if all characters can be read. -/
def reachedBy (next : Nat → Nat → Option Nat) (index : Nat) : List Nat → Option Nat
  | [] => some index
  | c :: rest => (next index c).bind fun target => reachedBy next target rest

/-- The nodes that are visited while characters are read, as far as there are
transitions. -/
def DFA.visited (dfa : DFA) : Nat → List Nat → List Nat :=
  visitedBy fun index c => (dfa.node index).target c

def DFA.reached (dfa : DFA) : Nat → List Nat → Option Nat :=
  reachedBy fun index c => (dfa.node index).target c

section

variable {next next' : Nat → Nat → Option Nat}

/-- One more character adds the node that it leads to. -/
theorem visitedBy_concat (idx : Nat) (cs : List Nat) (c : Nat) :
    visitedBy next idx (cs ++ [c]) =
      visitedBy next idx cs ++
        ((reachedBy next idx cs).bind fun last => next last c).toList := by
  induction cs generalizing idx with
  | nil => cases h : next idx c <;> simp [visitedBy, reachedBy, h]
  | cons a rest ih =>
    rw [cons_append, visitedBy, visitedBy, reachedBy]
    cases next idx a with
    | none => rfl
    | some tgt => simp only [ih, Option.bind_some, cons_append]

theorem visitedBy_congr {cs} (h : ∀ idx, ∀ c ∈ cs, next idx c = next' idx c)
    (idx : Nat) : visitedBy next idx cs = visitedBy next' idx cs := by
  induction cs generalizing idx with
  | nil => rfl
  | cons a rest ih =>
    have hr := ih fun idx c hc => h idx c (mem_cons_of_mem _ hc)
    rw [visitedBy, visitedBy, h idx a mem_cons_self]
    simp only [hr]

theorem reachedBy_congr {cs} (h : ∀ idx, ∀ c ∈ cs, next idx c = next' idx c)
    (idx : Nat) : reachedBy next idx cs = reachedBy next' idx cs := by
  induction cs generalizing idx with
  | nil => rfl
  | cons a rest ih =>
    have hr := ih fun idx c hc => h idx c (mem_cons_of_mem _ hc)
    rw [reachedBy, reachedBy, h idx a mem_cons_self]
    simp only [hr]

end

/-- What the code relies on: a live root, sorted and disjoint ranges of ASCII
characters, and targets that are live nodes. -/
structure DFA.WellFormed (dfa : DFA) : Prop where
  root : (dfa.node dfa.root).isKilled = false
  length : dfa.nodes.length ≤ maxUnsigned
  sorted : ∀ index, (dfa.node index).transitions.Pairwise fun t t' => t.last < t'.first
  ranges : ∀ index, ∀ t ∈ (dfa.node index).transitions, t.first ≤ t.last ∧ t.last < 128
  targets : ∀ index, ∀ t ∈ (dfa.node index).transitions, (dfa.node t.target).isKilled = false

theorem DFA.lt_of_not_isKilled {dfa : DFA} {idx} (h : (dfa.node idx).isKilled = false) :
    idx < dfa.nodes.length := by
  by_contra hge
  rw [DFA.node, getD_eq_getElem?_getD, getElem?_eq_none (not_lt.mp hge)] at h
  cases h

theorem DFA.node_mem_or_eq (dfa : DFA) (idx : Nat) :
    dfa.node idx ∈ dfa.nodes ∨ dfa.node idx = ⟨true, [], []⟩ := by
  rw [DFA.node, getD_eq_getElem?_getD]
  cases h : dfa.nodes[idx]? with
  | none => exact .inr rfl
  | some node => exact .inl (mem_of_getElem? h)

/-- It is enough to check the nodes that the automaton has. -/
theorem DFA.wellFormed_of_nodes {dfa : DFA} (hrt : (dfa.node dfa.root).isKilled = false)
    (hn : dfa.nodes.length ≤ maxUnsigned)
    (hnd : ∀ node ∈ dfa.nodes, node.transitions.Pairwise (fun t t' => t.last < t'.first) ∧
      ∀ t ∈ node.transitions, (t.first ≤ t.last ∧ t.last < 128) ∧
        (dfa.node t.target).isKilled = false) : dfa.WellFormed := by
  have ha (idx) :
      (dfa.node idx).transitions.Pairwise (fun t t' => t.last < t'.first) ∧
        ∀ t ∈ (dfa.node idx).transitions, (t.first ≤ t.last ∧ t.last < 128) ∧
          (dfa.node t.target).isKilled = false := by
    rcases dfa.node_mem_or_eq idx with hm | heq
    · exact hnd _ hm
    · rw [heq]
      exact ⟨List.Pairwise.nil, fun t ht => absurd ht not_mem_nil⟩
  exact ⟨hrt, hn, fun idx => (ha idx).1, fun idx t ht => ((ha idx).2 t ht).1,
    fun idx t ht => ((ha idx).2 t ht).2⟩

end QtWebKit.ContentExtensions
