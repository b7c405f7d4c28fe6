import QtWebKit.ContentExtensions.DFA
import QtWebKit.ContentExtensions.MutableRangeList
import QtWebKit.Lib.Worklist

/-!
# Building a deterministic automaton from a work list

`NFAToDFA::convert` and `DFAMerger::merge` share one loop: the nodes of the output
stand for keys (a set of nodes, a pair of nodes), a table finds the node of a key,
and a stack holds the nodes whose transitions are not made yet.

## Implementation notes

The table of keys is the list of keys in the order of their nodes. The length of the
transitions of a node is stored in eight bits. A failed `RELEASE_ASSERT` is `none`.
-/

namespace QtWebKit.ContentExtensions

open Worklist List Option

variable {κ ι : Type*}

/-- What the loop needs of keys: when two are the same, their ranges with the keys of
the targets, and the actions of their nodes. -/
structure DFAConstruction (κ : Type*) where
  same : κ → κ → Bool
  combinedRanges : κ → List (MutableRange κ)
  actions : κ → Option (List ActionWord)

namespace DFAConstruction

structure State (κ : Type*) where
  keys : List κ
  nodes : List DFANode
  unprocessedNodes : List (κ × Nat)

section

variable (C : DFAConstruction κ)

/-- The node of a key; a new node has to be processed. -/
def getOrCreateNode (key : κ) (s : State κ) : Option (Nat × State κ) :=
  match s.keys.findIdx? (C.same · key) with
  | some index => some (index, s)
  | none =>
    (C.actions key).map fun actions =>
      (s.nodes.length,
        { keys := s.keys ++ [key]
          nodes := s.nodes ++ [⟨false, actions, []⟩]
          unprocessedNodes := (key, s.nodes.length) :: s.unprocessedNodes })

/-- The transitions of some ranges, with the nodes of their targets. -/
def addTransitions : List (MutableRange κ) → State κ → Option (List Transition × State κ)
  | [], s => some ([], s)
  | range :: rest, s =>
    (getOrCreateNode C range.data s).bind fun node =>
      (addTransitions rest node.2).map fun result =>
        (⟨range.first, range.last, node.1⟩ :: result.1, result.2)

def setTransitions (nodes : List DFANode) (index : Nat) (transitions : List Transition) :
    List DFANode :=
  nodes.modify index fun node =>
    { node with transitions := transitions.take (transitions.length % 256) }

/-- The body of the loop. -/
def processNode (s : State κ) : Option (State κ) :=
  match s.unprocessedNodes with
  | [] => some s
  | (key, index) :: rest =>
    (addTransitions C (C.combinedRanges key) { s with unprocessedNodes := rest }).map fun result =>
      { result.2 with nodes := setTransitions result.2.nodes index result.1 }

/-- The loop, for at most `fuel` nodes. -/
def processNodes : Nat → State κ → Option (State κ)
  | 0, s => if s.unprocessedNodes.isEmpty then some s else none
  | fuel + 1, s =>
    if s.unprocessedNodes.isEmpty then some s else (processNode C s).bind (processNodes fuel)

def build (fuel : Nat) (root : κ) : Option DFA :=
  (getOrCreateNode C root ⟨[], [], []⟩).bind fun node =>
    (processNodes C fuel node.2).map fun s => ⟨s.nodes, node.1⟩

/-- The keys of the targets. -/
def successors (key : κ) : List κ := (C.combinedRanges key).map MutableRange.data

end

def State.search (s : State κ) : Search κ := ⟨s.keys, s.unprocessedNodes.map Prod.fst⟩

/-! ### Linked nodes -/

/-- A transition on the characters of a range to the node of its key. -/
def Linked (identity : κ → ι) (keys : List κ) (range : MutableRange κ) (transition : Transition) :
    Prop :=
  transition.first = range.first ∧ transition.last = range.last ∧
    ∃ key, keys[transition.target]? = some key ∧ identity key = identity range.data

/-- What holds of the nodes at any time; the transitions of the current node and of
unprocessed nodes are still to be made. -/
structure Consistent (C : DFAConstruction κ) (identity : κ → ι) (Valid : κ → Prop)
    (current : Option Nat) (s : State κ) : Prop where
  length_eq : s.nodes.length = s.keys.length
  valid : ∀ key ∈ s.keys, Valid key
  unprocessed : ∀ p ∈ s.unprocessedNodes, s.keys[p.2]? = some p.1
  node : ∀ index key, s.keys[index]? = some key →
    ∃ node, s.nodes[index]? = some node ∧ node.isKilled = false ∧
      C.actions key = some node.actions ∧
      (some index = current ∨ index ∈ s.unprocessedNodes.map Prod.snd ∨
        List.Forall₂ (Linked identity s.keys) (C.combinedRanges key) node.transitions)

variable {C : DFAConstruction κ} {identity : κ → ι} {Valid : κ → Prop} {bound : Nat}

theorem Linked.append {keys rng transition}
    (h : Linked identity keys rng transition) (new : List κ) :
    Linked identity (keys ++ new) rng transition := by
  obtain ⟨hf, hl, key, hk, hid⟩ := h
  refine ⟨hf, hl, key, ?_, hid⟩
  rw [List.getElem?_append_left (List.getElem?_eq_some_iff.mp hk).1, hk]

variable {current : Option Nat} {s : State κ}

/-- A new node keeps the nodes consistent. -/
theorem Consistent.create {key acts} (hs : Consistent C identity Valid current s) (hk : Valid key)
    (ha : C.actions key = some acts) :
    Consistent C identity Valid current
      { keys := s.keys ++ [key]
        nodes := s.nodes ++ [⟨false, acts, []⟩]
        unprocessedNodes := (key, s.nodes.length) :: s.unprocessedNodes } where
  length_eq := by simp [hs.length_eq]
  valid := by simpa [or_imp, forall_and] using ⟨hs.valid, hk⟩
  unprocessed := by
    rintro p hp
    rcases List.mem_cons.mp hp with rfl | hp
    · simp [hs.length_eq]
    · have hm := hs.unprocessed p hp
      rw [List.getElem?_append_left (List.getElem?_eq_some_iff.mp hm).1, hm]
  node := by
    intro idx key' hi
    by_cases hlt : idx < s.keys.length
    · rw [getElem?_append_left hlt] at hi
      obtain ⟨node, hnd, hkl, ha', hln⟩ := hs.node idx key' hi
      refine ⟨node, ?_, hkl, ha', hln.imp_right (Or.imp (mem_cons_of_mem _) ?_)⟩
      · rw [List.getElem?_append_left (by rw [hs.length_eq]; exact hlt), hnd]
      · exact List.Forall₂.imp fun rng transition hlk => hlk.append [key]
    · have heq : idx = s.keys.length := by
        have hbd := (List.getElem?_eq_some_iff.mp hi).1
        simp only [List.length_append, List.length_singleton] at hbd
        omega
      subst heq
      rw [getElem?_concat_length, Option.some.injEq] at hi
      subst hi
      refine ⟨⟨false, acts, []⟩, ?_, rfl, ha, .inr (.inl ?_)⟩
      · rw [← hs.length_eq, getElem?_concat_length]
      · rw [map_cons, ← hs.length_eq]
        exact mem_cons_self

/-- What making some transitions keeps and adds. -/
structure Grown (C : DFAConstruction κ) (identity : κ → ι) (Valid : κ → Prop) (current : Option Nat)
    (visited : List κ) (s s' : State κ) : Prop where
  consistent : Consistent C identity Valid current s'
  search_eq : s'.search = visited.foldl (visit C.same) s.search
  keys_prefix : s.keys <+: s'.keys

variable (h : Identifies C.same C.successors identity Valid bound)

include h in
/-- A key has a node if its actions can be stored. -/
theorem getOrCreateNode_grown {key}
    (hs : Consistent C identity Valid current s) (hk : Valid key) (ha : (C.actions key).isSome) :
    ∃ idx s', getOrCreateNode C key s = some (idx, s') ∧
      Grown C identity Valid current [key] s s' ∧
      ∃ key', s'.keys[idx]? = some key' ∧ identity key' = identity key := by
  rw [getOrCreateNode]
  cases hfn : s.keys.findIdx? (C.same · key) with
  | some idx =>
    obtain ⟨hlt, hsm, _⟩ := findIdx?_eq_some_iff_getElem.mp hfn
    have hm := getElem_mem hlt
    refine ⟨idx, s, rfl, ⟨hs, ?_, prefix_rfl⟩, s.keys[idx], getElem?_eq_getElem hlt,
      (h.same_iff (hs.valid _ hm) hk).mp hsm⟩
    have han : s.search.found.any (C.same · key) = true := any_eq_true.mpr ⟨_, hm, hsm⟩
    rw [foldl_cons, foldl_nil, visit, if_pos han]
  | none =>
    obtain ⟨acts, ha⟩ := isSome_iff_exists.mp ha
    rw [ha]
    refine ⟨_, _, rfl, ⟨hs.create hk ha, ?_, prefix_append _ _⟩, key, ?_, rfl⟩
    · have han : ¬ s.search.found.any (C.same · key) = true := by
        simpa [State.search] using findIdx?_eq_none_iff.mp hfn
      rw [foldl_cons, foldl_nil, visit, if_neg han]
      rfl
    · rw [hs.length_eq, getElem?_concat_length]

theorem Grown.trans {visited visited' s' s''} (hs : Grown C identity Valid current visited s s')
    (hs' : Grown C identity Valid current visited' s' s'') :
    Grown C identity Valid current (visited ++ visited') s s'' where
  consistent := hs'.consistent
  search_eq := by rw [foldl_append, ← hs.search_eq, hs'.search_eq]
  keys_prefix := hs.keys_prefix.trans hs'.keys_prefix

include h in
theorem addTransitions_grown (rs : List (MutableRange κ))
    (hs : Consistent C identity Valid current s)
    (hrg : ∀ rng ∈ rs, Valid rng.data ∧ (C.actions rng.data).isSome) :
    ∃ trans s', addTransitions C rs s = some (trans, s') ∧
      Grown C identity Valid current (rs.map MutableRange.data) s s' ∧
      List.Forall₂ (Linked identity s'.keys) rs trans := by
  induction rs generalizing s with
  | nil => exact ⟨[], s, rfl, ⟨hs, rfl, prefix_rfl⟩, .nil⟩
  | cons rng rs ih =>
    rw [forall_mem_cons] at hrg
    obtain ⟨idx, s', hgt, hgr, key, hk, hid⟩ :=
      getOrCreateNode_grown h hs hrg.1.1 hrg.1.2
    obtain ⟨trans, s'', had, hgr', hln⟩ := ih hgr.consistent hrg.2
    refine ⟨⟨rng.first, rng.last, idx⟩ :: trans, s'', ?_, hgr.trans hgr', .cons ?_ hln⟩
    · rw [addTransitions, hgt, bind_some, had, map_some]
    · obtain ⟨new, hw⟩ := hgr'.keys_prefix
      rw [← hw]
      exact Linked.append ⟨rfl, rfl, key, hk, hid⟩ new

/-- The keys stand for the states of a deterministic machine. -/
structure Stands (C : DFAConstruction κ) (identity : κ → ι) (next : ι → Nat → Option ι)
    (Valid : κ → Prop) (bound : Nat) : Prop
    extends Identifies C.same C.successors identity Valid bound where
  sorted {key : κ} : Valid key → MutableRange.SortedFrom 0 (C.combinedRanges key)
  ascii {key : κ} : Valid key → ∀ range ∈ C.combinedRanges key, range.last < 128
  next_eq {key : κ} : Valid key → ∀ c,
    (MutableRange.dataAt (C.combinedRanges key) c).map identity = next (identity key) c

variable {next : ι → Nat → Option ι} {root : κ} (hsn : Stands C identity next Valid bound)
  (ha : ∀ key, Reaches C.successors root key → (C.actions key).isSome)

/-- The new transitions of the current node, all of which are stored. -/
theorem Consistent.setTransitions {idx key} {trans : List Transition}
    (hs : Consistent C identity Valid (some idx) s) (hk : s.keys[idx]? = some key)
    (hln : List.Forall₂ (Linked identity s.keys) (C.combinedRanges key) trans)
    (hn : trans.length < 256) :
    Consistent C identity Valid none { s with nodes := setTransitions s.nodes idx trans } where
  length_eq := by rw [DFAConstruction.setTransitions, length_modify, hs.length_eq]
  valid := hs.valid
  unprocessed := hs.unprocessed
  node := by
    intro idx' key' hk'
    obtain ⟨node, hnd, hkl, ha, hc⟩ := hs.node idx' key' hk'
    rw [DFAConstruction.setTransitions, getElem?_modify, hnd]
    by_cases heq : idx = idx'
    · subst heq
      rw [hk, some.injEq] at hk'
      subst hk'
      refine ⟨{ node with transitions := trans }, ?_, hkl, ha, .inr (.inr hln)⟩
      simp [Nat.mod_eq_of_lt hn]
    · refine ⟨node, by simp [heq], hkl, ha, .inr (hc.resolve_left ?_)⟩
      intro hcr
      exact heq (some.inj hcr).symm

include hsn ha in
theorem processNode_consistent {key idx rest}
    (hs : Consistent C identity Valid none s)
      (hsr : Explored C.successors identity Valid root s.search)
    (hun : s.unprocessedNodes = (key, idx) :: rest) :
    ∃ s', processNode C s = some s' ∧ Consistent C identity Valid none s' ∧
      s'.search = process C.same C.successors s.search := by
  have hi := hs.unprocessed (key, idx) (hun ▸ mem_cons_self)
  have hm := mem_of_getElem? hi
  have hcr : Consistent C identity Valid (some idx) { s with unprocessedNodes := rest } := by
    refine ⟨hs.length_eq, hs.valid, fun p hp => hs.unprocessed p (hun ▸ mem_cons_of_mem _ hp),
      ?_⟩
    intro idx' key' hk'
    obtain ⟨node, hnd, hkl, hnc, hc⟩ := hs.node idx' key' hk'
    refine ⟨node, hnd, hkl, hnc, ?_⟩
    rcases hc with hno | hwt | hln
    · cases hno
    · rw [hun, map_cons, mem_cons] at hwt
      exact hwt.imp (fun heq => congrArg some heq) .inl
    · exact .inr (.inr hln)
  have hrg : ∀ rng ∈ C.combinedRanges key, Valid rng.data ∧ (C.actions rng.data).isSome := by
    intro rng hg
    have hsc : rng.data ∈ C.successors key := mem_map_of_mem hg
    exact ⟨hsn.valid_successors (hs.valid key hm) hsc,
      ha _ ((hsr.reaches key hm).tail hsc)⟩
  obtain ⟨trans, s', had, hgr, hln⟩ :=
    addTransitions_grown hsn.toIdentifies (C.combinedRanges key) hcr hrg
  have hks : s'.keys[idx]? = some key := by
    obtain ⟨new, hw⟩ := hgr.keys_prefix
    rw [← hw, List.getElem?_append_left (List.getElem?_eq_some_iff.mp hi).1]
    exact hi
  have hn : trans.length < 256 := by
    have hle := (hsn.sorted (hs.valid key hm)).length_le (hsn.ascii (hs.valid key hm))
    rw [← hln.length_eq]
    omega
  refine ⟨_, ?_, hgr.consistent.setTransitions hks hln hn, ?_⟩
  · rw [processNode, hun]
    dsimp only
    rw [had, Option.map_some]
  · have hpp : s.search.unprocessed = key :: rest.map Prod.fst := by
      rw [State.search, hun, map_cons]
    rw [process, hpp]
    exact hgr.search_eq

include hsn ha in
theorem processNodes_consistent {fuel} (hs : Consistent C identity Valid none s)
    (hsr : Explored C.successors identity Valid root s.search)
    (hfl : bound - s.search.found.length + s.search.unprocessed.length ≤ fuel) :
    ∃ s', processNodes C fuel s = some s' ∧ s'.unprocessedNodes = [] ∧
      Consistent C identity Valid none s' ∧
        Explored C.successors identity Valid root s'.search := by
  induction fuel generalizing s with
  | zero =>
    have hnl : s.unprocessedNodes = [] := by
      have hn : (s.unprocessedNodes.map Prod.fst).length ≤ 0 :=
          Nat.le_trans (Nat.le_add_left _ _) hfl
      simpa using hn
    exact ⟨s, by rw [processNodes, hnl]; rfl, hnl, hs, hsr⟩
  | succ fuel ih =>
    cases hun : s.unprocessedNodes with
    | nil => exact ⟨s, by rw [processNodes, hun]; rfl, hun, hs, hsr⟩
    | cons p rest =>
      obtain ⟨s', hpr, hs', hsr'⟩ := processNode_consistent hsn ha hs hsr hun
      have hpp : s.search.unprocessed = p.1 :: rest.map Prod.fst := by
        rw [State.search, hun, map_cons]
      obtain ⟨he, hms⟩ := hsr.process hsn.toIdentifies hpp
      rw [← hsr'] at he hms
      rw [processNodes, hun, hpr]
      exact ih hs' he (by omega)

include hsn in
/-- The machine reaches the states of reachable keys on characters of urls. -/
theorem exists_word {key} (hro : Valid root) (hrc : Reaches C.successors root key) :
    ∃ word : List Nat, (∀ c ∈ word, c < 128) ∧
      word.foldlM next (identity root) = some (identity key) := by
  have hbt : Valid key ∧
      ∃ word : List Nat, (∀ c ∈ word, c < 128) ∧
        word.foldlM next (identity root) = some (identity key) := by
    induction hrc with
    | refl => exact ⟨hro, [], by simp, rfl⟩
    | @tail key key' _ hsp ih =>
      obtain ⟨hv, word, hwd, hu⟩ := ih
      refine ⟨hsn.valid_successors hv hsp, ?_⟩
      obtain ⟨rng, hg, rfl⟩ := mem_map.mp hsp
      have hle := (hsn.sorted hv).first_le hg
      have hnx := hsn.next_eq hv rng.first
      rw [(hsn.sorted hv).dataAt_of_mem hg (Nat.le_refl _) hle, map_some] at hnx
      refine ⟨word ++ [rng.first], ?_, ?_⟩
      · have hl := hsn.ascii hv rng hg
        simpa [or_imp, forall_and] using ⟨hwd, by omega⟩
      · rw [foldlM_append, hu]
        simp [← hnx]
  exact hbt.2

/-! ### The finished automaton -/

/-- An automaton whose nodes are the reachable states of a machine, each once. -/
structure Built (C : DFAConstruction κ) (identity : κ → ι) (next : ι → Nat → Option ι) (Valid : κ →
    Prop)
    (root : κ) (dfa : DFA) (keys : List κ) : Prop where
  length_eq : dfa.nodes.length = keys.length
  nodup : (keys.map identity).Nodup
  valid : ∀ key ∈ keys, Valid key
  node : ∀ index key, keys[index]? = some key →
    (dfa.node index).isKilled = false ∧ C.actions key = some (dfa.node index).actions ∧
      List.Forall₂ (Linked identity keys) (C.combinedRanges key) (dfa.node index).transitions
  root_eq : keys[dfa.root]? = some root
  reaches : ∀ key ∈ keys, Reaches C.successors root key

theorem processNodes_mono {fuel fuel'} (hle : fuel ≤ fuel') {s'}
    (hs : processNodes C fuel s = some s') : processNodes C fuel' s = some s' := by
  induction fuel generalizing fuel' s with
  | zero =>
    rw [processNodes, ite_none_right_eq_some] at hs
    cases fuel' with
    | zero => rw [processNodes, if_pos hs.1, hs.2]
    | succ fuel' => rw [processNodes, if_pos hs.1, hs.2]
  | succ fuel ih =>
    cases fuel' with
    | zero => exact absurd hle (Nat.not_succ_le_zero fuel)
    | succ fuel' =>
      rw [processNodes] at hs ⊢
      split_ifs at hs ⊢ with hem
      · exact hs
      · obtain ⟨middle, hmd, hr⟩ := bind_eq_some_iff.mp hs
        rw [hmd]
        exact ih (Nat.le_of_succ_le_succ hle) hr

include hsn ha in
/-- The loop ends, and the automaton it made has a node for each reachable key. -/
theorem exists_built (hro : Valid root) :
    ∃ dfa keys, (∀ fuel, bound ≤ fuel → build C fuel root = some dfa) ∧
      Built C identity next Valid root dfa keys := by
  obtain ⟨acts, hrt⟩ := isSome_iff_exists.mp (ha root .refl)
  have hem : Consistent C identity Valid none (⟨[], [], []⟩ : State κ) :=
    ⟨rfl, by simp, by simp, by simp⟩
  have hst := hem.create hro hrt
  have hv : ∀ key ∈ [root], Valid key := by simpa using hro
  have hps := hsn.length_le hv (nodup_singleton _)
  obtain ⟨s, hpr, hnl, hs, hsr⟩ :=
    processNodes_consistent hsn ha hst (explored_root hro)
      (show bound - [root].length + [root].length ≤ bound from (Nat.sub_add_cancel hps).le)
  refine ⟨⟨s.nodes, 0⟩, s.keys, ?_, hs.length_eq, hsr.nodup, hs.valid, ?_, ?_, hsr.reaches⟩
  · intro fuel hfl
    rw [build, getOrCreateNode, findIdx?_nil]
    dsimp only
    rw [hrt, map_some, bind_some, processNodes_mono hfl hpr, map_some]
    rfl
  · intro idx key hk
    obtain ⟨node, hnd, hkl, hnc, hc⟩ := hs.node idx key hk
    have heq : DFA.node ⟨s.nodes, 0⟩ idx = node := by
      rw [DFA.node, getD_eq_getElem?_getD, hnd, getD_some]
    rw [heq]
    refine ⟨hkl, hnc, ?_⟩
    rcases hc with hno | hwt | hln
    · cases hno
    · rw [hnl] at hwt
      cases hwt
    · exact hln
  · obtain ⟨rest, hr⟩ := hsr.root_prefix
    have hks : s.keys = root :: rest := hr.symm
    rw [hks]
    rfl

namespace Built

variable {dfa : DFA} {keys : List κ}

/-- The machine state that a node stands for. -/
def label (identity : κ → ι) (keys : List κ) (index : Nat) : Option ι := keys[index]?.map identity

theorem target_label {rs} {node : DFANode}
    (hln : List.Forall₂ (Linked identity keys) rs node.transitions) (c : Nat) :
    (node.target c).map (label identity keys) =
      (MutableRange.dataAt rs c).map fun data => some (identity data) := by
  rw [DFANode.target]
  generalize node.transitions = trans at hln
  induction hln with
  | nil => rfl
  | @cons rng transition _ _ hlk _ ih =>
    obtain ⟨hf, hl, key, hk, hid⟩ := hlk
    have hcn : transition.contains c = rng.contains c := by
      rw [Transition.contains, MutableRange.contains, hf, hl]
    rw [find?_cons, MutableRange.dataAt, hcn]
    cases rng.contains c with
    | true => simp [label, hk, hid]
    | false => exact ih

include hsn in
theorem target_eq (hb : Built C identity next Valid root dfa keys) {idx key}
    (hk : keys[idx]? = some key) (c : Nat) :
    ((dfa.node idx).target c).map (label identity keys) = (next (identity key) c).map some := by
  rw [target_label (hb.node idx key hk).2.2,
    ← hsn.next_eq (hb.valid key (mem_of_getElem? hk)), Option.map_map]
  rfl

include hsn in
/-- Nodes and the states they stand for move together. -/
theorem reached_label (hb : Built C identity next Valid root dfa keys) (word : List Nat) {idx}
    {key} (hk : keys[idx]? = some key) :
    (dfa.reached idx word).map (label identity keys) = (word.foldlM next (identity key)).map
      some := by
  induction word generalizing idx key with
  | nil => simp [DFA.reached, reachedBy, label, hk]
  | cons c rest ih =>
    have hsp := hb.target_eq hsn hk c
    rw [DFA.reached, reachedBy, foldlM_cons]
    cases ht : (dfa.node idx).target c with
    | none =>
      rw [ht, map_none, eq_comm, map_eq_none_iff] at hsp
      rw [hsp]
      rfl
    | some tgt =>
      rw [ht, map_some, eq_comm, map_eq_some_iff] at hsp
      obtain ⟨st, hnx, hlb⟩ := hsp
      rw [label, eq_comm, map_eq_some_iff] at hlb
      obtain ⟨key', hk', rfl⟩ := hlb
      rw [hnx]
      exact ih hk'

theorem label_inj (hb : Built C identity next Valid root dfa keys) {idx idx' id}
    (hlb : label identity keys idx = some id) (hlb' : label identity keys idx' = some id) :
    idx = idx' := by
  rw [label, ← List.getElem?_map] at hlb hlb'
  exact (List.getElem?_inj (List.getElem?_eq_some_iff.mp hlb).1 hb.nodup).mp (hlb.trans hlb'.symm)

include hsn in
/-- Every node is reached. -/
theorem exists_reached (hb : Built C identity next Valid root dfa keys) {key idx}
    (hk : keys[idx]? = some key) :
    ∃ word, (∀ c ∈ word, c < 128) ∧ dfa.reached dfa.root word = some idx := by
  obtain ⟨word, hwd, hu⟩ := exists_word hsn (hb.valid root (mem_of_getElem? hb.root_eq))
    (hb.reaches key (mem_of_getElem? hk))
  refine ⟨word, hwd, ?_⟩
  have hlb := hb.reached_label hsn word hb.root_eq
  rw [hu, map_some, map_eq_some_iff] at hlb
  obtain ⟨idx', hrh, hlb⟩ := hlb
  rw [hrh, hb.label_inj hlb (by rw [label, hk, map_some])]

end Built

end DFAConstruction

end QtWebKit.ContentExtensions
