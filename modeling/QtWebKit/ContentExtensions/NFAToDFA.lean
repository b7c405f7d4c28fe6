import QtWebKit.ContentExtensions.NFA
import QtWebKit.ContentExtensions.DFAConstruction
import Mathlib.Data.Set.Card

/-!
# The subset construction

A node of the deterministic automaton stands for the set of nodes of the
nondeterministic one that some input leads to. Sets are closed under silent
transitions; the closure of each node is computed once.

## Implementation notes

A hash set of nodes is a list without repetitions in the order of insertion, which is
the order the code iterates over some hash table.
-/

namespace QtWebKit.ContentExtensions

open EpsilonGraph Worklist List

namespace NFAToDFA

/-- `set.add(begin, end)`. -/
def addAll (set nodes : List Nat) : List Nat :=
  nodes.foldl (fun set nodeId => set.insert nodeId) set

/-- The nodes that silent transitions lead to. Every node is processed at most once. -/
def epsilonClosureExcludingSelf (nfa : NFA) (nodeId : Nat) : List Nat :=
  match exhaust (fun a b => a == b) (fun nodeId => (nfa.node nodeId).epsilonTransitionTargets)
    nfa.size
      ⟨[nodeId], [nodeId]⟩ with
  | some search => search.found.tail
  | none => []

def extendSetWithClosure (nfa : NFA) (nodeId : Nat) (set : List Nat) : List Nat :=
  addAll set (epsilonClosureExcludingSelf nfa nodeId)

/-- `DataConverterWithEpsilonClosure`. -/
def dataConverterWithEpsilonClosure (nfa : NFA) : DataConverter (List Nat) (List Nat) where
  convert targets :=
    targets.foldl (fun result nodeId => extendSetWithClosure nfa nodeId (result.insert nodeId)) []
  extend destination targets :=
    targets.foldl (fun destination nodeId =>
      if nodeId ∈ destination then destination
      else extendSetWithClosure nfa nodeId (destination.insert nodeId)) destination

def createCombinedTransition (nfa : NFA) (sourceNodeSet : List Nat) : MutableRangeList (List Nat) :=
  sourceNodeSet.foldl (fun combinedRangeList nodeId =>
    combinedRangeList.extend (nfa.node nodeId).ranges (dataConverterWithEpsilonClosure nfa)) .empty

/-- The actions of a set of nodes. -/
def combinedActions (nfa : NFA) (nodeIdSet : List Nat) : List ActionWord :=
  nodeIdSet.foldl (fun actions nodeId =>
    (nfa.node nodeId).actions.foldl (fun actions action => actions.insert action) actions) []

/-- `UniqueNodeIdSet::operator==`. -/
def sameNodes (set set' : List Nat) : Bool :=
  set.length == set'.length && set.all fun nodeId => nodeId ∈ set'

def construction (nfa : NFA) : DFAConstruction (List Nat) where
  same := sameNodes
  combinedRanges set := (createCombinedTransition nfa set).ranges
  actions set :=
    let actions := combinedActions nfa set
    if actions.length ≤ 65535 then some actions else none

/-- The initial set of nodes. -/
def initialSet (nfa : NFA) : List Nat := extendSetWithClosure nfa 0 [0]

/-- The conversion; `fuel` bounds the number of nodes it makes. -/
def convert (fuel : Nat) (nfa : NFA) : Option DFA :=
  if nfa.nodes.isEmpty then none else (construction nfa).build fuel (initialSet nfa)

/-! ### Sets of nodes -/

def nodesOf (set : List Nat) : Set Nat := {nodeId | nodeId ∈ set}

theorem nodesOf_cons (nid : Nat) (set : List Nat) : nodesOf (nid :: set) = {nid} ∪ nodesOf set := by
  ext tgt
  simp [nodesOf]

theorem mem_addAll {set nodes nid} : nid ∈ addAll set nodes ↔ nid ∈ set ∨ nid ∈ nodes := by
  induction nodes generalizing set with
  | nil => simp [addAll]
  | cons head nodes ih =>
    rw [addAll, foldl_cons, ← addAll, ih, mem_insert_iff, mem_cons]
    tauto

theorem nodup_addAll {set : List Nat} (hse : set.Nodup) (nodes : List Nat) :
    (addAll set nodes).Nodup := by
  induction nodes generalizing set with
  | nil => exact hse
  | cons head nodes ih => exact ih hse.insert

theorem sameNodes_iff {set set' : List Nat} (hse : set.Nodup) (hse' : set'.Nodup) :
    sameNodes set set' = true ↔ nodesOf set = nodesOf set' := by
  simp only [sameNodes, Bool.and_eq_true, beq_iff_eq, all_eq_true, decide_eq_true_eq]
  constructor
  · rintro ⟨hn, hsb⟩
    have hp : set.Perm set' := (subperm_of_subset hse hsb).perm_of_length_le hn.ge
    ext nid
    exact hp.mem_iff
  · intro heq
    have hm : ∀ nid, nid ∈ set ↔ nid ∈ set' := fun nid => Set.ext_iff.mp heq nid
    exact ⟨((perm_ext_iff_of_nodup hse hse').mpr hm).length_eq, fun nid => (hm nid).mp⟩

/-! ### Closures -/

section

variable {nfa : NFA}

theorem identifies_nodes (h : nfa.WellFormed) :
    Identifies (fun a b => a == b) (fun nid => (nfa.node nid).epsilonTransitionTargets) id
      (· < nfa.size) nfa.size where
  same_iff _ _ := beq_iff_eq
  valid_successors {nid tgt} _ ht := h.epsilon nid tgt ht
  length_le {keys} hv hnd := by
    rw [map_id] at hnd
    have hsb : keys ⊆ range nfa.size := fun nid hm => mem_range.mpr (hv nid hm)
    have hle := (subperm_of_subset hnd hsb).length_le
    rwa [length_range] at hle

theorem reaches_iff_mem_closure {nid tgt} :
    Reaches (fun nid => (nfa.node nid).epsilonTransitionTargets) nid tgt ↔
      tgt ∈ (automaton nfa.transitions).εClosure {nid} := by
  constructor
  · intro hrh
    induction hrh with
    | refl => exact εNFA.εClosure.base nid rfl
    | @tail middle tgt _ hs ih => exact εNFA.εClosure.step middle tgt hs ih
  · intro hm
    induction hm with
    | base tgt ht => exact ht ▸ .refl
    | step middle tgt hs _ ih => exact ih.tail hs

/-- A node and its closure are the nodes that silent transitions lead to. -/
theorem mem_closure_iff (h : nfa.WellFormed) {nid tgt} (hni : nid < nfa.size) :
    tgt = nid ∨ tgt ∈ epsilonClosureExcludingSelf nfa nid ↔
      tgt ∈ (automaton nfa.transitions).εClosure {nid} := by
  have hst : Explored (fun nid => (nfa.node nid).epsilonTransitionTargets) id (· < nfa.size) nid
      ⟨[nid], [nid]⟩ := explored_root hni
  obtain ⟨srch, hex, hnl, hep⟩ := hst.exhaust (identifies_nodes h)
    (show nfa.size - 1 + 1 ≤ nfa.size by omega)
  rw [epsilonClosureExcludingSelf, hex, ← reaches_iff_mem_closure, ← hep.mem_found_iff hnl]
  obtain ⟨rest, hr⟩ := hep.root_prefix
  dsimp only
  rw [← hr, singleton_append, tail_cons, mem_cons]

theorem nodesOf_extendSetWithClosure (h : nfa.WellFormed) {nid} (hni : nid < nfa.size)
    (set : List Nat) :
    nodesOf (extendSetWithClosure nfa nid (set.insert nid)) =
      nodesOf set ∪ (automaton nfa.transitions).εClosure {nid} := by
  ext tgt
  rw [Set.mem_union, ← mem_closure_iff h hni]
  simp only [nodesOf, extendSetWithClosure, Set.mem_ofPred_eq, mem_addAll, mem_insert_iff]
  tauto

/-- Joining the closures of targets one after another to a closed set. -/
theorem nodesOf_foldl {f} {tgts : List Nat} (htg : ∀ tgt ∈ tgts, tgt < nfa.size)
    (hf : ∀ set nid, nid < nfa.size → set.Nodup →
      (automaton nfa.transitions).εClosure (nodesOf set) = nodesOf set →
        (f set nid).Nodup ∧ nodesOf (f set nid) = nodesOf set ∪ (automaton nfa.transitions).εClosure
          {nid})
    {set : List Nat} (hse : set.Nodup)
    (hcl : (automaton nfa.transitions).εClosure (nodesOf set) = nodesOf set) :
    (tgts.foldl f set).Nodup ∧
      nodesOf (tgts.foldl f set) = nodesOf set ∪ (automaton nfa.transitions).εClosure
        (nodesOf tgts) := by
  induction tgts generalizing set with
  | nil => simpa [nodesOf] using hse
  | cons tgt tgts ih =>
    rw [forall_mem_cons] at htg
    obtain ⟨hnd, hns⟩ := hf set tgt htg.1 hse hcl
    have hcl' : (automaton nfa.transitions).εClosure (nodesOf (f set tgt)) =
        nodesOf (f set tgt) := by
      rw [hns, closure_union, closure_closure, hcl]
    obtain ⟨hrs, hun⟩ := ih htg.2 hnd hcl'
    refine ⟨hrs, ?_⟩
    rw [foldl_cons, hun, hns, nodesOf_cons, closure_union, Set.union_assoc]

theorem convert_spec (h : nfa.WellFormed) {tgts} (htg : ∀ tgt ∈ tgts, tgt < nfa.size) :
    ((dataConverterWithEpsilonClosure nfa).convert tgts).Nodup ∧
      nodesOf ((dataConverterWithEpsilonClosure nfa).convert tgts) =
        (automaton nfa.transitions).εClosure (nodesOf tgts) := by
  have he : nodesOf [] = ∅ := by simp [nodesOf]
  have hfl := nodesOf_foldl htg
    (f := fun res nid => extendSetWithClosure nfa nid (res.insert nid))
    (fun set nid hni hse _ =>
      ⟨nodup_addAll hse.insert _, nodesOf_extendSetWithClosure h hni set⟩)
    nodup_nil (by rw [he, εNFA.εClosure_empty])
  rwa [he, Set.empty_union] at hfl

theorem extend_spec (h : nfa.WellFormed) {dest tgts : List Nat}
    (htg : ∀ tgt ∈ tgts, tgt < nfa.size) (hd : dest.Nodup)
    (hcl : (automaton nfa.transitions).εClosure (nodesOf dest) = nodesOf dest) :
    ((dataConverterWithEpsilonClosure nfa).extend dest tgts).Nodup ∧
      nodesOf ((dataConverterWithEpsilonClosure nfa).extend dest tgts) =
        nodesOf dest ∪ (automaton nfa.transitions).εClosure (nodesOf tgts) := by
  refine nodesOf_foldl htg ?_ hd hcl
  intro set nid hni hse hse'
  by_cases hm : nid ∈ set
  · rw [if_pos hm, Set.union_eq_self_of_subset_right (closure_subset_of_mem _ hse' hm)]
    exact ⟨hse, rfl⟩
  · rw [if_neg hm]
    exact ⟨nodup_addAll hse.insert _, nodesOf_extendSetWithClosure h hni set⟩

end

/-! ### Combined transitions -/

section

variable {nfa : NFA}

/-- A list of ranges with the sets of nodes that some nodes lead to. -/
structure Gathers (nfa : NFA) (S : Set Nat) (list : MutableRangeList (List Nat)) : Prop where
  none {c : Nat} : list.dataAt c = none → (automaton nfa.transitions).stepSet S c = ∅
  some {c : Nat} {set : List Nat} : list.dataAt c = some set →
    c < 128 ∧ set.Nodup ∧ set ≠ [] ∧ nodesOf set = (automaton nfa.transitions).stepSet S c

theorem transitions_eq_nodesOf {nid c tgts} (hdt : (nfa.node nid).ranges.dataAt c = some tgts) :
    nfa.transitions nid (some c) = nodesOf tgts := by
  ext tgt
  simp [NFA.transitions, hdt, nodesOf]

theorem transitions_eq_empty {nid c} (hdt : (nfa.node nid).ranges.dataAt c = none) :
    nfa.transitions nid (some c) = ∅ := by
  ext tgt
  simp [NFA.transitions, hdt]

theorem ne_nil_of_nodesOf_eq {set S} (hse : nodesOf set = S) {nid} (hm : nid ∈ S) : set ≠ [] := by
  rw [← hse] at hm
  exact ne_nil_of_mem hm

theorem gathers_extend (h : nfa.WellFormed) {S} {list : MutableRangeList (List Nat)}
    (hls : Gathers nfa S list) (nid : Nat) :
    Gathers nfa (S ∪ {nid})
      (list.extend (nfa.node nid).ranges (dataConverterWithEpsilonClosure nfa)) := by
  refine ⟨?_, ?_⟩
  · intro c hdt
    rw [MutableRangeList.dataAt_extend] at hdt
    rw [stepSet_union, stepSet_singleton]
    cases hmn : list.dataAt c with
    | none =>
      cases hno : (nfa.node nid).ranges.dataAt c with
      | none => rw [hls.none hmn, transitions_eq_empty hno, εNFA.εClosure_empty, Set.empty_union]
      | some tgts => simp [hmn, hno] at hdt
    | some set => cases hno : (nfa.node nid).ranges.dataAt c <;> simp [hmn, hno] at hdt
  · intro c set hdt
    rw [MutableRangeList.dataAt_extend] at hdt
    rw [stepSet_union, stepSet_singleton]
    cases hno : (nfa.node nid).ranges.dataAt c with
    | none =>
      rw [hno, DataConverter.merge_none] at hdt
      rw [transitions_eq_empty hno, εNFA.εClosure_empty, Set.union_empty]
      exact hls.some hdt
    | some tgts =>
      obtain ⟨hc, hne, htg⟩ := h.ranges nid c tgts hno
      obtain ⟨tgt, ht⟩ := exists_mem_of_ne_nil tgts hne
      have hcs : tgt ∈ (automaton nfa.transitions).εClosure (nodesOf tgts) :=
        εNFA.εClosure.base tgt ht
      rw [transitions_eq_nodesOf hno]
      cases hmn : list.dataAt c with
      | none =>
        rw [hmn, hno, DataConverter.merge_none_some, Option.some.injEq] at hdt
        subst hdt
        obtain ⟨hnd, hns⟩ := convert_spec h htg
        rw [hls.none hmn, Set.empty_union]
        exact ⟨hc, hnd, ne_nil_of_nodesOf_eq hns hcs, hns⟩
      | some mine =>
        rw [hmn, hno, DataConverter.merge_some_some, Option.some.injEq] at hdt
        subst hdt
        obtain ⟨_, hmp, _, hmd⟩ := hls.some hmn
        obtain ⟨hnd, hns⟩ := extend_spec h htg hmp (by rw [hmd, closure_stepSet])
        rw [hmd] at hns
        exact ⟨hc, hnd, ne_nil_of_nodesOf_eq hns (.inr hcs), hns⟩

theorem gathers_createCombinedTransition (h : nfa.WellFormed) (set : List Nat) :
    Gathers nfa (nodesOf set) (createCombinedTransition nfa set) := by
  have hfl : ∀ (nodes : List Nat) (S : Set Nat) (list : MutableRangeList (List Nat)),
      Gathers nfa S list →
      Gathers nfa (S ∪ nodesOf nodes) (nodes.foldl (fun combinedRangeList nid =>
        combinedRangeList.extend (nfa.node nid).ranges (dataConverterWithEpsilonClosure nfa))
          list) := by
    intro nodes
    induction nodes with
    | nil =>
      intro S list hls
      simpa [nodesOf] using hls
    | cons nid nodes ih =>
      intro S list hls
      rw [foldl_cons, nodesOf_cons, ← Set.union_assoc]
      exact ih _ _ (gathers_extend h hls nid)
  have he : Gathers nfa ∅ .empty := by
    refine ⟨fun _ => εNFA.stepSet_empty _, fun hdt => ?_⟩
    cases hdt
  have hse := hfl set ∅ .empty he
  rwa [Set.empty_union] at hse

/-- Only nodes are reached. -/
theorem lt_of_mem_closure (h : nfa.WellFormed) {S} (hS : ∀ nid ∈ S, nid < nfa.size)
    {nid} (hm : nid ∈ (automaton nfa.transitions).εClosure S) : nid < nfa.size := by
  induction hm with
  | base nid hm => exact hS nid hm
  | step src nid hs _ _ => exact h.epsilon src nid hs

theorem lt_of_mem_stepSet (h : nfa.WellFormed) {S c nid}
    (hm : nid ∈ (automaton nfa.transitions).stepSet S c) : nid < nfa.size := by
  obtain ⟨src, _, hm⟩ := εNFA.mem_stepSet_iff.mp hm
  refine lt_of_mem_closure h ?_ hm
  rintro tgt ⟨tgts, hdt, ht⟩
  exact (h.ranges src c tgts hdt).2.2 tgt ht

end

/-! ### The machine of node sets -/

section

variable {nfa : NFA}

open scoped Classical in
/-- The set of nodes that a set leads to, if there are any. -/
noncomputable def nextSet (nfa : NFA) (S : Set Nat) (c : Nat) : Option (Set Nat) :=
  if ((automaton nfa.transitions).stepSet S c).Nonempty then some
    ((automaton nfa.transitions).stepSet S c)
  else none

/-- The nodes that an input leads to. -/
def reachedNodes (nfa : NFA) (word : List Nat) : Set Nat :=
  (automaton nfa.transitions).evalFrom {0} word

structure ValidSet (nfa : NFA) (set : List Nat) : Prop where
  nodup : set.Nodup
  ne_nil : set ≠ []
  lt : ∀ nodeId ∈ set, nodeId < nfa.size

theorem ValidSet.next (h : nfa.WellFormed) {set next c}
    (hdt : (createCombinedTransition nfa set).dataAt c = some next) : ValidSet nfa next := by
  obtain ⟨_, hnd, hne, hns⟩ := (gathers_createCombinedTransition h set).some hdt
  refine ⟨hnd, hne, fun nid hm => ?_⟩
  have hs : nid ∈ nodesOf next := hm
  rw [hns] at hs
  exact lt_of_mem_stepSet h hs

/-- There are at most as many sets of nodes as subsets. -/
theorem length_le_pow {sets : List (List Nat)} (hv : ∀ set ∈ sets, ValidSet nfa set)
    (hnd : (sets.map nodesOf).Nodup) : sets.length ≤ 2 ^ nfa.size := by
  have hfn : (sets.map toFinset).Nodup := by
    have hcm : (fun finset : Finset Nat => {nid | nid ∈ finset}) ∘ toFinset = nodesOf := by
      funext set
      ext nid
      simp [nodesOf]
    apply List.Nodup.of_map fun finset : Finset Nat => {nid | nid ∈ finset}
    rwa [map_map, hcm]
  have hsb : (sets.map toFinset).toFinset ⊆ (Finset.range nfa.size).powerset := by
    intro finset hfs
    obtain ⟨set, hse, rfl⟩ := mem_map.mp (mem_toFinset.mp hfs)
    rw [Finset.mem_powerset]
    intro nid hm
    exact Finset.mem_range.mpr ((hv set hse).lt nid (mem_toFinset.mp hm))
  calc
    sets.length = (sets.map toFinset).toFinset.card := by
      rw [toFinset_card_of_nodup hfn, length_map]
    _ ≤ (Finset.range nfa.size).powerset.card := Finset.card_le_card hsb
    _ = 2 ^ nfa.size := by rw [Finset.card_powerset, Finset.card_range]

theorem stands_construction (h : nfa.WellFormed) :
    (construction nfa).Stands nodesOf (nextSet nfa) (ValidSet nfa) (2 ^ nfa.size) where
  same_iff hse hse' := sameNodes_iff hse.nodup hse'.nodup
  valid_successors {set next} _ hnx := by
    obtain ⟨range, hg, rfl⟩ := mem_map.mp hnx
    have hsr := (createCombinedTransition nfa set).sorted
    exact ValidSet.next h (hsr.dataAt_of_mem hg (Nat.le_refl _) (hsr.first_le hg))
  length_le := length_le_pow
  sorted {set} _ := (createCombinedTransition nfa set).sorted
  ascii {set} _ range hg := by
    have hsr := (createCombinedTransition nfa set).sorted
    have hdt := hsr.dataAt_of_mem hg (hsr.first_le hg) (Nat.le_refl _)
    exact ((gathers_createCombinedTransition h set).some hdt).1
  next_eq {set} _ c := by
    have hgt := gathers_createCombinedTransition h set
    change ((createCombinedTransition nfa set).dataAt c).map nodesOf = _
    rw [nextSet]
    cases hdt : (createCombinedTransition nfa set).dataAt c with
    | none => simp [hgt.none hdt]
    | some next =>
      obtain ⟨_, _, hne, hns⟩ := hgt.some hdt
      obtain ⟨nid, hm⟩ := exists_mem_of_ne_nil next hne
      rw [← hns, if_pos ⟨nid, hm⟩, Option.map_some]

open scoped Classical in
theorem foldlM_nextSet (word : List Nat) :
    word.foldlM (nextSet nfa) ((automaton nfa.transitions).εClosure {0}) =
      if (reachedNodes nfa word).Nonempty then some (reachedNodes nfa word) else none := by
  induction word using reverseRecOn with
  | nil =>
    have hrt : 0 ∈ reachedNodes nfa [] := εNFA.εClosure.base 0 rfl
    rw [if_pos ⟨0, hrt⟩]
    rfl
  | append_singleton word c ih =>
    have hs : reachedNodes nfa (word ++ [c]) = (automaton nfa.transitions).stepSet
        (reachedNodes nfa word) c :=
      εNFA.evalFrom_append_singleton _ _ _ _
    rw [foldlM_append, ih, hs]
    by_cases hnm : (reachedNodes nfa word).Nonempty
    · rw [if_pos hnm]
      simp [nextSet]
    · rw [if_neg hnm, Set.not_nonempty_iff_eq_empty.mp hnm, εNFA.stepSet_empty]
      simp

end

/-! ### Actions -/

section

variable {nfa : NFA}

/-- The actions of some nodes. -/
def actionsOf (nfa : NFA) (S : Set Nat) : Set ActionWord :=
  {action | ∃ nodeId ∈ S, action ∈ (nfa.node nodeId).actions}

theorem mem_foldl_insert {acts acts' : List ActionWord} {act} :
    act ∈ acts'.foldl (fun acts act => acts.insert act) acts ↔
      act ∈ acts ∨ act ∈ acts' := by
  induction acts' generalizing acts with
  | nil => simp
  | cons head acts' ih =>
    rw [foldl_cons, ih, mem_insert_iff, mem_cons]
    tauto

theorem nodup_foldl_insert {acts : List ActionWord} (ha : acts.Nodup)
    (acts' : List ActionWord) : (acts'.foldl (fun acts act => acts.insert act) acts).Nodup := by
  induction acts' generalizing acts with
  | nil => exact ha
  | cons head acts' ih => exact ih ha.insert

theorem combinedActions_spec (nfa : NFA) (set : List Nat) :
    (combinedActions nfa set).Nodup ∧
      {act | act ∈ combinedActions nfa set} = actionsOf nfa (nodesOf set) := by
  have hfl : ∀ (nodes : List Nat) (acts : List ActionWord), acts.Nodup →
      (nodes.foldl (fun acts nid =>
        (nfa.node nid).actions.foldl (fun acts act => acts.insert act) acts) acts).Nodup ∧
      ∀ act, act ∈ nodes.foldl (fun acts nid =>
        (nfa.node nid).actions.foldl (fun acts act => acts.insert act) acts) acts ↔
          act ∈ acts ∨ ∃ nid ∈ nodes, act ∈ (nfa.node nid).actions := by
    intro nodes
    induction nodes with
    | nil =>
      intro acts ha
      exact ⟨ha, by simp⟩
    | cons nid nodes ih =>
      intro acts ha
      obtain ⟨hnd, hm⟩ := ih _ (nodup_foldl_insert ha (nfa.node nid).actions)
      refine ⟨hnd, fun act => ?_⟩
      rw [foldl_cons, hm, mem_foldl_insert, or_assoc]
      simp
  obtain ⟨hnd, hm⟩ := hfl set [] nodup_nil
  refine ⟨hnd, ?_⟩
  ext act
  rw [Set.mem_ofPred_eq, combinedActions, hm]
  simp [actionsOf, nodesOf]

/-- The number of actions that are stored with a node. -/
theorem length_combinedActions (nfa : NFA) (set : List Nat) :
    (combinedActions nfa set).length = (actionsOf nfa (nodesOf set)).ncard := by
  obtain ⟨hnd, hm⟩ := combinedActions_spec nfa set
  have hco : {act | act ∈ combinedActions nfa set} =
      ((combinedActions nfa set).toFinset : Set ActionWord) := by
    ext act
    simp
  rw [← hm, hco, Set.ncard_coe_finset, toFinset_card_of_nodup hnd]

/-- No more actions than are stored with all nodes. -/
theorem ncard_actionsOf_le (nfa : NFA) (S : Set Nat) :
    (actionsOf nfa S).ncard ≤ (nfa.nodes.flatMap NFANode.actions).length := by
  have hsb : actionsOf nfa S ⊆ ((nfa.nodes.flatMap NFANode.actions).toFinset : Set ActionWord) := by
    rintro act ⟨nid, _, hat⟩
    rw [NFA.node, getD_eq_getElem?_getD] at hat
    cases hno : nfa.nodes[nid]? with
    | none => simp [hno, NFANode.empty] at hat
    | some node =>
      rw [hno, Option.getD_some] at hat
      rw [coe_toFinset, Set.mem_ofPred_eq, mem_flatMap]
      exact ⟨node, mem_of_getElem? hno, hat⟩
  calc
    (actionsOf nfa S).ncard ≤
      ((nfa.nodes.flatMap NFANode.actions).toFinset : Set ActionWord).ncard :=
      Set.ncard_le_ncard hsb (Finset.finite_toSet _)
    _ = (nfa.nodes.flatMap NFANode.actions).toFinset.card := Set.ncard_coe_finset _
    _ ≤ (nfa.nodes.flatMap NFANode.actions).length := toFinset_card_le _

end

/-! ### The conversion -/

section

variable {nfa : NFA}

theorem nodesOf_initialSet (h : nfa.WellFormed) :
    nodesOf (initialSet nfa) = (automaton nfa.transitions).εClosure {0} := by
  ext nid
  rw [← mem_closure_iff h h.nonempty]
  simp [nodesOf, initialSet, extendSetWithClosure, mem_addAll]

theorem validSet_initialSet (h : nfa.WellFormed) : ValidSet nfa (initialSet nfa) where
  nodup := nodup_addAll (nodup_singleton 0) _
  ne_nil := ne_nil_of_mem (mem_addAll.mpr (.inl (mem_singleton_self 0)))
  lt nid hm := by
    have hcs : nid ∈ nodesOf (initialSet nfa) := hm
    rw [nodesOf_initialSet h] at hcs
    exact lt_of_mem_closure h (fun nid hz => Set.mem_singleton_iff.mp hz ▸ h.nonempty) hcs

/-- The sets of nodes that the machine reaches. -/
theorem eq_reachedNodes (h : nfa.WellFormed) {word : List Nat} {S}
    (hu : word.foldlM (nextSet nfa) (nodesOf (initialSet nfa)) = some S) :
      reachedNodes nfa word = S := by
  rw [nodesOf_initialSet h, foldlM_nextSet, Option.ite_none_right_eq_some] at hu
  exact Option.some.inj hu.2

theorem isSome_actions (h : nfa.WellFormed) (ha : ∀ word : List Nat, (∀ c ∈ word, c < 128) →
      (actionsOf nfa (reachedNodes nfa word)).ncard ≤ 65535)
    (set : List Nat) (hse : Reaches (construction nfa).successors (initialSet nfa) set) :
    ((construction nfa).actions set).isSome := by
  obtain ⟨word, hwd, hu⟩ :=
      DFAConstruction.exists_word (stands_construction h) (validSet_initialSet h) hse
  have hn := ha word hwd
  rw [eq_reachedNodes h hu, ← length_combinedActions] at hn
  simp [construction, hn]

open DFAConstruction in
/-- What a node that an input leads to stands for. -/
theorem label_eq (h : nfa.WellFormed) {dfa : DFA} {keys}
    (hb : Built (construction nfa) nodesOf (nextSet nfa) (ValidSet nfa) (initialSet nfa) dfa keys)
    {word idx} (hrc : dfa.reached dfa.root word = some idx) :
    Built.label nodesOf keys idx = some (reachedNodes nfa word) := by
  have hl := hb.reached_label (stands_construction h) word hb.root_eq
  rw [hrc, Option.map_some, eq_comm, Option.map_eq_some_iff] at hl
  obtain ⟨S, hu, hl⟩ := hl
  rw [← hl, eq_reachedNodes h hu]

end

/-- Two nodes in a cycle of silent transitions; the letter `a` leads from the first to
the second, which has an action. -/
def cycleNFA : NFA :=
  ((((⟨[.empty]⟩ : NFA).addNode.addTransition 0 97 97 (Nat.le_refl 97) 1).addEpsilonTransition 0 1)
    |>.addEpsilonTransition 1 0).setActions 1 [⟨false, 0, 0⟩]

theorem wellFormed_singleton : (⟨[.empty]⟩ : NFA).WellFormed := by
  have hno : ∀ idx, (⟨[.empty]⟩ : NFA).node idx = .empty := by
    intro idx
    cases idx <;> rfl
  refine ⟨by decide, fun idx tgt ht => ?_, fun idx c tgts htg => ?_⟩
  · rw [hno] at ht
    cases ht
  · rw [hno] at htg
    cases htg

theorem wellFormed_cycleNFA : cycleNFA.WellFormed := by
  rw [cycleNFA]
  refine (((wellFormed_singleton.addNode.addTransition ?_ _ ?_ ?_).addEpsilonTransition
    ?_ ?_).addEpsilonTransition ?_ ?_).setActions ?_ _
  all_goals decide +kernel

/-- The release assertion on the number of actions stops the conversion at the root. -/
theorem convert_eq_none {nfa : NFA} {acts : List ActionWord} (hnd : acts.Nodup)
    (hsb : acts ⊆ (nfa.node 0).actions) (hl : 65535 < acts.length) (fuel : Nat) :
    convert fuel nfa = none := by
  have hm : 0 ∈ nodesOf (initialSet nfa) := mem_addAll.mpr (.inl (mem_singleton_self 0))
  have hsb' : acts ⊆ combinedActions nfa (initialSet nfa) := by
    intro act ha
    have hat : act ∈ actionsOf nfa (nodesOf (initialSet nfa)) := ⟨0, hm, hsb ha⟩
    rwa [← (combinedActions_spec nfa (initialSet nfa)).2] at hat
  have hle := (hnd.subperm hsb').length_le
  have hno : (construction nfa).actions (initialSet nfa) = none :=
    if_neg (Nat.not_le.mpr (hl.trans_le hle))
  rw [convert]
  split_ifs
  · rfl
  · simp [DFAConstruction.build, DFAConstruction.getOrCreateNode, hno]

theorem subset_actions_setActions {nfa : NFA} {idx} (h : idx < nfa.size)
    (acts : List ActionWord) : acts ⊆ ((nfa.setActions idx acts).node idx).actions := by
  rw [NFA.setActions, NFA.node_modifyNode nfa h, if_pos rfl]
  intro act ha
  exact mem_foldl_insert.mpr (.inr ha)

/-- More actions than a node can store. -/
def crowdedActions : List ActionWord :=
  (range 65536).map fun location => ⟨false, 0, UInt32.ofNat location⟩

/-- A single node with these actions. -/
def crowdedNFA : NFA := (⟨[.empty]⟩ : NFA).setActions 0 crowdedActions

theorem nodup_crowdedActions : crowdedActions.Nodup := by
  refine nodup_range.map_on fun loc hl loc' hl' heq => ?_
  rw [mem_range] at hl hl'
  have hmod := congrArg UInt32.toNat (ActionWord.mk.inj heq).2.2
  rwa [UInt32.toNat_ofNat', UInt32.toNat_ofNat', Nat.mod_eq_of_lt (by omega),
    Nat.mod_eq_of_lt (by omega)] at hmod

end NFAToDFA

end QtWebKit.ContentExtensions
