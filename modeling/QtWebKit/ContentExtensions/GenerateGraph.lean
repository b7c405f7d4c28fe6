import QtWebKit.ContentExtensions.NFA
import QtWebKit.ContentExtensions.Term

/-!
# Graphs of terms

A term adds transitions to an automaton that lead from a source node to a
destination node along the words of the term. Nodes between the two are new, so
that terms with a common source cannot enter each other.
-/

namespace QtWebKit.ContentExtensions

open EpsilonGraph Set
open scoped Computability

namespace Term

/-! ### Transitions of a character set -/

/-- The first character from `i` on for which a condition fails. -/
def skipWhile (condition : Nat → Bool) (i : Nat) : Nat :=
  if i < 128 ∧ condition i then skipWhile condition (i + 1) else i
  termination_by 128 - i

theorem le_skipWhile (cond : Nat → Bool) (i : Nat) : i ≤ skipWhile cond i := by
  fun_induction skipWhile cond i with
  | case1 i _ ih => exact Nat.le_of_succ_le ih
  | case2 i _ => exact Nat.le_refl i

theorem skipWhile_le (cond : Nat → Bool) {i} (h : i ≤ 128) : skipWhile cond i ≤ 128 := by
  fun_induction skipWhile cond i with
  | case1 i hi ih => exact ih hi.1
  | case2 i _ => exact h

variable {cond : Nat → Bool}

theorem of_lt_skipWhile {i c} (hi : i ≤ c) (hc : c < skipWhile cond i) : cond c = true := by
  fun_induction skipWhile cond i with
  | case1 i hcn ih =>
    rcases Nat.eq_or_lt_of_le hi with rfl | hlt
    · exact hcn.2
    · exact ih hlt hc
  | case2 i _ => omega

theorem not_skipWhile {i} (h : skipWhile cond i < 128) : cond (skipWhile cond i) = false := by
  fun_induction skipWhile cond i with
  | case1 i _ ih => exact ih h
  | case2 i hcn => simpa [h] using hcn

/-- The loop over runs of consecutive characters, each of which becomes one range. -/
def addTransitions (condition : Nat → Bool) (source destination : Nat) (nfa : NFA) (i : Nat) :
    NFA :=
  let start := skipWhile (fun c => !condition c) i
  if start < 128 then
    let i' := skipWhile condition (start + 1)
    addTransitions condition source destination
      (nfa.addTransition source start (i' - 1)
        (Nat.le_sub_one_of_lt (le_skipWhile condition (start + 1))) destination) i'
  else nfa
  termination_by 128 - i
  decreasing_by
    have hstart := le_skipWhile (fun c => !condition c) i
    have hnext := le_skipWhile condition (skipWhile (fun c => !condition c) i + 1)
    omega

@[simp] theorem size_addTransitions (cond : Nat → Bool) (src dest : Nat) (nfa : NFA)
    (i : Nat) : (addTransitions cond src dest nfa i).size = nfa.size := by
  fun_induction addTransitions cond src dest nfa i with
  | case1 nfa i start _ i' ih => rw [ih, NFA.size_addTransition]
  | case2 nfa i start _ => rfl

/-- The first run of characters, and the characters after it. -/
theorem firstRun_union {i start next}
    (hst : start = skipWhile (fun c => !cond c) i) (hlt : start < 128)
    (hnx : next = skipWhile cond (start + 1)) :
    Set.Icc start (next - 1) ∪ {c | next ≤ c ∧ c < 128 ∧ cond c = true} =
      {c | i ≤ c ∧ c < 128 ∧ cond c = true} := by
  have hil : i ≤ start := hst ▸ le_skipWhile _ i
  have hle := hnx ▸ le_skipWhile cond (start + 1)
  have hle' : next ≤ 128 := hnx ▸ skipWhile_le cond hlt
  have hgp : ∀ c, i ≤ c → c < start → cond c = false := by
    intro c hc hc'
    rw [hst] at hc'
    simpa using of_lt_skipWhile hc hc'
  have hu : ∀ c, start ≤ c → c < next → cond c = true := by
    intro c hc hc'
    rcases Nat.eq_or_lt_of_le hc with rfl | hgt
    · have hfl := not_skipWhile (hst ▸ hlt)
      simpa [← hst] using hfl
    · exact of_lt_skipWhile hgt (hnx ▸ hc')
  ext c
  constructor
  · rintro (⟨hc, hc'⟩ | ⟨hc, hc', hcn⟩)
    · exact ⟨Nat.le_trans hil hc, by omega, hu c hc (by omega)⟩
    · exact ⟨by omega, hc', hcn⟩
  · rintro ⟨hc, hc', hcn⟩
    by_cases hb : c < start
    · simp [hgp c hc hb] at hcn
    · by_cases ha : next ≤ c
      · exact .inr ⟨ha, hc', hcn⟩
      · exact .inl ⟨by omega, by omega⟩

/-- The loop adds the transitions of all characters that satisfy the condition. -/
theorem transitions_addTransitions (cond : Nat → Bool) {src} (dest : Nat) {nfa : NFA}
    (hs : src < nfa.size) (i : Nat) :
    (addTransitions cond src dest nfa i).transitions =
      nfa.transitions ⊔
        edges src (some '' {c | i ≤ c ∧ c < 128 ∧ cond c = true}) dest := by
  fun_induction addTransitions cond src dest nfa i with
  | case1 nfa i start hst i' ih =>
    rw [ih (by rwa [NFA.size_addTransition]), NFA.transitions_addTransition nfa hs, sup_assoc,
      ← edges_union, ← image_union, firstRun_union rfl hst rfl]
  | case2 nfa i start hst =>
    have hno : {c | i ≤ c ∧ c < 128 ∧ cond c = true} = ∅ := by
      apply eq_empty_of_forall_notMem
      rintro c ⟨hc, hc', hcn⟩
      have hsk := of_lt_skipWhile hc (Nat.lt_of_lt_of_le hc' (Nat.le_of_not_lt hst))
      simp [hcn] at hsk
    rw [hno, image_empty, edges_empty, sup_bot_eq]

/-! ### Generating the graph -/

/-- `generateSubgraphForAtom` for a character set. -/
def generateCharacterSet (characterSet : CharacterSet) (nfa : NFA) (source destination : Nat) :
    NFA :=
  if !characterSet.inverted then
    addTransitions characterSet.get source destination nfa 0
  else
    addTransitions (fun c => !characterSet.get c) source destination nfa 1

/-- `generateGraph` for an atom that is generated by `generateSubgraphForAtom`. -/
def generateQuantified (generateSubgraphForAtom : NFA → Nat → Nat → NFA)
    (quantifier : AtomQuantifier)
    (nfa : NFA) (source destination : Nat) : NFA :=
  match quantifier with
  | .one => generateSubgraphForAtom nfa source destination
  | .zeroOrOne =>
    (generateSubgraphForAtom nfa source destination).addEpsilonTransition source destination
  | .zeroOrMore =>
    let repeatStart := nfa.size
    let nfa := nfa.addNode.addEpsilonTransition source repeatStart
    let repeatEnd := nfa.size
    let nfa := generateSubgraphForAtom nfa.addNode repeatStart repeatEnd
    let nfa := nfa.addEpsilonTransition repeatEnd repeatStart
    let nfa := nfa.addEpsilonTransition repeatEnd destination
    nfa.addEpsilonTransition source destination
  | .oneOrMore =>
    let repeatStart := nfa.size
    let nfa := nfa.addNode.addEpsilonTransition source repeatStart
    let repeatEnd := nfa.size
    let nfa := generateSubgraphForAtom nfa.addNode repeatStart repeatEnd
    let nfa := nfa.addEpsilonTransition repeatEnd repeatStart
    nfa.addEpsilonTransition repeatEnd destination

mutual

/-- Adds a graph of the words of a term between two nodes. -/
def generateGraph : Term → NFA → Nat → Nat → NFA
  | characterSet set quantifier, nfa, source, destination =>
    generateQuantified (generateCharacterSet set) quantifier nfa source destination
  | group terms quantifier, nfa, source, destination =>
    generateQuantified (generateGroup terms) quantifier nfa source destination

/-- `generateSubgraphForAtom` for a group. -/
def generateGroup : List Term → NFA → Nat → Nat → NFA
  | [], nfa, source, destination => nfa.addEpsilonTransition source destination
  | [term], nfa, source, destination => generateGraph term nfa source destination
  | term :: next :: rest, nfa, source, destination =>
    let newEnd := nfa.size
    let nfa := (generateGraph term nfa.addNode source newEnd).setActions newEnd []
    generateGroup (next :: rest) nfa newEnd destination

end

/-! ### Added transitions -/

/-- What a generating function adds between two nodes depends on the number of
nodes only, and is a fragment over new nodes. -/
def Builds (generate : NFA → Nat → Nat → NFA) (L : Language Nat) : Prop :=
  ∃ (grown : Nat → Nat → Nat → Nat) (added : Nat → Nat → Nat → Transitions Nat Nat),
    ∀ (nfa : NFA) (source destination : Nat), source < nfa.size → destination < nfa.size →
      source ≠ destination →
        nfa.size ≤ grown nfa.size source destination ∧
        (generate nfa source destination).size = grown nfa.size source destination ∧
        (generate nfa source destination).transitions =
          nfa.transitions ⊔ added nfa.size source destination ∧
        Fragment (added nfa.size source destination)
          (Set.Ico nfa.size (grown nfa.size source destination)) source destination L

theorem builds_epsilon : Builds NFA.addEpsilonTransition 1 := by
  refine ⟨fun size _ _ => size, fun _ src dest => edges src {none} dest, ?_⟩
  intro nfa src dest hs hd hne
  refine ⟨Nat.le_refl _, NFA.size_addEpsilonTransition nfa src dest,
    NFA.transitions_addEpsilonTransition nfa hs dest, ?_⟩
  rw [Set.Ico_self, ← labelWords_none]
  exact Fragment.direct hne {none}

theorem labelWords_language (set : CharacterSet) :
    labelWords (some '' {c | set.accepts c = true}) = set.language := by
  ext word
  simp [labelWords, CharacterSet.language]

theorem transitions_generateCharacterSet (set : CharacterSet) {nfa : NFA} {src}
    (hs : src < nfa.size) (dest : Nat) :
    (generateCharacterSet set nfa src dest).transitions =
      nfa.transitions ⊔ edges src (some '' {c | set.accepts c = true}) dest := by
  rw [generateCharacterSet]
  cases hin : set.inverted with
  | false =>
    rw [if_pos (by decide), transitions_addTransitions set.get dest hs]
    simp [CharacterSet.accepts, hin]
  | true =>
    rw [if_neg (by decide), transitions_addTransitions _ dest hs]
    simp [CharacterSet.accepts, hin, Nat.succ_le_iff, and_assoc]

theorem builds_characterSet (set : CharacterSet) :
    Builds (generateCharacterSet set) set.language := by
  refine ⟨fun size _ _ => size,
    fun _ src dest => edges src (some '' {c | set.accepts c = true}) dest, ?_⟩
  intro nfa src dest hs hd hne
  refine ⟨Nat.le_refl _, ?_, transitions_generateCharacterSet set hs dest, ?_⟩
  · rw [generateCharacterSet]
    split_ifs <;> exact size_addTransitions _ _ _ _ _
  · rw [Set.Ico_self, ← labelWords_language]
    exact Fragment.direct hne _

variable {generate : NFA → Nat → Nat → NFA}

theorem builds_optional {L} (h : Builds generate L) :
    Builds (fun nfa src dest =>
      (generate nfa src dest).addEpsilonTransition src dest) (1 + L) := by
  obtain ⟨grown, added, hbl⟩ := h
  refine ⟨grown, fun size src dest => added size src dest ⊔ edges src {none} dest, ?_⟩
  intro nfa src dest hs hd hne
  obtain ⟨hle, hsz, ht, hf⟩ := hbl nfa src dest hs hd hne
  refine ⟨hle, ?_, ?_, ?_⟩
  · rw [NFA.size_addEpsilonTransition, hsz]
  · rw [NFA.transitions_addEpsilonTransition _ (by omega), ht, sup_assoc]
  · rw [add_comm, ← labelWords_none]
    exact hf.sup_edges {none}

/-- The new nodes of a repetition. -/
theorem Ico_repeat {size grown} (h : size + 2 ≤ grown) :
    Set.Ico size grown = insert size (insert (size + 1) (Set.Ico (size + 2) grown)) := by
  ext idx
  simp only [mem_Ico, mem_insert_iff]
  omega

theorem builds_oneOrMore {L} (h : Builds generate L) :
    Builds (generateQuantified generate .oneOrMore) (L * L∗) := by
  obtain ⟨grown, added, hbl⟩ := h
  refine ⟨fun size _ _ => grown (size + 2) size (size + 1), fun size src dest =>
      repeatEdges (added (size + 2) size (size + 1)) src size (size + 1) dest, ?_⟩
  intro nfa src dest hs hd hne
  have he : (nfa.addNode.addEpsilonTransition src nfa.size).size = nfa.size + 1 := by simp
  have hst : (nfa.addNode.addEpsilonTransition src nfa.size).addNode.size = nfa.size + 2 := by simp
  obtain ⟨hle, hsz, ht, hf⟩ :=
    hbl (nfa.addNode.addEpsilonTransition src nfa.size).addNode nfa.size (nfa.size + 1)
      (by omega) (by omega) (Nat.ne_of_lt (Nat.lt_succ_self _))
  rw [hst] at hle hsz ht hf
  rw [generateQuantified, he]
  dsimp only
  refine ⟨by omega, ?_, ?_, ?_⟩
  · rw [NFA.size_addEpsilonTransition, NFA.size_addEpsilonTransition, hsz]
  · rw [NFA.transitions_addEpsilonTransition _ (by rw [NFA.size_addEpsilonTransition]; omega),
      NFA.transitions_addEpsilonTransition _ (by omega), ht, NFA.transitions_addNode,
      NFA.transitions_addEpsilonTransition _ (by rw [NFA.size_addNode]; omega),
      NFA.transitions_addNode, repeatEdges]
    simp only [sup_assoc]
  · rw [Ico_repeat hle]
    apply hf.repeated _ _ hne
    · simp only [mem_insert_iff, mem_Ico]
      omega
    · simp only [mem_insert_iff, mem_Ico]
      omega

theorem builds_quantified {L} (h : Builds generate L) (qt : AtomQuantifier) :
    Builds (generateQuantified generate qt) (qt.language L) := by
  cases qt with
  | one => exact h
  | zeroOrOne => exact builds_optional h
  | zeroOrMore =>
    have ho := builds_optional (builds_oneOrMore h)
    rwa [Language.one_add_self_mul_kstar_eq_kstar] at ho
  | oneOrMore => exact builds_oneOrMore h

/-- The new nodes of a sequence. -/
theorem Ico_sequence {size middle grown} (h : size + 1 ≤ middle) (h' : middle ≤ grown) :
    Set.Ico size grown = insert size (Set.Ico (size + 1) middle ∪ Set.Ico middle grown) := by
  ext idx
  simp only [mem_Ico, mem_insert_iff, mem_union]
  omega

/-- A graph to a new node, and one from there. -/
theorem builds_sequence {generate' L L'} (h : Builds generate L) (h' : Builds generate' L') :
    Builds (fun nfa src dest =>
      generate' ((generate nfa.addNode src nfa.size).setActions nfa.size []) nfa.size dest)
      (L * L') := by
  obtain ⟨grown, added, hbl⟩ := h
  obtain ⟨grown', added', hbl'⟩ := h'
  refine ⟨fun size src dest => grown' (grown (size + 1) src size) size dest, fun size src dest =>
      added (size + 1) src size ⊔ added' (grown (size + 1) src size) size dest, ?_⟩
  intro nfa src dest hs hd hne
  obtain ⟨hle, hsz, ht, hf⟩ :=
    hbl nfa.addNode src nfa.size (by simp; omega) (by simp) (by omega)
  rw [NFA.size_addNode] at hle hsz ht hf
  let first := (generate nfa.addNode src nfa.size).setActions nfa.size []
  have hfs : first.size = grown (nfa.size + 1) src nfa.size := by simp [first, hsz]
  obtain ⟨hle', hsz', ht', hf'⟩ :=
    hbl' first nfa.size dest (by omega) (by omega) (by omega)
  rw [hfs] at hle' hsz' ht' hf'
  refine ⟨by dsimp only; omega, hsz', ?_, ?_⟩
  · rw [ht', NFA.transitions_setActions _ (by omega), ht, NFA.transitions_addNode, sup_assoc]
  · rw [Ico_sequence hle hle']
    apply hf.append hf' _ _ _ hne
    · rw [mem_Ico]
      omega
    · rw [mem_Ico]
      omega
    · rw [disjoint_left]
      intro idx hid hid'
      exact absurd hid.2 (Nat.not_lt_of_le hid'.1)

mutual

theorem builds_generateGraph : (term : Term) → Builds (generateGraph term) term.language
  | characterSet set qt => by
      have h := builds_quantified (builds_characterSet set) qt
      exact h
  | group ts qt => builds_quantified (builds_generateGroup ts) qt

theorem builds_generateGroup : (ts : List Term) → Builds (generateGroup ts) (patternLanguage ts)
  | [] => builds_epsilon
  | [term] => by
      rw [patternLanguage, patternLanguage, mul_one]
      exact builds_generateGraph term
  | term :: next :: rest =>
    builds_sequence (builds_generateGraph term) (builds_generateGroup (next :: rest))

end

/-! ### Well-formed automata -/

/-- The graph keeps the automaton well-formed and leaves the actions as they are. -/
def KeepsWellFormed (generate : NFA → Nat → Nat → NFA) : Prop :=
  ∀ (nfa : NFA) (source destination : Nat), nfa.WellFormed → source < nfa.size →
    destination < nfa.size →
    (generate nfa source destination).WellFormed ∧
      nfa.size ≤ (generate nfa source destination).size ∧
      ∀ index, ((generate nfa source destination).node index).actions = (nfa.node index).actions

theorem actions_modifyNode {f : NFANode → NFANode} (hf : ∀ node, (f node).actions = node.actions)
    (nfa : NFA) (i j : Nat) : ((nfa.modifyNode i f).node j).actions = (nfa.node j).actions := by
  simp only [NFA.node, NFA.modifyNode, List.getD_eq_getElem?_getD, List.getElem?_modify]
  cases nfa.nodes[j]? with
  | none => rfl
  | some node => split_ifs <;> simp [hf]

@[simp] theorem actions_addEpsilonTransition (nfa : NFA) (src tgt i : Nat) :
    ((nfa.addEpsilonTransition src tgt).node i).actions = (nfa.node i).actions :=
  actions_modifyNode (by simp) nfa src i

theorem keepsWellFormed_addTransitions (cond : Nat → Bool) (i : Nat) :
    KeepsWellFormed fun nfa src dest => addTransitions cond src dest nfa i := by
  intro nfa src dest h hs hd
  beta_reduce
  fun_induction addTransitions cond src dest nfa i with
  | case1 nfa i start hst i' ih =>
    have hle : i' ≤ 128 := skipWhile_le cond hst
    obtain ⟨hw, -, ha⟩ := ih (h.addTransition hs _ (by omega) hd) (by simpa) (by simpa)
    exact ⟨hw, by simp, fun idx => (ha idx).trans (actions_modifyNode (by simp) nfa src idx)⟩
  | case2 => exact ⟨h, le_rfl, fun _ => rfl⟩

theorem keepsWellFormed_characterSet (set : CharacterSet) :
    KeepsWellFormed (generateCharacterSet set) := by
  intro nfa src dest h hs hd
  rw [generateCharacterSet]
  split_ifs
  · exact keepsWellFormed_addTransitions _ 0 nfa src dest h hs hd
  · exact keepsWellFormed_addTransitions _ 1 nfa src dest h hs hd

variable {generate : NFA → Nat → Nat → NFA}

theorem keepsWellFormed_optional (h : KeepsWellFormed generate) :
    KeepsWellFormed fun nfa src dest =>
      (generate nfa src dest).addEpsilonTransition src dest := by
  intro nfa src dest hn hs hd
  obtain ⟨hg, hle, ha⟩ := h nfa src dest hn hs hd
  exact ⟨hg.addEpsilonTransition (by omega) (by omega), by simpa, by simpa⟩

theorem keepsWellFormed_oneOrMore (h : KeepsWellFormed generate) :
    KeepsWellFormed (generateQuantified generate .oneOrMore) := by
  intro nfa src dest hn hs hd
  obtain ⟨hg, hle, ha⟩ := h (nfa.addNode.addEpsilonTransition src nfa.size).addNode nfa.size
    (nfa.size + 1) (hn.addNode.addEpsilonTransition (by simp; omega) (by simp)).addNode
    (by simp [Nat.add_assoc]) (by simp)
  simp only [NFA.size_addNode, NFA.size_addEpsilonTransition] at hle
  simp only [generateQuantified, NFA.size_addNode, NFA.size_addEpsilonTransition]
  refine ⟨(hg.addEpsilonTransition (by omega) (by omega)).addEpsilonTransition ?_ ?_, ?_, ?_⟩
  · simp only [NFA.size_addEpsilonTransition]
    omega
  · simp only [NFA.size_addEpsilonTransition]
    omega
  · omega
  · simp [ha, NFA.node_addNode]

theorem keepsWellFormed_quantified (h : KeepsWellFormed generate)
    (qt : AtomQuantifier) : KeepsWellFormed (generateQuantified generate qt) := by
  cases qt with
  | one => exact h
  | zeroOrOne => exact keepsWellFormed_optional h
  | zeroOrMore => exact keepsWellFormed_optional (keepsWellFormed_oneOrMore h)
  | oneOrMore => exact keepsWellFormed_oneOrMore h

theorem keepsWellFormed_sequence {generate'}
    (h : KeepsWellFormed generate) (h' : KeepsWellFormed generate') :
    KeepsWellFormed fun nfa src dest =>
      generate' ((generate nfa.addNode src nfa.size).setActions nfa.size []) nfa.size dest := by
  intro nfa src dest hn hs hd
  have hsz := nfa.size_addNode
  obtain ⟨hg, hle, ha⟩ := h nfa.addNode src nfa.size hn.addNode (by omega) (by omega)
  have hwf : ((generate nfa.addNode src nfa.size).setActions nfa.size []).WellFormed :=
    hg.setActions (by omega) []
  obtain ⟨hg', hle', ha'⟩ := h' _ nfa.size dest hwf
    (by rw [NFA.size_setActions]; omega) (by rw [NFA.size_setActions]; omega)
  rw [NFA.size_setActions] at hle'
  refine ⟨hg', by dsimp only; omega, fun idx => ?_⟩
  rw [ha', NFA.setActions, actions_modifyNode (by simp), ha, NFA.node_addNode]

mutual

theorem keepsWellFormed_generateGraph : (term : Term) → KeepsWellFormed (generateGraph term)
  | characterSet set qt => keepsWellFormed_quantified (keepsWellFormed_characterSet set) qt
  | group ts qt => keepsWellFormed_quantified (keepsWellFormed_generateGroup ts) qt

theorem keepsWellFormed_generateGroup : (ts : List Term) → KeepsWellFormed (generateGroup ts)
  | [] => by
      intro nfa src dest hn hs hd
      exact ⟨hn.addEpsilonTransition hs hd,
        (nfa.size_addEpsilonTransition _ _).ge, by simp [generateGroup]⟩
  | [term] => keepsWellFormed_generateGraph term
  | term :: next :: rest =>
    keepsWellFormed_sequence (keepsWellFormed_generateGraph term)
      (keepsWellFormed_generateGroup (next :: rest))

end

/-- The transitions that `generateGraph` adds, which are those it makes where there
are none. -/
def addedTransitions (term : Term) (nfa : NFA) (source destination : Nat) : Transitions Nat Nat :=
  (term.generateGraph nfa.cleared source destination).transitions

/-- The transitions that a term adds lead from the source to the destination along
the words of the term, over new nodes only and never back to the source. -/
theorem generateGraph_exact (term : Term) (nfa : NFA) (source destination : Nat)
    (hsource : source < nfa.size) (hdestination : destination < nfa.size)
      (hne : source ≠ destination) :
    (term.generateGraph nfa source destination).transitions =
        nfa.transitions ⊔ term.addedTransitions nfa source destination ∧
      words (term.addedTransitions nfa source destination) source destination = term.language ∧
      (∀ index label, source ∉ term.addedTransitions nfa source destination index label) ∧
      ∀ index label target, target ∈ term.addedTransitions nfa source destination index label →
        (index = source ∨ nfa.size ≤ index) ∧ (target = destination ∨ nfa.size ≤ target) := by
  obtain ⟨grown, added, hbuilds⟩ := builds_generateGraph term
  obtain ⟨_, _, htrs, hfrag⟩ := hbuilds nfa source destination hsource hdestination hne
  obtain ⟨_, _, hclr, _⟩ := hbuilds nfa.cleared source destination (by simpa using hsource)
    (by simpa using hdestination) hne
  have hadded : term.addedTransitions nfa source destination =
      added nfa.size source destination := by
    rw [addedTransitions, hclr, NFA.transitions_cleared, NFA.size_cleared, bot_sup_eq]
  rw [hadded]
  refine ⟨htrs, hfrag.words_eq, hfrag.notMem_source, ?_⟩
  intro index label target hmem
  exact ⟨(hfrag.leaves hmem).imp_right And.left, (hfrag.enters hmem).imp_right And.left⟩

theorem generateGraph_exact_group :
    words ((group [endOfLineAssertion, universalTransition .zeroOrMore] .oneOrMore).addedTransitions
        ⟨[.empty, .empty]⟩ 0 1) 0 1 =
      (group [endOfLineAssertion, universalTransition .zeroOrMore] .oneOrMore).language :=
  (generateGraph_exact _ ⟨[.empty, .empty]⟩ 0 1 (by decide) (by decide) (by decide)).2.1

end Term

end QtWebKit.ContentExtensions
