import QtWebKit.ContentExtensions.GenerateGraph
import QtWebKit.ContentExtensions.NFAToDFA

/-!
# The deterministic automaton of a term

The graph of a term from a root to a node with an action is made deterministic. What comes out
reports the action exactly for the words of the term.
-/

namespace QtWebKit.ContentExtensions

open NFAToDFA DFAConstruction

namespace Term

/-- A root and the new end that the term leads to. -/
def twoNodes : NFA := ⟨[.empty, .empty]⟩

/-- `generateGraph` with one final action, from the root. -/
def toNFA (term : Term) (action : ActionWord) : NFA :=
  (term.generateGraph twoNodes 0 1).setActions 1 [action]

variable (term : Term) (action : ActionWord)

theorem toNFA_spec : (term.toNFA action).WellFormed ∧
    (∀ word, 1 ∈ reachedNodes (term.toNFA action) word ↔ word ∈ term.language) ∧
    ∀ action' index, action' ∈ ((term.toNFA action).node index).actions ↔
      index = 1 ∧ action' = action := by
  have hnode (idx) : twoNodes.node idx = .empty := by
    rcases idx with _ | _ | idx <;> rfl
  have hbase : twoNodes.WellFormed := by
    refine ⟨by decide, ?_, ?_⟩ <;> intro idx <;> rw [hnode] <;> simp [NFANode.empty]
  obtain ⟨hwf, hsize, hkept⟩ :=
    term.keepsWellFormed_generateGraph _ 0 1 hbase (by decide) (by decide)
  have hone : 1 < (term.generateGraph twoNodes 0 1).size := lt_of_lt_of_le (by decide) hsize
  refine ⟨hwf.setActions hone _, fun word => ?_, fun action' idx => ?_⟩
  · obtain ⟨grown, added, hbuilds⟩ := builds_generateGraph term
    obtain ⟨-, -, htrs, hfrag⟩ := hbuilds twoNodes 0 1 (by decide) (by decide) (by decide)
    have hnone : twoNodes.transitions = ⊥ := twoNodes.transitions_cleared
    rw [reachedNodes, toNFA, NFA.transitions_setActions _ hone, htrs, hnone, bot_sup_eq,
      ← hfrag.words_eq]
    rfl
  · have hnone (idx) : ((term.generateGraph twoNodes 0 1).node idx).actions = [] := by
      rw [hkept, hnode]
      rfl
    rw [toNFA, NFA.setActions, NFA.node_modifyNode _ hone]
    split_ifs with h <;> simp [hnone, h]

end Term

end QtWebKit.ContentExtensions
