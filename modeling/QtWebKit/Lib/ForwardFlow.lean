import Mathlib

/-!
# Forward data flow

A forward analysis keeps the facts at the head of every block it has visited. A pass takes
each visited block, computes the facts at its tail and merges them into its successors, and
passes are repeated until one changes nothing.
-/

namespace QtWebKit.ForwardFlow

variable {β σ : Type*}

section

variable [DecidableEq β] (merge : σ → σ → σ × Bool) (transfer : β → σ → σ) (successors : β → List β)

/-- The facts at the tail of a block reach one of its successors. -/
def propagate (tail : σ) (flow : (β → Option σ) × Bool) (block : β) : (β → Option σ) × Bool :=
  match flow.1 block with
  | some facts =>
    (Function.update flow.1 block (some (merge facts tail).1), flow.2 || (merge facts tail).2)
  | none => (Function.update flow.1 block (some tail), true)

def visit (flow : (β → Option σ) × Bool) (block : β) : (β → Option σ) × Bool :=
  match flow.1 block with
  | some facts => (successors block).foldl (propagate merge (transfer block facts)) flow
  | none => flow

/-- The facts after one pass, and whether it changed them. -/
def pass (blocks : List β) (atHead : β → Option σ) : (β → Option σ) × Bool :=
  blocks.foldl (visit merge transfer successors) (atHead, false)

/-- Passes until one changes nothing, at most `fuel` of them. -/
def solve (blocks : List β) : Nat → (β → Option σ) → Option (β → Option σ)
  | 0, _ => none
  | fuel + 1, atHead =>
    match pass merge transfer successors blocks atHead with
    | (atHead, true) => solve blocks fuel atHead
    | (atHead, false) => some atHead

/-- No successor of a visited block would change. -/
def Stable (blocks : List β) (atHead : β → Option σ) : Prop :=
  ∀ block ∈ blocks, ∀ facts, atHead block = some facts → ∀ next ∈ successors block,
    ∃ facts', atHead next = some facts' ∧ (merge facts' (transfer block facts)).2 = false

end

/-- A merge says whether it changed the facts, and a change makes them smaller. -/
structure Shrinks (merge : σ → σ → σ × Bool) (weight : σ → Nat) : Prop where
  unchanged {facts other : σ} : (merge facts other).2 = false → (merge facts other).1 = facts
  smaller {facts other : σ} : (merge facts other).2 = true →
    weight (merge facts other).1 < weight facts

variable (weight : σ → Nat)

/-- How much can still change: anything in a block that was not visited. -/
def level (facts : Option σ) : WithTop ℕ := facts.elim ⊤ fun facts => weight facts

/-- A flow that is left as it is, or one with less to change that says so. -/
def Progress (flow flow' : (β → Option σ) × Bool) : Prop :=
  flow' = flow ∨ level weight ∘ flow'.1 < level weight ∘ flow.1 ∧ flow'.2 = true

variable {weight}

theorem Progress.trans {flow flow' flow'' : (β → Option σ) × Bool} (h : Progress weight flow flow')
    (h' : Progress weight flow' flow'') : Progress weight flow flow'' := by
  rcases h' with rfl | ⟨hlt', ht⟩
  · exact h
  · rcases h with rfl | ⟨hlt, -⟩
    · exact .inr ⟨hlt', ht⟩
    · exact .inr ⟨hlt'.trans hlt, ht⟩

theorem Progress.foldl {α : Type*} {f : (β → Option σ) × Bool → α → (β → Option σ) × Bool}
    (hf : ∀ flow x, Progress weight flow (f flow x)) (xs : List α) (flow : (β → Option σ) × Bool) :
    Progress weight flow (xs.foldl f flow) := by
  induction xs generalizing flow with
  | nil => exact .inl rfl
  | cons x xs ih => exact (hf flow x).trans (ih (f flow x))

/-- A fold that reports no change took no step that changes anything. -/
theorem eq_of_foldl_unchanged {α : Type*} {f}
    (hf : ∀ flow x, Progress weight flow (f flow x)) {xs : List α} {flow : (β → Option σ) × Bool}
    (h : (xs.foldl f flow).2 = false) {x : α} (hx : x ∈ xs) : f flow x = flow := by
  induction xs with
  | nil => exact absurd hx List.not_mem_nil
  | cons y xs ih =>
    rw [List.foldl_cons] at h
    have hy : f flow y = flow := by
      rcases hf flow y with hy | ⟨-, hy⟩
      · exact hy
      · rcases Progress.foldl hf xs (f flow y) with hr | ⟨-, hr⟩
        · exact absurd (h.symm.trans ((congrArg Prod.snd hr).trans hy)) Bool.false_ne_true
        · exact absurd (h.symm.trans hr) Bool.false_ne_true
    rcases List.mem_cons.mp hx with rfl | hx
    · exact hy
    · exact ih (hy ▸ h) hx

variable [DecidableEq β] {merge : σ → σ → σ × Bool} {transfer : β → σ → σ}
  {successors : β → List β} (h : Shrinks merge weight)

theorem progress_update {flow : (β → Option σ) × Bool} {blk facts}
    (hlt : level weight (some facts) < level weight (flow.1 blk)) :
    Progress weight flow (Function.update flow.1 blk (some facts), true) := by
  refine .inr ⟨?_, rfl⟩
  rw [Function.comp_update]
  exact update_lt_self_iff.mpr hlt

include h

theorem progress_propagate (tail : σ) (flow : (β → Option σ) × Bool) (blk : β) :
    Progress weight flow (propagate merge tail flow blk) := by
  unfold propagate
  cases hb : flow.1 blk with
  | none => exact progress_update (hb ▸ WithTop.coe_lt_top _)
  | some facts =>
    dsimp only
    cases hc : (merge facts tail).2 with
    | false =>
      rw [h.unchanged hc, ← hb, Function.update_eq_self, Bool.or_false]
      exact .inl rfl
    | true =>
      rw [Bool.or_true]
      exact progress_update (hb ▸ WithTop.coe_lt_coe.mpr (h.smaller hc))

theorem progress_visit (flow : (β → Option σ) × Bool) (blk : β) :
    Progress weight flow (visit merge transfer successors flow blk) := by
  unfold visit
  cases flow.1 blk with
  | none => exact .inl rfl
  | some facts => exact Progress.foldl (progress_propagate h _) _ flow

theorem stable_of_pass {blks} {atHead : β → Option σ}
    (hps : (pass merge transfer successors blks atHead).2 = false) :
    Stable merge transfer successors blks atHead := by
  intro blk hb facts hfc next hnx
  have hv := eq_of_foldl_unchanged (progress_visit h) hps hb
  have hfl : ((successors blk).foldl (propagate merge (transfer blk facts)) (atHead, false)).2 =
      false := by
    simp only [visit, hfc] at hv
    rw [hv]
  have hp := congrArg Prod.snd (eq_of_foldl_unchanged (progress_propagate h _) hfl hnx)
  unfold propagate at hp
  cases hfc' : atHead next with
  | none =>
    simp only [hfc'] at hp
    cases hp
  | some facts' =>
    simp only [hfc', Bool.false_or] at hp
    exact ⟨facts', rfl, hp⟩

/-- The passes end with stable facts, none larger than those at the start. -/
theorem stable_of_solve {blks : List β} {fuel : Nat} {atHead atHead' : β → Option σ}
    (hsl : solve merge transfer successors blks fuel atHead = some atHead') :
    Stable merge transfer successors blks atHead' ∧
      level weight ∘ atHead' ≤ level weight ∘ atHead := by
  induction fuel generalizing atHead with
  | zero => cases hsl
  | succ fuel ih =>
    have hpr : Progress weight _ (pass merge transfer successors blks atHead) :=
      Progress.foldl (progress_visit h) blks (atHead, false)
    rw [solve] at hsl
    rcases hpr with heq | ⟨hlt, ht⟩
    · rw [heq] at hsl
      cases hsl
      exact ⟨stable_of_pass h (congrArg Prod.snd heq), le_rfl⟩
    · rw [← Prod.mk.eta (p := pass merge transfer successors blks atHead), ht] at hsl
      obtain ⟨hs, hle⟩ := ih hsl
      exact ⟨hs, hle.trans hlt.le⟩

/-- With enough fuel the passes end. -/
theorem exists_solve [Finite β] (blks : List β) (atHead : β → Option σ) :
    ∃ fuel atHead', solve merge transfer successors blks fuel atHead = some atHead' := by
  induction hl : level weight ∘ atHead using WellFoundedLT.induction generalizing atHead with
  | ind bound ih =>
    have hpr : Progress weight _ (pass merge transfer successors blks atHead) :=
      Progress.foldl (progress_visit h) blks (atHead, false)
    rcases hpr with heq | ⟨hlt, ht⟩
    · exact ⟨1, atHead, by rw [solve, heq]⟩
    · obtain ⟨fuel, atHead', hsl⟩ := ih _ (hl ▸ hlt) _ rfl
      refine ⟨fuel + 1, atHead', ?_⟩
      rw [solve, ← Prod.mk.eta (p := pass merge transfer successors blks atHead), ht]
      exact hsl

end QtWebKit.ForwardFlow
