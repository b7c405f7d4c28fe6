import Mathlib.Data.List.Infix

/-!
# Runs that emit, and decoding a prefix code with replacement

A run goes from state to state and emits a list of items on the way. Decoding a
list of units is such a run over what is left to read: a code word at the front
yields its character, and a front unit that starts no code word is dropped and
replaced.

## Implementation notes

A replacement is the item `none`.
-/

namespace QtWebKit.Decoding

open List

universe u v

/-- From state to state with the items emitted on the way. -/
inductive Run {σ : Type u} {β : Type v} (step : σ → List β → σ → Prop) : σ → List β → σ → Prop
  | refl (s : σ) : Run step s [] s
  | head {s s' s'' : σ} {out out' : List β} (h : step s out s') (tail : Run step s' out' s'') :
      Run step s (out ++ out') s''

namespace Run

variable {σ : Type u} {β : Type v} {step step' : σ → List β → σ → Prop}
  {s s' s'' : σ} {out out' : List β}

theorem single (h : step s out s') : Run step s out s' := by
  have run := Run.head h (Run.refl s')
  rwa [append_nil] at run

theorem trans (run : Run step s out s') (run' : Run step s' out' s'') :
    Run step s (out ++ out') s'' := by
  induction run with
  | refl s => exact run'
  | head h tail ih =>
    rw [append_assoc]
    exact .head h (ih run')

/-- A run whose states keep an invariant follows every relation that holds of its steps. -/
theorem mono_of_invariant {I : σ → Prop} (run : Run step s out s') (hs : I s)
    (hsp : ∀ {s out s'}, I s → step s out s' → step' s out s' ∧ I s') : Run step' s out s' := by
  induction run with
  | refl s => exact .refl s
  | head h tail ih => exact .head (hsp hs h).1 (ih (hsp hs h).2)

theorem mono (run : Run step s out s') (hsp : ∀ {s out s'}, step s out s' → step' s out s') :
    Run step' s out s' :=
  run.mono_of_invariant (I := fun _ => True) trivial fun _ h => ⟨hsp h, trivial⟩

end Run

variable {α : Type u} {γ : Type v}

/-- A code in which the first code word of a list of units is determined. -/
structure PrefixCode (α : Type u) (γ : Type v) where
  encode : γ → List α
  ne_nil : ∀ c, encode c ≠ []
  unique : ∀ {c c' : γ} {rest rest' : List α},
    encode c ++ rest = encode c' ++ rest' → c = c'

namespace PrefixCode

variable (code : PrefixCode α γ)

/-- A code word is at the front of the units. -/
def Starts (units : List α) : Prop := ∃ c rest, units = code.encode c ++ rest

/-- One item of the decoding from left to right. -/
inductive Step : List α → List (Option γ) → List α → Prop
  | character (c : γ) (rest : List α) : Step (code.encode c ++ rest) [some c] rest
  | replaced {unit : α} {rest : List α} (h : ¬ code.Starts (unit :: rest)) :
      Step (unit :: rest) [none] rest

/-- The decoding from left to right of all units. -/
def Decodes (units : List α) (items : List (Option γ)) : Prop :=
  Run code.Step units items []

variable {code}

variable {units rest : List α} {items : List (Option γ)}

theorem Step.deterministic {rest' out out'}
    (h : code.Step units out rest) (h' : code.Step units out' rest') :
    out = out' ∧ rest = rest' := by
  cases h with
  | character c rest =>
    generalize hu : code.encode c ++ rest = units at h'
    cases h' with
    | character c' rest' =>
      have hc := code.unique hu
      subst hc
      exact ⟨rfl, append_cancel_left hu⟩
    | replaced hst => exact absurd ⟨c, rest, hu.symm⟩ hst
  | @replaced unit rest hst =>
    generalize hu : unit :: rest = units at h'
    cases h' with
    | character c' rest' => exact absurd ⟨c', rest', hu⟩ hst
    | replaced =>
      cases hu
      exact ⟨rfl, rfl⟩

theorem Step.shorter {out} (h : code.Step units out rest) : rest.length < units.length := by
  cases h with
  | character c rest =>
    have hpos := length_pos_iff.mpr (code.ne_nil c)
    rw [length_append]
    omega
  | replaced => exact Nat.lt_succ_self _

theorem Step.suffix {out} (h : code.Step units out rest) : rest <:+ units := by
  cases h with
  | character c rest => exact suffix_append ..
  | replaced => exact suffix_cons ..

theorem Step.source_ne_nil {out} (h : code.Step units out rest) : units ≠ [] := by
  intro hn
  have hlt := h.shorter
  rw [hn] at hlt
  exact absurd hlt (Nat.not_lt_zero _)

theorem run_suffix {out} (run : Run code.Step units out rest) : rest <:+ units := by
  induction run with
  | refl => exact suffix_refl _
  | head h tail ih => exact ih.trans h.suffix

theorem Step.exists_item {out} (h : code.Step units out rest) : ∃ item, out = [item] := by
  cases h with
  | character c => exact ⟨some c, rfl⟩
  | replaced => exact ⟨none, rfl⟩

/-- A decoding starts with the step at the front. -/
theorem Decodes.of_step {out} (h : code.Step units out rest) (hi : code.Decodes units items) :
    ∃ items', items = out ++ items' ∧ code.Decodes rest items' := by
  unfold Decodes at hi
  generalize he : ([] : List α) = last at hi
  cases hi with
  | refl => exact absurd he.symm h.source_ne_nil
  | head h' tail =>
    obtain ⟨rfl, rfl⟩ := h.deterministic h'
    subst he
    exact ⟨_, rfl, tail⟩

theorem Decodes.of_run {out} (run : Run code.Step units out rest) (hi : code.Decodes units items) :
    ∃ items', items = out ++ items' ∧ code.Decodes rest items' := by
  induction run generalizing items with
  | refl => exact ⟨items, rfl, hi⟩
  | head h tail ih =>
    obtain ⟨items', rfl, hi'⟩ := hi.of_step h
    obtain ⟨items'', rfl, hi''⟩ := ih hi'
    exact ⟨items'', (append_assoc ..).symm, hi''⟩

theorem Decodes.unique {items'}
    (h : code.Decodes units items) (h' : code.Decodes units items') : items = items' := by
  obtain ⟨rest, rfl, hr⟩ := h'.of_run h
  unfold Decodes at hr
  generalize hu : ([] : List α) = units at hr
  cases hr with
  | refl => exact (append_nil items).symm
  | head hsp => exact absurd hu.symm hsp.source_ne_nil

variable (code)

theorem exists_step (units : List α) (h : units ≠ []) : ∃ out rest, code.Step units out rest := by
  by_cases hst : code.Starts units
  · obtain ⟨c, rest, rfl⟩ := hst
    exact ⟨_, _, .character c rest⟩
  · cases units with
    | nil => exact absurd rfl h
    | cons unit rest => exact ⟨_, _, .replaced hst⟩

end PrefixCode

end QtWebKit.Decoding
