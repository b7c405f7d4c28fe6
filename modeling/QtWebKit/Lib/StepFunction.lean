import Mathlib.Data.List.Pairwise
import Mathlib.Tactic.Order

/-!
# Step functions as sorted lists

A step function on a linear order is stored as the sorted list of the points
where its value changes. Boolean step functions that start with `false` need
only the points themselves.
-/

namespace QtWebKit.StepFunction

open List

variable {K U V W : Type*} [LinearOrder K]

/-! ### Boolean step functions -/

/-- The value at `p` of the function that starts with `false` and changes at
every point of the list. -/
def toggled : List K → K → Bool
  | [], _ => false
  | x :: xs, p => decide (x ≤ p) && !toggled xs p

@[simp] theorem toggled_nil (p : K) : toggled [] p = false := rfl

theorem toggled_cons (x : K) (xs : List K) (p : K) :
    toggled (x :: xs) p = (decide (x ≤ p) && !toggled xs p) := rfl

theorem toggled_eq_false_of_lt {xs} {p : K} (h : ∀ x ∈ xs, p < x) : toggled xs p = false := by
  cases xs with
  | nil => rfl
  | cons x xs =>
    have hx : ¬ x ≤ p := not_le.mpr (h x mem_cons_self)
    simp [toggled_cons, hx]

theorem toggled_eq_of_le {xs : List K} {p} (h : ∀ x ∈ xs, x ≤ p) :
    toggled xs p = decide (xs.length % 2 = 1) := by
  induction xs with
  | nil => rfl
  | cons x xs ih =>
    simp only [mem_cons, forall_eq_or_imp] at h
    simp only [toggled_cons, h.1, ih h.2, length_cons, decide_true, Bool.true_and]
    rcases Nat.mod_two_eq_zero_or_one xs.length with hev | ho
    · simp [Nat.add_mod, hev]
    · simp [Nat.add_mod, ho]

theorem toggled_head {x} {xs : List K} (h : ∀ x' ∈ xs, x < x') : toggled (x :: xs) x = true := by
  simp [toggled_cons, toggled_eq_false_of_lt h]

/-- The first two points bound the first interval of the function. -/
theorem toggled_cons_cons {x x'} {xs : List K} (h : (x :: x' :: xs).Pairwise (· < ·)) (p : K) :
    toggled (x :: x' :: xs) p = true ↔ (x ≤ p ∧ p < x') ∨ toggled xs p = true := by
  simp only [pairwise_cons, mem_cons, forall_eq_or_imp] at h
  obtain ⟨⟨hx, _⟩, hx', _⟩ := h
  simp only [toggled_cons]
  by_cases hl : x ≤ p
  · by_cases hh : x' ≤ p
    · simp [hl, hh, not_lt.mpr hh]
    · have hr := toggled_eq_false_of_lt fun y hy => (not_le.mp hh).trans (hx' y hy)
      simp [hl, hh, hr, not_le.mp hh]
  · have hr := toggled_eq_false_of_lt fun y hy => ((not_le.mp hl).trans hx).trans (hx' y hy)
    simp [hl, hr]

/-- A strictly increasing list is determined by its function. -/
theorem toggled_injective {xs ys : List K} (hx : xs.Pairwise (· < ·)) (hy : ys.Pairwise (· < ·))
    (h : ∀ p, toggled xs p = toggled ys p) : xs = ys := by
  induction xs generalizing ys with
  | nil =>
    cases ys with
    | nil => rfl
    | cons y ys =>
      rw [pairwise_cons] at hy
      have hhd := h y
      rw [toggled_head hy.1] at hhd
      cases hhd
  | cons x xs ih =>
    rw [pairwise_cons] at hx
    cases ys with
    | nil =>
      have hhd := h x
      rw [toggled_head hx.1] at hhd
      cases hhd
    | cons y ys =>
      rw [pairwise_cons] at hy
      have hxy : x = y := by
        rcases lt_trichotomy x y with hlt | heq | hgt
        · have hhd := h x
          rw [toggled_head hx.1, toggled_cons, decide_eq_false (not_le.mpr hlt)] at hhd
          cases hhd
        · exact heq
        · have hhd := h y
          rw [toggled_head hy.1, toggled_cons, decide_eq_false (not_le.mpr hgt)] at hhd
          cases hhd
      subst hxy
      have htl (p) : toggled xs p = toggled ys p := by
        by_cases hp : x ≤ p
        · have hcn := h p
          simp only [toggled_cons, hp, decide_true, Bool.true_and] at hcn
          exact Bool.not_inj hcn
        · rw [toggled_eq_false_of_lt fun x' hx' => (not_le.mp hp).trans (hx.1 x' hx'),
            toggled_eq_false_of_lt fun y' hy' => (not_le.mp hp).trans (hy.1 y' hy')]
      rw [ih hx.2 hy.2 htl]

/-! ### Step functions with values -/

/-- The value at `p` of the function that starts with `d` and takes the value of
each entry from its key on. -/
def valueAt (d : V) : List (K × V) → K → V
  | [], _ => d
  | (k, v) :: rest, p => if p < k then d else valueAt v rest p

@[simp] theorem valueAt_nil (d : V) (p : K) : valueAt d ([] : List (K × V)) p = d := rfl

theorem valueAt_cons (d : V) (k : K) (v : V) (rest : List (K × V)) (p : K) :
    valueAt d ((k, v) :: rest) p = if p < k then d else valueAt v rest p := rfl

/-- Keys strictly increasing. -/
def Increasing (steps : List (K × V)) : Prop := steps.Pairwise fun e e' => e.1 < e'.1

theorem increasing_cons {k v} {rest : List (K × V)} :
    Increasing ((k, v) :: rest) ↔ (∀ e ∈ rest, k < e.1) ∧ Increasing rest := by
  simp only [Increasing, pairwise_cons]

theorem valueAt_eq_of_lt {d} {steps : List (K × V)} {p} (h : ∀ e ∈ steps, p < e.1) :
    valueAt d steps p = d := by
  cases steps with
  | nil => rfl
  | cons e rest =>
    obtain ⟨k, v⟩ := e
    rw [valueAt_cons, if_pos (h (k, v) mem_cons_self)]

theorem valueAt_of_mem {d : V} {steps : List (K × V)} (h : Increasing steps) {e : K × V}
    (he : e ∈ steps) : valueAt d steps e.1 = e.2 := by
  induction steps generalizing d with
  | nil => cases he
  | cons e' rest ih =>
    obtain ⟨k, v⟩ := e'
    rw [increasing_cons] at h
    rw [valueAt_cons]
    rcases mem_cons.mp he with rfl | hr
    · rw [if_neg (lt_irrefl _), valueAt_eq_of_lt h.1]
    · rw [if_neg (h.1 e hr).not_gt, ih h.2 hr]

theorem valueAt_before {d k v} {rest : List (K × V)} {p} (hp : p < k) :
    valueAt d ((k, v) :: rest) p = d := by
  rw [valueAt_cons, if_pos hp]

theorem valueAt_first {d k m v w} {rest : List (K × V)} {p} (hk : k ≤ p)
    (hm : p < m) : valueAt d ((k, v) :: (m, w) :: rest) p = v := by
  rw [valueAt_cons, if_neg hk.not_gt, valueAt_cons, if_pos hm]

theorem valueAt_tail {d k m v w} {rest : List (K × V)} {p} (hkm : k < m)
    (hm : m ≤ p) : valueAt d ((k, v) :: (m, w) :: rest) p = valueAt d ((m, w) :: rest) p := by
  rw [valueAt_cons, if_neg (hkm.le.trans hm).not_gt, valueAt_cons, if_neg hm.not_gt, valueAt_cons,
    if_neg hm.not_gt]

/-- The value after the last entry. -/
def finalValue (d : V) : List (K × V) → V
  | [] => d
  | (_, v) :: rest => finalValue v rest

/-- Every entry changes the value. -/
def Changes (d : V) : List (K × V) → Prop
  | [] => True
  | (_, v) :: rest => v ≠ d ∧ Changes v rest

/-- A list whose keys increase and whose entries are all changes is determined by
its function. -/
theorem valueAt_injective {d : V} {steps steps' : List (K × V)} (hi : Increasing steps)
    (hi' : Increasing steps') (hc : Changes d steps) (hc' : Changes d steps')
    (h : ∀ p, valueAt d steps p = valueAt d steps' p) : steps = steps' := by
  induction steps generalizing d steps' with
  | nil =>
    cases steps' with
    | nil => rfl
    | cons e' rest' =>
      obtain ⟨k', v'⟩ := e'
      rw [increasing_cons] at hi'
      have hhd := h k'
      rw [valueAt_cons, if_neg (lt_irrefl _), valueAt_eq_of_lt hi'.1] at hhd
      exact absurd hhd.symm hc'.1
  | cons e rest ih =>
    obtain ⟨k, v⟩ := e
    rw [increasing_cons] at hi
    have hv : valueAt d ((k, v) :: rest) k = v := by
      rw [valueAt_cons, if_neg (lt_irrefl _), valueAt_eq_of_lt hi.1]
    cases steps' with
    | nil => exact absurd (hv.symm.trans (h k)) hc.1
    | cons e' rest' =>
      obtain ⟨k', v'⟩ := e'
      rw [increasing_cons] at hi'
      have hv' : valueAt d ((k', v') :: rest') k' = v' := by
        rw [valueAt_cons, if_neg (lt_irrefl _), valueAt_eq_of_lt hi'.1]
      have hk : k = k' := by
        rcases lt_trichotomy k k' with hlt | heq | hgt
        · have hhd := h k
          rw [hv, valueAt_cons, if_pos hlt] at hhd
          exact absurd hhd hc.1
        · exact heq
        · have hhd := h k'
          rw [hv', valueAt_cons, if_pos hgt] at hhd
          exact absurd hhd.symm hc'.1
      subst hk
      have hvv : v = v' := hv.symm.trans ((h k).trans hv')
      subst hvv
      have htl (p) : valueAt v rest p = valueAt v rest' p := by
        by_cases hp : p < k
        · rw [valueAt_eq_of_lt fun e he => hp.trans (hi.1 e he),
            valueAt_eq_of_lt fun e he => hp.trans (hi'.1 e he)]
        · simpa only [valueAt_cons, if_neg hp] using h p
      rw [ih hi.2 hi'.2 hc.2 hc'.2 htl]

/-! ### Dropping entries that change nothing -/

section

variable [DecidableEq V]

/-- Keep the entries that differ from the value before them. -/
def coalesce (d : V) : List (K × V) → List (K × V)
  | [] => []
  | (k, v) :: rest => if v = d then coalesce d rest else (k, v) :: coalesce v rest

omit [LinearOrder K] in
theorem coalesce_cons (d : V) (k : K) (v : V) (rest : List (K × V)) :
    coalesce d ((k, v) :: rest) =
      if v = d then coalesce d rest else (k, v) :: coalesce v rest := rfl

omit [LinearOrder K] in
theorem coalesce_sublist (d : V) (steps : List (K × V)) :
    List.Sublist (coalesce d steps) steps := by
  induction steps generalizing d with
  | nil => exact List.Sublist.refl _
  | cons e rest ih =>
    obtain ⟨k, v⟩ := e
    rw [coalesce_cons]
    split_ifs
    · exact (ih d).cons _
    · exact (ih v).cons_cons _

theorem increasing_coalesce {d} {steps : List (K × V)} (h : Increasing steps) :
    Increasing (coalesce d steps) :=
  h.sublist (coalesce_sublist d steps)

omit [LinearOrder K] in
theorem changes_coalesce (d : V) (steps : List (K × V)) : Changes d (coalesce d steps) := by
  induction steps generalizing d with
  | nil => exact trivial
  | cons e rest ih =>
    obtain ⟨k, v⟩ := e
    rw [coalesce_cons]
    split_ifs with hv
    · exact ih d
    · exact ⟨hv, ih v⟩

theorem valueAt_coalesce {d : V} {steps : List (K × V)} (h : Increasing steps) (p : K) :
    valueAt d (coalesce d steps) p = valueAt d steps p := by
  induction steps generalizing d with
  | nil => rfl
  | cons e rest ih =>
    obtain ⟨k, v⟩ := e
    rw [increasing_cons] at h
    rw [coalesce_cons, valueAt_cons]
    split_ifs with hv hp
    · rw [ih h.2, valueAt_eq_of_lt fun e he => hp.trans (h.1 e he)]
    · rw [ih h.2, hv]
    · rw [valueAt_cons, if_pos ‹p < k›]
    · rw [valueAt_cons, if_neg ‹¬ p < k›, ih h.2]

omit [LinearOrder K]

theorem finalValue_coalesce (d : V) (steps : List (K × V)) :
    finalValue d (coalesce d steps) = finalValue d steps := by
  induction steps generalizing d with
  | nil => rfl
  | cons e rest ih =>
    obtain ⟨k, v⟩ := e
    rw [coalesce_cons]
    split_ifs with hv
    · rw [ih d, finalValue, hv]
    · rw [finalValue, finalValue, ih v]

theorem coalesce_eq_self {d} {steps : List (K × V)} (h : Changes d steps) :
    coalesce d steps = steps := by
  induction steps generalizing d with
  | nil => rfl
  | cons e rest ih =>
    obtain ⟨k, v⟩ := e
    rw [coalesce_cons, if_neg h.1, ih h.2]

end

/-! ### Combining two functions -/

theorem valueAt_map (f : V → W) (d : V) (steps : List (K × V)) (p : K) :
    valueAt (f d) (steps.map fun e => (e.1, f e.2)) p = f (valueAt d steps p) := by
  induction steps generalizing d with
  | nil => rfl
  | cons e rest ih =>
    rw [map_cons, valueAt_cons, valueAt_cons, ih e.2]
    split_ifs <;> rfl

omit [LinearOrder K] in
theorem finalValue_map (f : V → W) (d : V) (steps : List (K × V)) :
    finalValue (f d) (steps.map fun e => (e.1, f e.2)) = f (finalValue d steps) := by
  induction steps generalizing d with
  | nil => rfl
  | cons e rest ih => exact ih e.2

theorem increasing_map (f : V → W) {steps : List (K × V)} (h : Increasing steps) :
    Increasing (steps.map fun e => (e.1, f e.2)) := by
  rw [Increasing, pairwise_map]
  exact h

/-- Apply `f` to the values of two functions, with an entry at each of their keys. -/
def combine (f : U → V → W) (u : U) (v : V) (first : List (K × U)) (second : List (K × V)) :
    List (K × W) :=
  match first, second with
  | [], second => second.map fun e => (e.1, f u e.2)
  | first, [] => first.map fun e => (e.1, f e.2 v)
  | (k, u') :: rest, (k', v') :: rest' =>
    if k < k' then (k, f u' v) :: combine f u' v rest ((k', v') :: rest')
    else if k' < k then (k', f u v') :: combine f u v' ((k, u') :: rest) rest'
    else (k, f u' v') :: combine f u' v' rest rest'
termination_by first.length + second.length

variable (f : U → V → W)

theorem combine_nil_left (u : U) (v : V) (snd : List (K × V)) :
    combine f u v [] snd = snd.map fun e => (e.1, f u e.2) := by
  rw [combine]

theorem combine_nil_right (u : U) (v : V) (first : List (K × U)) :
    combine f u v first [] = first.map fun e => (e.1, f e.2 v) := by
  cases first with
  | nil => rw [combine_nil_left]; rfl
  | cons e rest => rw [combine]; simp

theorem combine_cons_cons (u : U) (v : V) (k k' : K) (u' : U) (v' : V) (rest : List (K × U))
    (rest' : List (K × V)) :
    combine f u v ((k, u') :: rest) ((k', v') :: rest') =
      if k < k' then (k, f u' v) :: combine f u' v rest ((k', v') :: rest')
      else if k' < k then (k', f u v') :: combine f u v' ((k, u') :: rest) rest'
      else (k, f u' v') :: combine f u' v' rest rest' := by
  rw [combine]

/-- Induction along the combination. -/
theorem combine_induction {P : List (K × U) → List (K × V) → Prop}
    (left : ∀ snd, P [] snd) (right : ∀ first, P first [])
    (lt : ∀ k k' u' v' rest rest', k < k' → P rest ((k', v') :: rest') →
      P ((k, u') :: rest) ((k', v') :: rest'))
    (gt : ∀ k k' u' v' rest rest', k' < k → P ((k, u') :: rest) rest' →
      P ((k, u') :: rest) ((k', v') :: rest'))
    (eq : ∀ k u' v' rest rest', P rest rest' → P ((k, u') :: rest) ((k, v') :: rest'))
    (first : List (K × U)) (snd : List (K × V)) : P first snd := by
  induction hn : first.length + snd.length using Nat.strong_induction_on generalizing first snd with
  | _ n ih =>
    match first, snd with
    | [], snd => exact left snd
    | first, [] => exact right first
    | (k, u') :: rest, (k', v') :: rest' =>
      simp only [length_cons] at hn
      rcases lt_trichotomy k k' with hlt | heq | hgt
      · exact lt k k' u' v' rest rest' hlt
          (ih (rest.length + ((k', v') :: rest').length) (by simp only [length_cons]; omega)
            rest _ rfl)
      · subst heq
        exact eq k u' v' rest rest' (ih _ (by omega) rest rest' rfl)
      · exact gt k k' u' v' rest rest' hgt
          (ih (((k, u') :: rest).length + rest'.length) (by simp only [length_cons]; omega)
            _ rest' rfl)

theorem lt_of_mem_combine {first : List (K × U)} {snd u v p}
    (h : ∀ e ∈ first, p < e.1) (h' : ∀ e ∈ snd, p < e.1) :
    ∀ e ∈ combine f u v first snd, p < e.1 := by
  induction first, snd using combine_induction generalizing u v with
  | left snd =>
    rw [combine_nil_left]
    simpa only [mem_map, forall_exists_index, and_imp, forall_apply_eq_imp_iff₂] using h'
  | right first =>
    rw [combine_nil_right]
    simpa only [mem_map, forall_exists_index, and_imp, forall_apply_eq_imp_iff₂] using h
  | lt k k' u' v' rest rest' hlt ih =>
    rw [forall_mem_cons] at h
    rw [combine_cons_cons, if_pos hlt, forall_mem_cons]
    exact ⟨h.1, ih h.2 h'⟩
  | gt k k' u' v' rest rest' hgt ih =>
    rw [forall_mem_cons] at h'
    rw [combine_cons_cons, if_neg hgt.not_gt, if_pos hgt, forall_mem_cons]
    exact ⟨h'.1, ih h h'.2⟩
  | eq k u' v' rest rest' ih =>
    rw [forall_mem_cons] at h h'
    rw [combine_cons_cons, if_neg (lt_irrefl _), if_neg (lt_irrefl _), forall_mem_cons]
    exact ⟨h.1, ih h.2 h'.2⟩

theorem increasing_combine {first} {snd : List (K × V)} {u : U} {v}
    (h : Increasing first) (h' : Increasing snd) : Increasing (combine f u v first snd) := by
  induction first, snd using combine_induction generalizing u v with
  | left snd => rw [combine_nil_left]; exact increasing_map _ h'
  | right first => rw [combine_nil_right]; exact increasing_map (f · v) h
  | lt k k' u' v' rest rest' hlt ih =>
    rw [increasing_cons] at h
    rw [combine_cons_cons, if_pos hlt, increasing_cons]
    refine ⟨lt_of_mem_combine f h.1 ?_, ih h.2 h'⟩
    rw [increasing_cons] at h'
    rw [forall_mem_cons]
    exact ⟨hlt, fun e he => hlt.trans (h'.1 e he)⟩
  | gt k k' u' v' rest rest' hgt ih =>
    rw [increasing_cons] at h'
    rw [combine_cons_cons, if_neg hgt.not_gt, if_pos hgt, increasing_cons]
    refine ⟨lt_of_mem_combine f ?_ h'.1, ih h h'.2⟩
    rw [increasing_cons] at h
    rw [forall_mem_cons]
    exact ⟨hgt, fun e he => hgt.trans (h.1 e he)⟩
  | eq k u' v' rest rest' ih =>
    rw [increasing_cons] at h h'
    rw [combine_cons_cons, if_neg (lt_irrefl _), if_neg (lt_irrefl _), increasing_cons]
    exact ⟨lt_of_mem_combine f h.1 h'.1, ih h.2 h'.2⟩

/-- The combination has the combined value everywhere. -/
theorem valueAt_combine (first : List (K × U)) (snd : List (K × V)) (u : U) (v : V)
    (p : K) : valueAt (f u v) (combine f u v first snd) p =
      f (valueAt u first p) (valueAt v snd p) := by
  induction first, snd using combine_induction generalizing u v with
  | left snd =>
    rw [combine_nil_left]
    exact valueAt_map (f u) v snd p
  | right first =>
    rw [combine_nil_right]
    exact valueAt_map (f · v) u first p
  | lt k k' u' v' rest rest' hlt ih =>
    rw [combine_cons_cons, if_pos hlt, valueAt_cons, valueAt_cons, ih]
    by_cases hp : p < k
    · rw [if_pos hp, if_pos hp, valueAt_cons, if_pos (hp.trans hlt)]
    · rw [if_neg hp, if_neg hp]
  | gt k k' u' v' rest rest' hgt ih =>
    rw [combine_cons_cons, if_neg hgt.not_gt, if_pos hgt, valueAt_cons, ih, valueAt_cons v k']
    by_cases hp : p < k'
    · rw [if_pos hp, if_pos hp, valueAt_cons, if_pos (hp.trans hgt)]
    · rw [if_neg hp, if_neg hp]
  | eq k u' v' rest rest' ih =>
    rw [combine_cons_cons, if_neg (lt_irrefl _), if_neg (lt_irrefl _), valueAt_cons, ih,
      valueAt_cons, valueAt_cons]
    split_ifs <;> rfl

theorem finalValue_combine (first : List (K × U)) (snd : List (K × V)) (u : U) (v : V) :
    finalValue (f u v) (combine f u v first snd) =
      f (finalValue u first) (finalValue v snd) := by
  induction first, snd using combine_induction generalizing u v with
  | left snd =>
    rw [combine_nil_left]
    exact finalValue_map (f u) v snd
  | right first =>
    rw [combine_nil_right]
    exact finalValue_map (f · v) u first
  | lt k k' u' v' rest rest' hlt ih =>
    rw [combine_cons_cons, if_pos hlt, finalValue, ih]
    rfl
  | gt k k' u' v' rest rest' hgt ih =>
    rw [combine_cons_cons, if_neg hgt.not_gt, if_pos hgt, finalValue, ih]
    rfl
  | eq k u' v' rest rest' ih =>
    rw [combine_cons_cons, if_neg (lt_irrefl _), if_neg (lt_irrefl _), finalValue, ih]
    rfl

end QtWebKit.StepFunction
