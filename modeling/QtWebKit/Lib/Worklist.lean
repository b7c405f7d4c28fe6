import Mathlib.Data.List.Nodup
import Mathlib.Logic.Relation

/-!
# Exhausting a work list

A search keeps the list of keys it has found and a stack of those it has not
processed. Processing a key visits its successors, and a visited key is new when no
key found before is the same.
-/

namespace QtWebKit.Worklist

open List

variable {κ ι : Type*}

structure Search (κ : Type*) where
  found : List κ
  unprocessed : List κ

section

variable (same : κ → κ → Bool) (successors : κ → List κ)

/-- A key that is new is found and has to be processed. -/
def visit (search : Search κ) (key : κ) : Search κ :=
  if search.found.any (same · key) then search
  else ⟨search.found ++ [key], key :: search.unprocessed⟩

/-- Processes the key on top of the stack. -/
def process (search : Search κ) : Search κ :=
  match search.unprocessed with
  | [] => search
  | key :: rest => (successors key).foldl (visit same) ⟨search.found, rest⟩

/-- Processes keys until there are none left, at most `fuel` of them. -/
def exhaust : Nat → Search κ → Option (Search κ)
  | 0, search => if search.unprocessed.isEmpty then some search else none
  | fuel + 1, search =>
    if search.unprocessed.isEmpty then some search
      else exhaust fuel (process same successors search)

/-- A key is reached from another along successors. -/
def Reaches : κ → κ → Prop := Relation.ReflTransGen fun key key' => key' ∈ successors key

end

/-- Sameness of valid keys is equality of their identities, of which there are only
finitely many. -/
structure Identifies (same : κ → κ → Bool) (successors : κ → List κ) (identity : κ → ι)
    (Valid : κ → Prop) (bound : Nat) : Prop where
  same_iff {key key' : κ} : Valid key → Valid key' →
    (same key key' = true ↔ identity key = identity key')
  valid_successors {key key' : κ} : Valid key → key' ∈ successors key → Valid key'
  length_le {keys : List κ} : (∀ key ∈ keys, Valid key) → (keys.map identity).Nodup →
    keys.length ≤ bound

/-- What holds between two steps of a search from a root. -/
structure Explored (successors : κ → List κ) (identity : κ → ι) (Valid : κ → Prop) (root : κ)
    (search : Search κ) : Prop where
  root_prefix : [root] <+: search.found
  valid : ∀ key ∈ search.found, Valid key
  nodup : (search.found.map identity).Nodup
  reaches : ∀ key ∈ search.found, Reaches successors root key
  unprocessed_subset : search.unprocessed ⊆ search.found
  closed : ∀ key ∈ search.found, key ∈ search.unprocessed ∨
    ∀ key' ∈ successors key, identity key' ∈ search.found.map identity

/-- What visiting some keys adds to a search. -/
structure Visited (identity : κ → ι) (keys : List κ) (search search' : Search κ) (new : List κ) :
    Prop where
  found_eq : search'.found = search.found ++ new
  unprocessed_eq : search'.unprocessed = new.reverse ++ search.unprocessed
  new_subset : new ⊆ keys
  nodup : (search'.found.map identity).Nodup
  covered : ∀ key ∈ keys, identity key ∈ search'.found.map identity

variable {same : κ → κ → Bool} {successors : κ → List κ} {identity : κ → ι} {Valid : κ → Prop}
  {bound : Nat} (h : Identifies same successors identity Valid bound)

include h in
theorem any_same_iff {found : List κ} {key} (hf : ∀ key' ∈ found, Valid key') (hk : Valid key) :
    found.any (same · key) = true ↔ identity key ∈ found.map identity := by
  rw [any_eq_true, mem_map]
  constructor
  · rintro ⟨key', hm, hsm⟩
    exact ⟨key', hm, (h.same_iff (hf key' hm) hk).mp hsm⟩
  · rintro ⟨key', hm, heq⟩
    exact ⟨key', hm, (h.same_iff (hf key' hm) hk).mpr heq⟩

include h in
theorem visited_foldl (keys : List κ) (srch : Search κ) (hf : ∀ key ∈ srch.found, Valid key)
    (hnd : (srch.found.map identity).Nodup) (hks : ∀ key ∈ keys, Valid key) :
    ∃ new, Visited identity keys srch (keys.foldl (visit same) srch) new := by
  induction keys generalizing srch with
  | nil =>
    refine ⟨[], (append_nil _).symm, rfl, List.Subset.refl _, hnd, ?_⟩
    intro key hk
    exact absurd hk not_mem_nil
  | cons key keys ih =>
    rw [forall_mem_cons] at hks
    rw [foldl_cons]
    by_cases ha : srch.found.any (same · key) = true
    · rw [visit, if_pos ha]
      obtain ⟨new, hw⟩ := ih srch hf hnd hks.2
      have hm := (any_same_iff h hf hks.1).mp ha
      refine ⟨new, hw.found_eq, hw.unprocessed_eq, subset_cons_of_subset key hw.new_subset,
        hw.nodup, forall_mem_cons.mpr ⟨?_, hw.covered⟩⟩
      rw [hw.found_eq, map_append]
      exact mem_append_left _ hm
    · rw [visit, if_neg ha]
      rw [any_same_iff h hf hks.1] at ha
      obtain ⟨new, hw⟩ := ih ⟨srch.found ++ [key], key :: srch.unprocessed⟩
        (by simpa [or_imp, forall_and] using ⟨hf, hks.1⟩)
        (by simpa [nodup_append] using ⟨hnd, fun key' hm heq => ha (mem_map.mpr ⟨key', hm, heq⟩)⟩)
        hks.2
      refine ⟨key :: new, ?_, ?_, cons_subset_cons key hw.new_subset, hw.nodup,
        forall_mem_cons.mpr ⟨?_, hw.covered⟩⟩
      · rw [hw.found_eq, append_assoc, singleton_append]
      · rw [hw.unprocessed_eq, reverse_cons, append_assoc, singleton_append]
      · rw [hw.found_eq]
        simp

/-- A search with a valid root and nothing else. -/
theorem explored_root {root} (hrt : Valid root) :
    Explored successors identity Valid root ⟨[root], [root]⟩ where
  root_prefix := prefix_rfl
  valid _ hk := mem_singleton.mp hk ▸ hrt
  nodup := nodup_singleton _
  reaches _ hk := mem_singleton.mp hk ▸ .refl
  unprocessed_subset := List.Subset.refl _
  closed _ hk := .inl hk

include h in
/-- Processing a key keeps the invariant and has one key less to process, counting
those that can still be found. -/
theorem Explored.process {root key} {srch : Search κ} {rest}
    (he : Explored successors identity Valid root srch) (hu : srch.unprocessed = key :: rest) :
    Explored successors identity Valid root (process same successors srch) ∧
      bound - (Worklist.process same successors srch).found.length +
          (Worklist.process same successors srch).unprocessed.length + 1 =
        bound - srch.found.length + srch.unprocessed.length := by
  have hk := he.unprocessed_subset (hu ▸ mem_cons_self)
  have hsc : ∀ key' ∈ successors key, Valid key' :=
    fun key' => h.valid_successors (he.valid key hk)
  obtain ⟨new, hw⟩ := visited_foldl h (successors key) ⟨srch.found, rest⟩ he.valid
    he.nodup hsc
  have hpr : Worklist.process same successors srch =
      (successors key).foldl (visit same) ⟨srch.found, rest⟩ := by
    rw [Worklist.process, hu]
  rw [← hpr] at hw
  have hf : ∀ key' ∈ (Worklist.process same successors srch).found,
      key' ∈ srch.found ∨ key' ∈ successors key := by
    intro key' hm
    rw [hw.found_eq, mem_append] at hm
    exact hm.imp_right fun hm => hw.new_subset hm
  have hv : ∀ key' ∈ (Worklist.process same successors srch).found, Valid key' := by
    intro key' hm
    exact (hf key' hm).elim (he.valid key') (hsc key')
  refine ⟨⟨?_, hv, hw.nodup, ?_, ?_, ?_⟩, ?_⟩
  · rw [hw.found_eq]
    exact he.root_prefix.trans (prefix_append _ _)
  · intro key' hm
    rcases hf key' hm with hd | hss
    · exact he.reaches key' hd
    · exact (he.reaches key hk).tail hss
  · rw [hw.found_eq, hw.unprocessed_eq]
    intro key' hm
    rcases mem_append.mp hm with hm | hm
    · exact mem_append_right _ (mem_reverse.mp hm)
    · exact mem_append_left _
        (he.unprocessed_subset (hu ▸ mem_cons_of_mem key hm))
  · intro key' hm
    rw [hw.found_eq, mem_append] at hm
    rcases hm with hd | hm
    · rcases he.closed key' hd with hwt | hc
      · rw [hu, mem_cons] at hwt
        rcases hwt with rfl | hr
        · exact .inr hw.covered
        · rw [hw.unprocessed_eq]
          exact .inl (mem_append_right _ hr)
      · rw [hw.found_eq, map_append]
        exact .inr fun key'' hm => mem_append_left _ (hc key'' hm)
    · rw [hw.unprocessed_eq]
      exact .inl (mem_append_left _ (mem_reverse.mpr hm))
  · have hle : (srch.found ++ new).length ≤ bound :=
      hw.found_eq ▸ h.length_le hv hw.nodup
    rw [length_append] at hle
    rw [hw.found_eq, hw.unprocessed_eq, hu]
    simp only [length_append, length_reverse, length_cons]
    omega

include h in
/-- With enough fuel a search ends, and then every key that it found is processed. -/
theorem Explored.exhaust {root} {srch : Search κ} {fuel}
    (he : Explored successors identity Valid root srch)
    (hfuel : bound - srch.found.length + srch.unprocessed.length ≤ fuel) :
    ∃ srch', exhaust same successors fuel srch = some srch' ∧ srch'.unprocessed = [] ∧
      Explored successors identity Valid root srch' := by
  induction fuel generalizing srch with
  | zero =>
    have hn : srch.unprocessed = [] := length_eq_zero_iff.mp (by omega)
    exact ⟨srch, by rw [Worklist.exhaust, hn]; rfl, hn, he⟩
  | succ fuel ih =>
    cases hu : srch.unprocessed with
    | nil => exact ⟨srch, by rw [Worklist.exhaust, hu]; rfl, hu, he⟩
    | cons key rest =>
      obtain ⟨hp, hmeasure⟩ := he.process h hu
      rw [Worklist.exhaust, hu]
      exact ih hp (by omega)

theorem Explored.successors_found {root} {srch : Search κ}
    (he : Explored successors identity Valid root srch) (hn : srch.unprocessed = [])
    {key key'} (hk : key ∈ srch.found) (hk' : key' ∈ successors key) :
    identity key' ∈ srch.found.map identity := by
  rcases he.closed key hk with hm | hc
  · exact absurd (hn ▸ hm) not_mem_nil
  · exact hc key' hk'

/-- An exhausted search has found exactly what the root reaches. -/
theorem Explored.mem_found_iff {root key} {srch : Search κ}
    (he : Explored successors id Valid root srch) (hn : srch.unprocessed = []) :
    key ∈ srch.found ↔ Reaches successors root key := by
  refine ⟨he.reaches key, ?_⟩
  intro hrc
  induction hrc with
  | refl => exact he.root_prefix.subset (mem_singleton_self root)
  | tail _ hs ih => simpa using he.successors_found hn ih hs

end QtWebKit.Worklist
