import Mathlib.Data.List.AList
import Mathlib.Data.Finset.Insert

/-! # Tables and the order in which they are enumerated

A hash table is a finite map whose iteration order is its own business. A run
that iterates over tables is therefore followed under an arbitrary
`Enumeration`, one for each operation. -/

namespace QtWebKit.Lib

open List Option

/-- A finite map with at most one value for a key. -/
abbrev Table (K V : Type) := AList fun _ : K => V

/-- A choice of the order in which the slots of tables are visited. -/
structure Enumeration where
  order : {α : Type} → List α → List α
  perm : ∀ {α : Type} (items : List α), (order items).Perm items

namespace Table

variable {K V : Type} [DecidableEq K]

variable (tbl : Table K V)

theorem lookup_insert_eq (key key' : K) (val : V) :
    (tbl.insert key val).lookup key' =
      if key' = key then some val else tbl.lookup key' := by
  by_cases h : key' = key
  · rw [h, if_pos rfl, AList.lookup_insert]
  · rw [if_neg h, AList.lookup_insert_ne h]

theorem lookup_erase_eq (key key' : K) :
    (tbl.erase key).lookup key' = if key' = key then none else tbl.lookup key' := by
  by_cases h : key' = key
  · rw [h, if_pos rfl, AList.lookup_erase]
  · rw [if_neg h, AList.lookup_erase_ne h]

/-- An insertion that keeps the value a key has already. -/
theorem lookup_insert_if_new (key key' : K) (val : V) :
    (if (tbl.lookup key).isSome = true then tbl else tbl.insert key val).lookup key' =
      if key' = key ∧ tbl.lookup key' = none then some val else tbl.lookup key' := by
  cases hlk : tbl.lookup key with
  | none =>
    rw [if_neg (by simp), lookup_insert_eq]
    by_cases h : key' = key
    · rw [if_pos h, if_pos ⟨h, h ▸ hlk⟩]
    · rw [if_neg h, if_neg fun hb => h hb.1]
  | some found =>
    rw [if_pos isSome_some, if_neg]
    rintro ⟨rfl, hno⟩
    rw [hno] at hlk
    cases hlk

section

/-! A table that has the entries of another one whose values meet a condition, when one more of
them is entered or taken out. -/

variable {whole part : Table K V} {P : V → Prop} {key : K} {val : V}
  (h : ∀ key val, part.lookup key = some val ↔ whole.lookup key = some val ∧ P val)
  (hk : whole.lookup key = some val)
  (hu : ∀ key', whole.lookup key' = some val → key' = key) (key' : K) (val' : V)
include h hk hu

theorem lookup_insert_part :
    (part.insert key val).lookup key' = some val' ↔
      whole.lookup key' = some val' ∧ (P val' ∨ val' = val) := by
  rw [lookup_insert_eq, and_or_left, ← h]
  split
  case isTrue heq =>
    rw [heq]
    constructor
    · intro hs
      exact .inr ⟨hk.trans hs, (some.inj hs).symm⟩
    · rintro (hd | ⟨-, rfl⟩)
      · rw [h, hk] at hd
        exact hd.1
      · rfl
  case isFalse hne =>
    refine (or_iff_left_of_imp ?_).symm
    rintro ⟨hlk, rfl⟩
    exact absurd (hu key' hlk) hne

theorem lookup_erase_part :
    (part.erase key).lookup key' = some val' ↔
      whole.lookup key' = some val' ∧ (P val' ∧ val' ≠ val) := by
  rw [lookup_erase_eq, ← and_assoc, ← h]
  split
  case isTrue heq =>
    rw [heq]
    constructor
    · rintro ⟨⟩
    · rintro ⟨hlk, hne⟩
      rw [h, hk] at hlk
      exact absurd (some.inj hlk.1).symm hne
  case isFalse hne =>
    refine (and_iff_left_of_imp fun hlk => ?_).symm
    rintro rfl
    exact hne (hu key' ((h key' val').mp hlk).1)

end

theorem lookup_foldl_erase (keys : List K) (tbl : Table K V) (key : K) :
    (keys.foldl (fun t k => t.erase k) tbl).lookup key =
      if key ∈ keys then none else tbl.lookup key := by
  induction keys generalizing tbl with
  | nil => simp
  | cons first rest ih =>
    rw [foldl_cons, ih, lookup_erase_eq]
    by_cases hr : key ∈ rest
    · rw [if_pos hr, if_pos (mem_cons_of_mem _ hr)]
    · rw [if_neg hr]
      by_cases hf : key = first
      · rw [if_pos hf, if_pos (hf ▸ mem_cons_self)]
      · rw [if_neg hf, if_neg (by simp [hf, hr])]

/-- Replace every value by its image. -/
def mapValues (f : V → V) (table : Table K V) : Table K V where
  entries := table.entries.map fun entry => ⟨entry.1, f entry.2⟩
  nodupKeys := by
    have h := table.nodupKeys
    rw [List.NodupKeys, List.keys] at h ⊢
    rwa [List.map_map]

omit [DecidableEq K] in
theorem entries_mapValues (f : V → V) (tbl : Table K V) :
    (tbl.mapValues f).entries = tbl.entries.map fun ent => ⟨ent.1, f ent.2⟩ :=
  rfl

theorem lookup_eq_some_iff {tbl : Table K V} {key val} :
    tbl.lookup key = some val ↔ (⟨key, val⟩ : Sigma fun _ : K => V) ∈ tbl.entries :=
  AList.mem_lookup_iff

theorem lookup_mapValues (f : V → V) (tbl : Table K V) (key : K) :
    (tbl.mapValues f).lookup key = (tbl.lookup key).map f := by
  apply Option.ext
  intro val
  rw [lookup_eq_some_iff, entries_mapValues, List.mem_map, Option.map_eq_some_iff]
  constructor
  · rintro ⟨ent, he, heq⟩
    obtain ⟨rfl, hv⟩ := Sigma.mk.inj heq
    exact ⟨ent.2, lookup_eq_some_iff.mpr he, eq_of_heq hv⟩
  · rintro ⟨val', hlk, rfl⟩
    exact ⟨⟨key, val'⟩, lookup_eq_some_iff.mp hlk, rfl⟩

end Table

namespace Enumeration

variable {K V : Type} [DecidableEq K] (enum : Enumeration)

/-- The entries of a table as an iteration visits them. -/
def entries (table : Table K V) : List (K × V) :=
  enum.order (table.entries.map fun entry => (entry.1, entry.2))

def values (table : Table K V) : List V :=
  (enum.entries table).map Prod.snd

theorem mem_order {α : Type} {items} {item : α} : item ∈ enum.order items ↔ item ∈ items :=
  (enum.perm items).mem_iff

@[simp] theorem order_nil {α : Type} : enum.order ([] : List α) = [] :=
  perm_nil.mp (enum.perm [])

omit [DecidableEq K] in
@[simp] theorem values_empty : enum.values (∅ : Table K V) = [] := by
  rw [values, entries]
  exact congrArg (map Prod.snd) enum.order_nil

theorem mem_entries {tbl : Table K V} {key} {val : V} :
    (key, val) ∈ enum.entries tbl ↔ tbl.lookup key = some val := by
  rw [entries, mem_order, Table.lookup_eq_some_iff, List.mem_map]
  constructor
  · rintro ⟨ent, he, heq⟩
    obtain ⟨rfl, rfl⟩ := Prod.mk.inj heq
    exact he
  · intro h
    exact ⟨_, h, rfl⟩

omit [DecidableEq K] in
theorem nodup_keys (tbl : Table K V) : ((enum.entries tbl).map Prod.fst).Nodup := by
  have hp := (enum.perm (tbl.entries.map fun ent => (ent.1, ent.2))).map Prod.fst
  rw [List.map_map] at hp
  exact hp.nodup_iff.mpr tbl.keys_nodup

theorem mem_values {tbl : Table K V} {val} :
    val ∈ enum.values tbl ↔ ∃ key, tbl.lookup key = some val := by
  rw [values, List.mem_map]
  constructor
  · rintro ⟨ent, he, rfl⟩
    exact ⟨ent.1, (enum.mem_entries).mp he⟩
  · rintro ⟨key, hk⟩
    exact ⟨(key, val), (enum.mem_entries).mpr hk, rfl⟩

omit [DecidableEq K] in
private theorem foldl_update_of_not_mem {A W : Type} [DecidableEq A] (f : W → V → W)
    {entries : List (A × V)} {key} (h : key ∉ entries.map Prod.fst) (cells : A → W) :
    entries.foldl (fun cells ent => Function.update cells ent.1 (f (cells ent.1) ent.2))
      cells key = cells key := by
  induction entries generalizing cells with
  | nil => rfl
  | cons ent rest ih =>
    rw [map_cons, mem_cons, not_or] at h
    rw [foldl_cons, ih h.2, Function.update_of_ne h.1]

/-- A pass over a table that changes the cell of each of its keys. -/
theorem foldl_update_entries {W : Type} (f : W → V → W) (tbl : Table K V) (cells : K → W)
    (key : K) :
    (enum.entries tbl).foldl
      (fun cells ent => Function.update cells ent.1 (f (cells ent.1) ent.2)) cells key =
      match tbl.lookup key with
      | none => cells key
      | some val => f (cells key) val := by
  have hn := enum.nodup_keys tbl
  cases hlk : tbl.lookup key with
  | none =>
    apply foldl_update_of_not_mem
    intro hm
    obtain ⟨⟨key', val⟩, he, rfl⟩ := mem_map.mp hm
    rw [enum.mem_entries.mp he] at hlk
    cases hlk
  | some val =>
    obtain ⟨front, rest, hsp⟩ := append_of_mem (enum.mem_entries.mpr hlk)
    rw [hsp, map_append, map_cons, nodup_append] at hn
    have hr := (nodup_cons.mp hn.2.1).1
    have hfr : key ∉ front.map Prod.fst := fun hm =>
      hn.2.2 key hm key mem_cons_self rfl
    rw [hsp, foldl_append, foldl_cons, foldl_update_of_not_mem f hr,
      Function.update_self, foldl_update_of_not_mem f hfr]

/-- Values that stand under one key each are visited once. -/
theorem nodup_values {tbl : Table K V}
    (h : ∀ key key' val, tbl.lookup key = some val → tbl.lookup key' = some val →
      key = key') : (enum.values tbl).Nodup := by
  have hen := List.Nodup.of_map Prod.fst (enum.nodup_keys tbl)
  apply List.Nodup.map_on _ hen
  rintro ⟨key, val⟩ he ⟨key', val'⟩ he' heq
  obtain rfl : val = val' := heq
  rw [h key key' val ((enum.mem_entries).mp he) ((enum.mem_entries).mp he')]

end Enumeration

end QtWebKit.Lib
