import QtWebKit.ContentExtensions.SerializedEntries
import Mathlib.Data.List.DropRight

/-!
# Serialized actions keep the meaning of a rule list

Every rule gets the location of an entry with its own action. The locations of
the `ignore-previous-rules` rules separate those of the rules before from those
of the rules after, so the walk over sorted locations stops where the last
matching `ignore-previous-rules` rule stands in the list.
-/

namespace QtWebKit.ContentExtensions

open List

/-! ### What a rule's entry holds -/

namespace ContentExtensionRule

def isIgnore (rule : ContentExtensionRule) : Bool :=
  rule.action.type = .ignorePreviousRules

/-- Selectors without domains are merged by trigger. -/
def isMergeable (rule : ContentExtensionRule) : Bool :=
  rule.action.type = .cssDisplayNoneSelector && rule.trigger.domains.isEmpty

theorem isIgnore_eq_false_of_isMergeable {rule : ContentExtensionRule}
    (h : rule.isMergeable = true) : rule.isIgnore = false := by
  simp only [isMergeable, Bool.and_eq_true, decide_eq_true_eq] at h
  simp [isIgnore, h.1]

end ContentExtensionRule

variable {rls : List ContentExtensionRule} {rule : ContentExtensionRule}

/-- The rules around a position, up to the nearest `ignore-previous-rules` rules
on both sides. -/
def segment (rules : List ContentExtensionRule) (i : Nat) : List ContentExtensionRule :=
  (rules.take i).rtakeWhile (fun rule => !rule.isIgnore) ++
    (rules.drop i).takeWhile (fun rule => !rule.isIgnore)

/-- The selectors of rules with a trigger, joined by commas. -/
def mergedCharacters (rules : List ContentExtensionRule) (trigger : Trigger) : List UInt16 :=
  intercalate [44]
    ((rules.filter fun rule => rule.isMergeable && rule.trigger = trigger).map
      fun rule => rule.action.stringArgument.characters)

/-- The characters of the action that is due to a rule. -/
def expectedCharacters (rules : List ContentExtensionRule) (i : Nat)
    (rule : ContentExtensionRule) : List UInt16 :=
  if rule.isMergeable then mergedCharacters (segment rules i) rule.trigger
  else if rule.action.type = .cssDisplayNoneSelector then rule.action.stringArgument.characters
  else []

theorem segment_concat {i} (hi : i < rls.length)
    (h : rule.isIgnore = true ∨ ∃ r ∈ rls.drop i, r.isIgnore = true) :
    segment (rls ++ [rule]) i = segment rls i := by
  rw [segment, segment, take_append_of_le_length hi.le, drop_append_of_le_length hi.le]
  congr 1
  rw [takeWhile_append]
  split_ifs with hn
  · have hsf := List.IsPrefix.eq_of_length ( takeWhile_prefix _) hn
    rcases h with hig | ⟨r, hr, hig⟩
    · rw [hsf, takeWhile_cons_of_neg (by simp [hig]), append_nil]
    · have hop := takeWhile_eq_self_iff.mp hsf r hr
      rw [hig] at hop
      cases hop
  · rfl

theorem expectedCharacters_concat {i} (hi : i < rls.length) {r : ContentExtensionRule}
    (h : rule.isIgnore = true ∨ r.isMergeable = false ∨ ∃ r' ∈ rls.drop i, r'.isIgnore = true) :
    expectedCharacters (rls ++ [rule]) i r = expectedCharacters rls i r := by
  rw [expectedCharacters, expectedCharacters]
  cases hg : r.isMergeable with
  | false => rfl
  | true =>
    rw [if_pos rfl, if_pos rfl, segment_concat hi]
    rcases h with h | h | h
    · exact .inl h
    · rw [hg] at h
      cases h
    · exact .inr h

/-! ### Rules whose selectors wait -/

/-- A selector that waits for its location. -/
def PendingAt (rules : List ContentExtensionRule) (i : Nat) : Prop :=
  ∃ rule, rules[i]? = some rule ∧ rule.isMergeable = true ∧
    ∀ r ∈ rules.drop i, r.isIgnore = false

theorem PendingAt.lt {i} (h : PendingAt rls i) : i < rls.length := by
  obtain ⟨rule, hru, -⟩ := h
  exact (List.getElem?_eq_some_iff.mp hru).1

theorem not_pendingAt_concat_ignore (h : rule.isIgnore = true) (i : Nat) :
    ¬ PendingAt (rls ++ [rule]) i := by
  intro hpn
  have hlt := hpn.lt
  obtain ⟨r, -, -, hls⟩ := hpn
  rw [length_append, length_singleton] at hlt
  have := hls rule (by
    rw [drop_append_of_le_length (by omega)]
    exact mem_append_right _ (mem_singleton_self rule))
  rw [h] at this
  cases this

theorem pendingAt_concat (h : rule.isIgnore = false) (i : Nat) :
    PendingAt (rls ++ [rule]) i ↔
      PendingAt rls i ∨ (i = rls.length ∧ rule.isMergeable = true) := by
  rcases lt_trichotomy i rls.length with hlt | rfl | hgt
  · simp only [PendingAt, getElem?_append_left hlt, drop_append_of_le_length hlt.le,
      forall_mem_append, forall_mem_singleton, h, and_true, hlt.ne, false_and, or_false]
  · simp [PendingAt, h]
  · have hnt : ¬ PendingAt (rls ++ [rule]) i := fun hpn => by
      have := hpn.lt
      simp only [length_append, length_singleton] at this
      omega
    have hnt' : ¬ PendingAt rls i := fun hpn => by
      have := hpn.lt
      omega
    simp only [hnt, hnt', false_or, false_iff, not_and]
    omega

theorem rtakeWhile_append_of_forall {α : Type} {p} (l : List α) {l'}
    (h : ∀ x ∈ l', p x = true) : (l ++ l').rtakeWhile p = l.rtakeWhile p ++ l' := by
  rw [rtakeWhile, rtakeWhile, reverse_append, takeWhile_append_of_pos fun x hx => h x
    (mem_reverse.mp hx), reverse_append, reverse_reverse]

/-- While a selector waits, its segment is still open. -/
theorem segment_of_pendingAt {i} (h : PendingAt rls i) :
    segment rls i = rls.rtakeWhile (fun rule => !rule.isIgnore) := by
  obtain ⟨rule, -, -, hls⟩ := h
  have hop : ∀ r ∈ rls.drop i, (!r.isIgnore) = true := fun r hr => by rw [hls r hr]; rfl
  rw [segment, takeWhile_eq_self_iff.mpr hop, ← rtakeWhile_append_of_forall _ hop, take_append_drop]

theorem getElem?_concat_cases {i r}
    (h : (rls ++ [rule])[i]? = some r) : rls[i]? = some r ∨ i = rls.length ∧ r = rule := by
  rw [List.getElem?_append] at h
  split_ifs at h with hlt
  · exact .inl h
  · obtain ⟨hi, rfl⟩ := List.getElem?_eq_some_iff.mp h
    rw [List.length_singleton] at hi
    exact .inr ⟨by omega, List.getElem_singleton hi⟩

/-! ### Locations of the rules -/

/-- A rule with the location assigned to it. -/
def RuleAt (rules : List ContentExtensionRule) (locations : List Nat) (i : Nat)
    (rule : ContentExtensionRule) (location : Nat) : Prop :=
  rules[i]? = some rule ∧ locations[i]? = some location

theorem RuleAt.lt {locs i loc} (h : RuleAt rls locs i rule loc) : i < rls.length :=
  (List.getElem?_eq_some_iff.mp h.1).1

theorem ruleAt_concat {locs : List Nat} (hn : locs.length = rls.length)
    (loc i : Nat) (r : ContentExtensionRule) (l : Nat) :
    RuleAt (rls ++ [rule]) (locs ++ [loc]) i r l ↔
      RuleAt rls locs i r l ∨ (i = rls.length ∧ r = rule ∧ l = loc) := by
  rcases lt_trichotomy i rls.length with hlt | rfl | hgt
  · rw [RuleAt, RuleAt, getElem?_append_left hlt, getElem?_append_left (by omega)]
    simp [hlt.ne]
  · rw [RuleAt, RuleAt, getElem?_concat_length, ← hn, getElem?_concat_length, hn]
    simp [eq_comm]
  · rw [RuleAt, RuleAt, getElem?_eq_none (by simp; omega), getElem?_eq_none hgt.le]
    simp [hgt.ne']

/-- Every rule that does not wait is stored, and the locations of
`ignore-previous-rules` rules separate those of the other rules. -/
structure Placed (rules : List ContentExtensionRule) (actions : List SerializedActionByte)
    (locations : List Nat) (waits : Nat → Prop) : Prop where
  length : locations.length = rules.length
  entry : ∀ i r l, RuleAt rules locations i r l → ¬ waits i →
    EntryAt actions l r.action.type (expectedCharacters rules i r)
  separated : ∀ i r l j r' l', RuleAt rules locations i r l → RuleAt rules locations j r' l' →
    ¬ waits i → ¬ waits j → r.isIgnore = false → r'.isIgnore = true →
    (i < j → l < l') ∧ (j < i → l' < l)
  waitsLast : ∀ i r, waits i → rules[i]? = some r →
    r.isIgnore = false ∧ ∀ j r', rules[j]? = some r' → r'.isIgnore = true → j < i

section

variable {acts : List SerializedActionByte} {locs : List Nat} {waits : Nat → Prop}

theorem Placed.lt_length (h : Placed rls acts locs waits) {i l}
    {r} (hat : RuleAt rls locs i r l) (hi : ¬ waits i) : l < acts.length :=
  (h.entry i r l hat hi).lt_length

theorem Placed.congr_waits {waits' : Nat → Prop} (h : Placed rls acts locs waits)
    (hif : ∀ i, waits i ↔ waits' i) : Placed rls acts locs waits' := by
  obtain rfl : waits = waits' := funext fun i => propext (hif i)
  exact h

/-- A rule is placed behind the other ones. -/
theorem Placed.concat (h : Placed rls acts locs waits) (more : List SerializedActionByte) {loc}
    (he : EntryAt (acts ++ more) loc rule.action.type
      (expectedCharacters (rls ++ [rule]) rls.length rule))
    (hwt : ∀ i, waits i → i < rls.length) (hex : ∀ i r, rls[i]? = some r → ¬ waits i →
      expectedCharacters (rls ++ [rule]) i r = expectedCharacters rls i r)
    (hig : rule.isIgnore = true → (∀ i, ¬ waits i) ∧
      ∀ i r l, RuleAt rls locs i r l → r.isIgnore = false → l < loc)
    (ho : rule.isIgnore = false → ∀ i r l, RuleAt rls locs i r l → r.isIgnore = true → l < loc) :
    Placed (rls ++ [rule]) (acts ++ more) (locs ++ [loc]) waits where
  length := by rw [length_append, length_append, h.length]; rfl
  entry i r l hat hi := by
    rcases (ruleAt_concat h.length loc i r l).mp hat with hd | ⟨rfl, rfl, rfl⟩
    · rw [hex i r hd.1 hi]
      exact (h.entry i r l hd hi).append more
    · exact he
  separated i r l j r' l' hai haj hni hnj hr hr' := by
    rcases (ruleAt_concat h.length loc i r l).mp hai with hi | ⟨rfl, rfl, rfl⟩ <;>
      rcases (ruleAt_concat h.length _ j r' l').mp haj with hj | ⟨rfl, rfl, rfl⟩
    · exact h.separated i r l j r' l' hi hj hni hnj hr hr'
    · have hlt := hi.lt
      exact ⟨fun _ => (hig hr').2 i r l hi hr, fun hgt => by omega⟩
    · have hlt := hj.lt
      exact ⟨fun hgt => by omega, fun _ => ho hr j r' l' hj hr'⟩
    · rw [hr] at hr'
      cases hr'
  waitsLast i r hi hat := by
    rw [getElem?_append_left (hwt i hi)] at hat
    obtain ⟨hr, hls⟩ := h.waitsLast i r hi hat
    refine ⟨hr, fun j r' hj hr' => ?_⟩
    rcases getElem?_concat_cases hj with hj | ⟨-, rfl⟩
    · exact hls j r' hj hr'
    · exact absurd hi ((hig hr').1 i)

/-- A selector starts to wait. -/
theorem Placed.concat_waits (h : Placed rls acts locs waits) (loc : Nat)
    (hru : rule.isIgnore = false) (hex : ∀ i r, rls[i]? = some r → ¬ waits i →
      expectedCharacters (rls ++ [rule]) i r = expectedCharacters rls i r)
    (hwt : ∀ i, waits i → i < rls.length) :
    Placed (rls ++ [rule]) acts (locs ++ [loc])
      (fun i => waits i ∨ i = rls.length) where
  length := by rw [length_append, length_append, h.length]; rfl
  entry i r l hat hi := by
    obtain ⟨hi, hne⟩ := not_or.mp hi
    rcases (ruleAt_concat h.length loc i r l).mp hat with hd | ⟨rfl, -, -⟩
    · rw [hex i r hd.1 hi]
      exact h.entry i r l hd hi
    · exact absurd rfl hne
  separated i r l j r' l' hi hj hni hnj hr hr' := by
    obtain ⟨hni, hne⟩ := not_or.mp hni
    obtain ⟨hnj, hne'⟩ := not_or.mp hnj
    rcases (ruleAt_concat h.length loc i r l).mp hi with hi | ⟨rfl, -, -⟩
    · rcases (ruleAt_concat h.length loc j r' l').mp hj with hj | ⟨rfl, -, -⟩
      · exact h.separated i r l j r' l' hi hj hni hnj hr hr'
      · exact absurd rfl hne'
    · exact absurd rfl hne
  waitsLast i r hi hat := by
    have hb : ∀ (j : Nat) (r' : ContentExtensionRule), (rls ++ [rule])[j]? = some r' →
        r'.isIgnore = true → rls[j]? = some r' := by
      intro j r' hj hr'
      rcases getElem?_concat_cases hj with hj | ⟨-, rfl⟩
      · exact hj
      · rw [hru] at hr'
        cases hr'
    rcases hi with hi | rfl
    · rw [getElem?_append_left (hwt i hi)] at hat
      obtain ⟨hr, hls⟩ := h.waitsLast i r hi hat
      exact ⟨hr, fun j r' hj hr' => hls j r' (hb j r' hj hr') hr'⟩
    · rw [List.getElem?_concat_length] at hat
      obtain rfl := Option.some.inj hat
      exact ⟨hru, fun j r' hj hr' => (List.getElem?_eq_some_iff.mp (hb j r' hj hr')).1⟩

end

/-! ### Resolving the selectors that wait -/

theorem getElem?_foldl_set (clients locs : List Nat) (loc i : Nat) :
    (clients.foldl (fun locs client => locs.set client loc) locs)[i]? =
      if i ∈ clients ∧ i < locs.length then some loc else locs[i]? := by
  induction clients generalizing locs with
  | nil => simp
  | cons client rest ih =>
    rw [foldl_cons, ih, length_set, getElem?_set]
    by_cases hi : i < locs.length
    · by_cases hc : client = i
      · simp [hc, hi]
      · by_cases hrs : i ∈ rest
        · simp [hrs, hi]
        · simp [hrs, hc, Ne.symm hc]
    · have hno := getElem?_eq_none (not_lt.mp hi)
      simp only [hi, and_false, if_false, hno]
      split_ifs <;> first | rfl | omega

theorem length_foldl_set (clients locs : List Nat) (loc : Nat) :
    (clients.foldl (fun locs client => locs.set client loc) locs).length =
      locs.length := by
  induction clients generalizing locs with
  | nil => rfl
  | cons client rest ih => rw [foldl_cons, ih, length_set]

theorem characters_foldl_combine (rest : List WTFString) (bld : WTFString) :
    (rest.foldl (fun bld sel => bld.appendComma.append sel) bld).characters =
      bld.characters ++ rest.flatMap fun sel => 44 :: sel.characters := by
  induction rest generalizing bld with
  | nil => rw [foldl_nil, flatMap_nil, append_nil]
  | cons sel rest ih => simp [ih, append_assoc]

theorem characters_combinedSelectors (selectors : List WTFString) :
    (combinedSelectors selectors).characters =
      intercalate [44] (selectors.map fun sel => sel.characters) := by
  cases selectors with
  | nil => rfl
  | cons first rest =>
    rw [combinedSelectors, characters_foldl_combine, WTFString.characters_append,
      WTFString.empty, nil_append]
    induction rest generalizing first with
    | nil => simp
    | cons snd rest ih =>
      have hrs := ih snd
      rw [map_cons] at hrs
      simp [intercalate_cons_cons, ← hrs]

/-- No rule waits in two slots. -/
def DisjointSlots (slots : PendingDisplayNoneActionsMap) : Prop :=
  slots.Pairwise fun slot slot' =>
    ∀ i ∈ slot.2.clientLocations, i ∉ slot'.2.clientLocations

variable {wr wr' : List SerializedActionByte × List Nat}

theorem resolveSlot_eq_some
    {slot : Trigger × PendingDisplayNoneActions} (h : resolveSlot wr slot = some wr') :
    wr' = (wr.1 ++ selectorBytes (combinedSelectors slot.2.selectors), slot.2.clientLocations.foldl
        (fun locs client => locs.set client wr.1.length) wr.2) := by
  rw [resolveSlot, serializeSelector, appendActions] at h
  split_ifs at h
  · exact (Option.some.inj h).symm
  · cases h

/-- What is known after some slots were resolved. -/
theorem foldlM_resolveSlot {slots : PendingDisplayNoneActionsMap} (hds : DisjointSlots slots)
    (h : slots.foldlM resolveSlot wr = some wr') :
    (∃ more, wr'.1 = wr.1 ++ more) ∧ wr'.2.length = wr.2.length ∧
      (∀ i, (∀ slot ∈ slots, i ∉ slot.2.clientLocations) → wr'.2[i]? = wr.2[i]?) ∧
      ∀ slot ∈ slots, ∀ i ∈ slot.2.clientLocations, i < wr.2.length →
        ∃ l, wr'.2[i]? = some l ∧ wr.1.length ≤ l ∧
          EntryAt wr'.1 l .cssDisplayNoneSelector
            (combinedSelectors slot.2.selectors).characters := by
  induction slots generalizing wr with
  | nil =>
    obtain rfl := Option.some.inj h
    exact ⟨⟨[], by rw [append_nil]⟩, rfl, fun _ _ => rfl, by simp⟩
  | cons slot rest ih =>
    rw [foldlM_cons] at h
    obtain ⟨next, hnx, h⟩ := Option.bind_eq_some_iff.mp h
    obtain rfl := resolveSlot_eq_some hnx
    rw [DisjointSlots, pairwise_cons] at hds
    obtain ⟨⟨more, hmr⟩, hn, hk, hrl⟩ := ih hds.2 h
    rw [length_foldl_set] at hn
    refine ⟨⟨_, by rw [hmr, append_assoc]⟩, hn, ?_, ?_⟩
    · intro i hi
      rw [forall_mem_cons] at hi
      rw [hk i hi.2, getElem?_foldl_set, if_neg (fun hm => hi.1 hm.1)]
    · intro slot' hsl' i hi hlt
      rcases mem_cons.mp hsl' with rfl | hrs
      · refine ⟨wr.1.length, ?_, le_rfl, ?_⟩
        · rw [hk i fun slot'' hsl'' => hds.1 slot'' hsl'' i hi, getElem?_foldl_set,
            if_pos ⟨hi, hlt⟩]
        · rw [hmr]
          exact (entryAt_length wr.1 .cssDisplayNoneSelector _).append more
      · obtain ⟨l, hl, hle, he⟩ := hrl slot' hrs i hi (by rwa [length_foldl_set])
        refine ⟨l, hl, le_trans ?_ hle, he⟩
        rw [length_append]
        exact Nat.le_add_right _ _

theorem eq_append_of_appendActions {acts bs acts'}
    (h : appendActions acts bs = some acts') : acts' = acts ++ bs := by
  rw [appendActions] at h
  split_ifs at h
  exact (Option.some.inj h).symm

theorem length_of_appendActions {acts bs acts' : List SerializedActionByte}
    (h : appendActions acts bs = some acts') : acts'.length ≤ maxUnsigned := by
  rw [appendActions] at h
  split_ifs at h with hft
  rw [← Option.some.inj h, length_append]
  exact hft

theorem length_of_foldlM_resolveSlot {slots : PendingDisplayNoneActionsMap}
    (hn : wr.1.length ≤ maxUnsigned)
    (h : slots.foldlM resolveSlot wr = some wr') : wr'.1.length ≤ maxUnsigned := by
  induction slots generalizing wr with
  | nil => rwa [← Option.some.inj h]
  | cons slot rest ih =>
    rw [foldlM_cons] at h
    obtain ⟨next, hnx, h⟩ := Option.bind_eq_some_iff.mp h
    refine ih ?_ h
    obtain ⟨acts, ha, rfl⟩ := Option.map_eq_some_iff.mp hnx
    exact length_of_appendActions ha

/-- The slots hold exactly the selectors that wait, by trigger. -/
structure PendingSlots (rules : List ContentExtensionRule) (slots : PendingDisplayNoneActionsMap) :
    Prop where
  distinct : (slots.map Prod.fst).Nodup
  selectors : ∀ slot ∈ slots, slot.2.selectors =
    ((rules.rtakeWhile fun rule => !rule.isIgnore).filter
      fun rule => rule.isMergeable && rule.trigger = slot.1).map fun rule =>
        rule.action.stringArgument
  clients : ∀ slot ∈ slots, ∀ i, i ∈ slot.2.clientLocations ↔
    PendingAt rules i ∧ ∃ rule, rules[i]? = some rule ∧ rule.trigger = slot.1
  complete : ∀ i rule, PendingAt rules i → rules[i]? = some rule → ∃ slot ∈ slots,
    slot.1 = rule.trigger

namespace PendingSlots

variable {slots : PendingDisplayNoneActionsMap}

theorem disjointSlots (h : PendingSlots rls slots) : DisjointSlots slots := by
  refine (pairwise_map.mp h.distinct).imp_of_mem ?_
  intro slot slot' hsl hsl' hne i hi hi'
  obtain ⟨-, r, hr, ht⟩ := (h.clients slot hsl i).mp hi
  obtain ⟨-, r', hr', ht'⟩ := (h.clients slot' hsl' i).mp hi'
  obtain rfl : r = r' := Option.some.inj (hr.symm.trans hr')
  exact hne (ht.symm.trans ht')

theorem perm (h : PendingSlots rls slots) {slots' : PendingDisplayNoneActionsMap}
    (hpr : slots'.Perm slots) : PendingSlots rls slots' where
  distinct := (hpr.map Prod.fst).nodup_iff.mpr h.distinct
  selectors slot hsl := h.selectors slot (hpr.mem_iff.mp hsl)
  clients slot hsl := h.clients slot (hpr.mem_iff.mp hsl)
  complete i rule hi hru := by
    obtain ⟨slot, hsl, ht⟩ := h.complete i rule hi hru
    exact ⟨slot, hpr.mem_iff.mpr hsl, ht⟩

/-- The characters written for a slot are those due to its rules. -/
theorem combined_eq (h : PendingSlots rls slots) {slot : Trigger × PendingDisplayNoneActions}
    (hsl : slot ∈ slots) {i} {r : ContentExtensionRule} (hi : PendingAt rls i)
    (hr : rls[i]? = some r) (ht : r.trigger = slot.1) :
    (combinedSelectors slot.2.selectors).characters = expectedCharacters rls i r := by
  have hg : r.isMergeable = true := by
    obtain ⟨r', hr', hg, -⟩ := hi
    rwa [← Option.some.inj (hr'.symm.trans hr)]
  rw [characters_combinedSelectors, h.selectors slot hsl, expectedCharacters, if_pos hg,
    segment_of_pendingAt hi, mergedCharacters, ht, map_map]
  rfl

theorem nil_of_ignore (hru : rule.isIgnore = true) : PendingSlots (rls ++ [rule]) [] where
  distinct := nodup_nil
  selectors := by simp
  clients := by simp
  complete i _ hi := absurd hi (not_pendingAt_concat_ignore hru i)

/-- Rules of other kinds do not change what waits. -/
theorem concat (h : PendingSlots rls slots) (hru : rule.isIgnore = false)
    (hg : rule.isMergeable = false) : PendingSlots (rls ++ [rule]) slots := by
  have hwt (i) : PendingAt (rls ++ [rule]) i ↔ PendingAt rls i := by
    rw [pendingAt_concat hru, hg]
    simp
  have hlk (i) (hi : PendingAt rls i) : (rls ++ [rule])[i]? = rls[i]? :=
    getElem?_append_left hi.lt
  refine ⟨h.distinct, fun slot hsl => ?_, fun slot hsl i => ?_, fun i r hi hr => ?_⟩
  · rw [h.selectors slot hsl, rtakeWhile_append_of_forall _ (by simp [hru]), filter_append]
    simp [hg]
  · rw [h.clients slot hsl i, hwt]
    constructor
    · rintro ⟨hi, hr⟩
      exact ⟨hi, by rwa [hlk i hi]⟩
    · rintro ⟨hi, hr⟩
      exact ⟨hi, by rwa [hlk i hi] at hr⟩
  · rw [hwt] at hi
    rw [hlk i hi] at hr
    exact h.complete i r hi hr

end PendingSlots

theorem map_fst_addPending (trig : Trigger) (sel : WTFString) (client : Nat)
    (slots : PendingDisplayNoneActionsMap) :
    (addPending trig sel client slots).map Prod.fst =
      if trig ∈ slots.map Prod.fst then slots.map Prod.fst else slots.map Prod.fst ++ [trig] := by
  induction slots with
  | nil => rfl
  | cons slot rest ih =>
    rw [addPending]
    by_cases hsl : slot.1 = trig
    · simp [hsl]
    · rw [if_neg hsl, map_cons, ih]
      simp only [map_cons, mem_cons, Ne.symm hsl, false_or]
      split_ifs <;> rfl

theorem mem_addPending {trig sel client}
    {slots : PendingDisplayNoneActionsMap} (hdt : (slots.map Prod.fst).Nodup)
    {slot : Trigger × PendingDisplayNoneActions} (h : slot ∈ addPending trig sel client slots) :
    (slot ∈ slots ∧ slot.1 ≠ trig) ∨
      (∃ pending, (trig, pending) ∈ slots ∧
        slot = (trig, ⟨pending.selectors ++ [sel], pending.clientLocations ++ [client]⟩)) ∨
      (trig ∉ slots.map Prod.fst ∧ slot = (trig, ⟨[sel], [client]⟩)) := by
  induction slots with
  | nil => exact .inr (.inr ⟨not_mem_nil, mem_singleton.mp h⟩)
  | cons first rest ih =>
    rw [map_cons, nodup_cons] at hdt
    rw [addPending] at h
    by_cases hfs : first.1 = trig
    · rw [if_pos hfs, mem_cons] at h
      rcases h with rfl | hrs
      · exact .inr (.inl ⟨first.2, by rw [← hfs]; exact mem_cons_self, by rw [hfs]⟩)
      · refine .inl ⟨mem_cons_of_mem _ hrs, fun heq => hdt.1 ?_⟩
        rw [hfs, ← heq]
        exact mem_map_of_mem hrs
    · rw [if_neg hfs, mem_cons] at h
      rcases h with rfl | hrs
      · exact .inl ⟨mem_cons_self, hfs⟩
      · rcases ih hdt.2 hrs with ⟨hm, hne⟩ | ⟨pending, hm, heq⟩ | ⟨hno, heq⟩
        · exact .inl ⟨mem_cons_of_mem _ hm, hne⟩
        · exact .inr (.inl ⟨pending, mem_cons_of_mem _ hm, heq⟩)
        · refine .inr (.inr ⟨?_, heq⟩)
          rw [map_cons, mem_cons, not_or]
          exact ⟨Ne.symm hfs, hno⟩

/-- A rule of the open segment waits if its kind does. -/
theorem exists_pendingAt {r : ContentExtensionRule}
    (hr : r ∈ rls.rtakeWhile fun rule => !rule.isIgnore) (hg : r.isMergeable = true) :
    ∃ i, rls[i]? = some r ∧ PendingAt rls i := by
  obtain ⟨front, hfr⟩ := rls.rtakeWhile_suffix fun rule => !rule.isIgnore
  obtain ⟨j, hj⟩ := mem_iff_getElem?.mp hr
  have hlk : rls[front.length + j]? = some r := by
    rw [← hfr, getElem?_append_right (Nat.le_add_right _ _), Nat.add_sub_cancel_left]
    exact hj
  refine ⟨front.length + j, hlk, r, hlk, hg, fun r' hr' => ?_⟩
  have hm : r' ∈ rls.rtakeWhile fun rule => !rule.isIgnore := by
    rw [← hfr, drop_append] at hr'
    rcases mem_append.mp hr' with hr' | hr'
    · rw [drop_eq_nil_of_le (Nat.le_add_right _ _)] at hr'
      cases hr'
    · exact mem_of_mem_drop hr'
  simpa using mem_rtakeWhile_imp hm

namespace PendingSlots

variable {slots : PendingDisplayNoneActionsMap}

/-- Every waiting rule has a slot of its trigger. -/
theorem mem_triggers (h : PendingSlots rls slots) {i r} (hp : PendingAt rls i)
    (hr : rls[i]? = some r) : r.trigger ∈ slots.map Prod.fst := by
  obtain ⟨slot, hsl, ht⟩ := h.complete i r hp hr
  exact ht ▸ mem_map_of_mem hsl

theorem filter_eq_nil_of_not_mem (h : PendingSlots rls slots) {trig}
    (hno : trig ∉ slots.map Prod.fst) :
    (rls.rtakeWhile fun rule => !rule.isIgnore).filter
      (fun r => r.isMergeable && r.trigger = trig) = [] := by
  rw [filter_eq_nil_iff]
  intro r hr hkn
  rw [Bool.and_eq_true, decide_eq_true_eq] at hkn
  obtain ⟨i, hi, hpn⟩ := exists_pendingAt hr hkn.1
  exact hno (hkn.2 ▸ h.mem_triggers hpn hi)

section

variable (hg : rule.isMergeable = true)

include hg

theorem filter_concat (trig : Trigger) :
    ((rls ++ [rule]).rtakeWhile fun rule => !rule.isIgnore).filter
        (fun r => r.isMergeable && r.trigger = trig) =
      ((rls.rtakeWhile fun rule => !rule.isIgnore).filter
        fun r => r.isMergeable && r.trigger = trig) ++
        if rule.trigger = trig then [rule] else [] := by
  have hru := ContentExtensionRule.isIgnore_eq_false_of_isMergeable hg
  rw [rtakeWhile_append_of_forall _ (by simp [hru]), filter_append]
  by_cases ht : rule.trigger = trig <;> simp [ht, hg]

theorem pendingAt_concat_trigger (trig : Trigger) (i : Nat) :
    (PendingAt (rls ++ [rule]) i ∧ ∃ r, (rls ++ [rule])[i]? = some r ∧ r.trigger = trig) ↔
      (PendingAt rls i ∧ ∃ r, rls[i]? = some r ∧ r.trigger = trig) ∨
        (i = rls.length ∧ rule.trigger = trig) := by
  rw [pendingAt_concat (ContentExtensionRule.isIgnore_eq_false_of_isMergeable hg), and_iff_left hg]
  by_cases hi : i = rls.length
  · subst hi
    have hnt : ¬ PendingAt rls rls.length := fun hp => absurd hp.lt (lt_irrefl _)
    simp [hnt]
  · constructor
    · rintro ⟨hp | rfl, r, hr, ht⟩
      · rw [getElem?_append_left hp.lt] at hr
        exact .inl ⟨hp, r, hr, ht⟩
      · exact absurd rfl hi
    · rintro (⟨hp, r, hr, ht⟩ | ⟨heq, -⟩)
      · exact ⟨.inl hp, r, by rwa [getElem?_append_left hp.lt], ht⟩
      · exact absurd heq hi

/-- A selector joins the slot of its trigger. -/
theorem add (h : PendingSlots rls slots) :
    PendingSlots (rls ++ [rule])
      (addPending rule.trigger rule.action.stringArgument rls.length slots) := by
  have hks := map_fst_addPending rule.trigger rule.action.stringArgument rls.length slots
  refine ⟨?_, fun slot hsl => ?_, fun slot hsl i => ?_, fun i r hi hr => ?_⟩
  · rw [hks]
    split_ifs with hm
    · exact h.distinct
    · rw [← concat_eq_append, nodup_concat]
      exact ⟨hm, h.distinct⟩
  · rw [filter_concat hg]
    rcases mem_addPending h.distinct hsl with ⟨hd, hne⟩ | ⟨pending, hd, rfl⟩ | ⟨hno, rfl⟩
    · rw [if_neg (Ne.symm hne), append_nil]
      exact h.selectors slot hd
    · rw [if_pos rfl, map_append, ← h.selectors _ hd]
      rfl
    · rw [h.filter_eq_nil_of_not_mem hno, if_pos rfl]
      rfl
  · rw [pendingAt_concat_trigger hg]
    rcases mem_addPending h.distinct hsl with ⟨hd, hne⟩ | ⟨pending, hd, rfl⟩ | ⟨hno, rfl⟩
    · rw [h.clients slot hd i]
      simp [Ne.symm hne]
    · have hd' := h.clients _ hd i
      simp [hd']
    · have hnt : ¬ (PendingAt rls i ∧ ∃ r, rls[i]? = some r ∧ r.trigger = rule.trigger) := by
        rintro ⟨hp, r, hr, ht⟩
        exact hno (ht ▸ h.mem_triggers hp hr)
      simp [hnt]
  · have hm : r.trigger ∈ (addPending rule.trigger rule.action.stringArgument rls.length
        slots).map Prod.fst := by
      rw [hks]
      rcases (pendingAt_concat_trigger hg r.trigger i).mp ⟨hi, r, hr, rfl⟩ with
        ⟨hp, r', hr', ht⟩ | ⟨-, ht⟩
      · have hd : r.trigger ∈ slots.map Prod.fst := ht ▸ h.mem_triggers hp hr'
        split_ifs
        · exact hd
        · exact mem_append_left _ hd
      · split_ifs with hd
        · rwa [← ht]
        · rw [← ht]
          exact mem_append_right _ (mem_singleton_self _)
    obtain ⟨slot, hsl, ht⟩ := mem_map.mp hm
    exact ⟨slot, hsl, ht⟩

end

end PendingSlots

/-- Resolving gives every waiting rule its location behind the other ones. -/
theorem Placed.resolve {acts acts' locs locs'} {slots slots' : PendingDisplayNoneActionsMap}
    (h : Placed rls acts locs (PendingAt rls)) (hss : PendingSlots rls slots)
    (hpr : slots'.Perm slots) (hfl : slots'.foldlM resolveSlot (acts, locs) = some (acts', locs')) :
    (∃ more, acts' = acts ++ more) ∧
      (∀ i, ¬ PendingAt rls i → locs'[i]? = locs[i]?) ∧
      Placed rls acts' locs' (fun _ => False) := by
  have hss' := hss.perm hpr
  obtain ⟨⟨more, hmr⟩, hn, hk, hrl⟩ :=
    foldlM_resolveSlot hss'.disjointSlots hfl
  have hk' (i) (hi : ¬ PendingAt rls i) : locs'[i]? = locs[i]? :=
    hk i fun slot hsl hm => hi ((hss'.clients slot hsl i).mp hm).1
  have hd {i l} {r} (hat : RuleAt rls locs' i r l)
      (hi : ¬ PendingAt rls i) : RuleAt rls locs i r l :=
    ⟨hat.1, by rw [← hk' i hi]; exact hat.2⟩
  have hw {i l} {r : ContentExtensionRule} (hat : RuleAt rls locs' i r l)
      (hi : PendingAt rls i) : acts.length ≤ l ∧
        EntryAt acts' l r.action.type (expectedCharacters rls i r) := by
    obtain ⟨slot, hsl, ht⟩ := hss'.complete i r hi hat.1
    have hc := (hss'.clients slot hsl i).mpr ⟨hi, r, hat.1, ht.symm⟩
    obtain ⟨l', hl', hle, he⟩ := hrl slot hsl i hc (h.length ▸ hi.lt)
    obtain rfl : l' = l := Option.some.inj (hl'.symm.trans hat.2)
    have hty : r.action.type = .cssDisplayNoneSelector := by
      obtain ⟨r', hr', hg, -⟩ := hi
      rw [← Option.some.inj (hr'.symm.trans hat.1)]
      simp only [ContentExtensionRule.isMergeable, Bool.and_eq_true, decide_eq_true_eq] at hg
      exact hg.1
    rw [hss'.combined_eq hsl hi hat.1 ht.symm] at he
    exact ⟨hle, hty ▸ he⟩
  refine ⟨⟨more, hmr⟩, hk', ?_⟩
  exact {
    length := hn.trans h.length
    entry := fun i r l hat _ => by
      by_cases hi : PendingAt rls i
      · exact (hw hat hi).2
      · change acts' = acts ++ more at hmr
        rw [hmr]
        exact (h.entry i r l (hd hat hi) hi).append more
    separated := fun i r l j r' l' hai haj _ _ hr hr' => by
      have hj : ¬ PendingAt rls j := fun hj => by
        rw [(h.waitsLast j r' hj haj.1).1] at hr'
        cases hr'
      by_cases hi : PendingAt rls i
      · have hls := (h.waitsLast i r hi hai.1).2 j r' haj.1 hr'
        have hlt := h.lt_length (hd haj hj) hj
        have hle := (hw hai hi).1
        exact ⟨fun hij => by omega, fun _ => by omega⟩
      · exact h.separated i r l j r' l' (hd hai hi) (hd haj hj) hi hj hr hr'
    waitsLast := fun i r hi => hi.elim }

/-! ### One rule -/

/-- The characters of an action that is not merged. -/
def ownCharacters (rule : ContentExtensionRule) : List UInt16 :=
  if rule.action.type = .cssDisplayNoneSelector then rule.action.stringArgument.characters else []

theorem expectedCharacters_of_not_mergeable (rls : List ContentExtensionRule) (i : Nat)
    (h : rule.isMergeable = false) : expectedCharacters rls i rule = ownCharacters rule := by
  rw [expectedCharacters, if_neg (by simp [h])]
  rfl

/-- How a rule that is not merged changes the state. -/
structure Places (rule : ContentExtensionRule) (state state' : SerializeState) (location : Nat) :
    Prop where
  actions : ∃ more, state'.actions = state.actions ++ more
  fits : state'.actions = state.actions ∨ state'.actions.length ≤ maxUnsigned
  locations : state'.actionLocations = state.actionLocations ++ [location]
  pending : state'.cssDisplayNoneActionsMap = state.cssDisplayNoneActionsMap
  entry : EntryAt state'.actions location rule.action.type (ownCharacters rule)
  fresh : location = state.actions.length ∨
    ∃ flags, (flags, location) ∈ state.actionMap rule.action.type
  maps : ∀ type flags l, (flags, l) ∈ state'.actionMap type →
    (flags, l) ∈ state.actionMap type ∨
      (type = rule.action.type ∧ l = location ∧ ownCharacters rule = [])

variable {st st' : SerializeState} {order : SlotOrder}

theorem places_pushAction (h : pushAction st rule.action = some st') :
    Places rule st st' st.actions.length := by
  have hby : ∃ string : WTFString, (if rule.action.type = .cssDisplayNoneSelector then
        string.characters else []) = ownCharacters rule ∧
      appendActions st.actions (entryBytes rule.action.type string) = some st'.actions ∧
      st' = { st with
        actions := st'.actions
        actionLocations := st.actionLocations ++ [st.actions.length] } := by
    rw [pushAction, Option.map_eq_some_iff] at h
    obtain ⟨acts, ha, rfl⟩ := h
    refine ⟨rule.action.stringArgument, rfl, ?_, rfl⟩
    rw [entryBytes, ← ha, serializeSelector]
    split_ifs <;> rfl
  obtain ⟨string, hch, ha, hst⟩ := hby
  have hft := length_of_appendActions ha
  obtain ha := eq_append_of_appendActions ha
  rw [hst]
  refine ⟨⟨_, ha⟩, .inr hft, rfl, rfl, ?_, .inl rfl, fun type flags l hm => .inl ?_⟩
  · rw [← hch, ha]
    exact entryAt_length st.actions rule.action.type string
  · cases type <;> exact hm

theorem mem_of_lookup {map : ActionMap} {flags loc}
    (h : map.lookup flags = some loc) : (flags, loc) ∈ map := by
  induction map with
  | nil => cases h
  | cons ent rest ih =>
    rw [lookup_cons] at h
    split at h
    · rename_i heq
      rw [beq_iff_eq] at heq
      rw [heq, ← Option.some.inj h]
      exact mem_cons_self
    · exact mem_cons_of_mem _ (ih h)

theorem mem_actionMap_setActionMap {map type type' ent}
    (h : ent ∈ (st.setActionMap map type).actionMap type') :
    (type' = type ∧ ent ∈ map) ∨ ent ∈ st.actionMap type' := by
  cases type <;> cases type' <;> first | exact .inr h | exact .inl ⟨rfl, h⟩

theorem places_findOrMake (hkn : rule.action.type ≠ .cssDisplayNoneSelector)
    (hsh : ∀ flags l, (flags, l) ∈ st.actionMap rule.action.type →
      EntryAt st.actions l rule.action.type [])
    (h : findOrMakeActionLocation st rule.action.type rule.trigger.flags = some st') :
    ∃ loc, Places rule st st' loc := by
  have how : ownCharacters rule = [] := if_neg hkn
  rw [findOrMakeActionLocation] at h
  cases hlk : (st.actionMap rule.action.type).lookup rule.trigger.flags with
  | some loc =>
    rw [hlk] at h
    obtain rfl := Option.some.inj h
    have hm := mem_of_lookup hlk
    refine ⟨loc, ⟨[], by rw [append_nil]⟩, .inl rfl, rfl, rfl, ?_, .inr ⟨_, hm⟩,
      fun type flags l hm => .inl ?_⟩
    · rw [how]
      exact hsh _ _ hm
    · cases type <;> exact hm
  | none =>
    rw [hlk] at h
    obtain ⟨acts, ha, rfl⟩ := Option.map_eq_some_iff.mp h
    have hft := length_of_appendActions ha
    obtain rfl := eq_append_of_appendActions ha
    have he := entryAt_length st.actions rule.action.type WTFString.empty
    rw [entryBytes, if_neg hkn, if_neg hkn] at he
    refine ⟨st.actions.length, ⟨_, rfl⟩, .inr hft, rfl, ?_, ?_, .inl rfl, ?_⟩
    · cases rule.action.type <;> rfl
    · rw [how]
      exact he
    · intro type flags l hm
      have hm : (flags, l) ∈ (st.setActionMap ((rule.trigger.flags, st.actions.length) ::
          st.actionMap rule.action.type) rule.action.type).actionMap type := by
        cases type <;> exact hm
      rcases mem_actionMap_setActionMap hm with ⟨hty, hm⟩ | hd
      · rcases mem_cons.mp hm with hw | hd
        · exact .inr ⟨hty, (Prod.mk.inj hw).2, how⟩
        · exact .inl (hty ▸ hd)
      · exact .inl hd

theorem places_of_not_mergeable (hg : rule.isMergeable = false)
    (hsh : ∀ flags l, (flags, l) ∈ st.actionMap rule.action.type →
      EntryAt st.actions l rule.action.type [])
    (h : (if rule.trigger.domains ≠ [] then pushAction st rule.action
      else placeAction st rule) = some st') : ∃ loc, Places rule st st' loc := by
  by_cases hdm : rule.trigger.domains = []
  · have hkn : rule.action.type ≠ .cssDisplayNoneSelector := by
      intro hcs
      simp [ContentExtensionRule.isMergeable, hcs, hdm] at hg
    rw [if_neg (not_not.mpr hdm), placeAction] at h
    have hfn : findOrMakeActionLocation st rule.action.type rule.trigger.flags = some st' := by
      cases hty : rule.action.type <;> rw [hty] at h hkn <;>
        first | exact h | exact absurd rfl hkn | cases h
    exact places_findOrMake hkn hsh hfn
  · rw [if_pos hdm] at h
    exact ⟨_, places_pushAction h⟩

/-- What holds between two rules. -/
structure SerializeInvariant (rules : List ContentExtensionRule) (state : SerializeState) :
    Prop where
  fits : state.actions.length ≤ maxUnsigned
  placed : Placed rules state.actions state.actionLocations (PendingAt rules)
  pending : PendingSlots rules state.cssDisplayNoneActionsMap
  shared : ∀ type flags location, (flags, location) ∈ state.actionMap type →
    EntryAt state.actions location type []
  sharedIgnore : ∀ flags location, (flags, location) ∈ state.actionMap .ignorePreviousRules →
    (∀ i, ¬ PendingAt rules i) ∧ ∀ i r l, RuleAt rules state.actionLocations i r l →
      r.isIgnore = false → l < location
  sharedOther : ∀ type flags location, type ≠ .ignorePreviousRules →
    (flags, location) ∈ state.actionMap type →
    ∀ i r l, RuleAt rules state.actionLocations i r l → r.isIgnore = true → l < location

theorem serializeInvariant_initial : SerializeInvariant [] SerializeState.initial := by
  have hno (type) : SerializeState.initial.actionMap type = [] := by
    cases type <;> rfl
  refine ⟨Nat.zero_le _, ⟨rfl, ?_, ?_, ?_⟩, ⟨nodup_nil, ?_, ?_, ?_⟩, ?_, ?_, ?_⟩
  case refine_7 | refine_8 | refine_9 => simp [hno]
  all_goals simp [RuleAt, PendingAt, SerializeState.initial]

theorem clearMaps_ignore (h : clearMaps order st .ignorePreviousRules = some st') :
    (order.visit st.actions st.cssDisplayNoneActionsMap).foldlM resolveSlot
        (st.actions, st.actionLocations) = some (st'.actions, st'.actionLocations) ∧
      st'.cssDisplayNoneActionsMap = [] ∧
      ∀ type, st'.actionMap type =
        if type = .ignorePreviousRules then st.actionMap type else [] := by
  rw [clearMaps, if_pos rfl, resolvePendingDisplayNoneActions, Option.map_map,
    Option.map_eq_some_iff] at h
  obtain ⟨⟨acts, locs⟩, hfl, rfl⟩ := h
  refine ⟨hfl, rfl, fun type => ?_⟩
  cases type <;> rfl

theorem clearMaps_other {type} (h : type ≠ .ignorePreviousRules) :
    clearMaps order st type = some { st with ignorePreviousRuleActionsMap := [] } :=
  if_neg h

theorem ruleAt_old_of_ignore_ne {locs : List Nat} (hn : locs.length = rls.length)
    {loc i l} {r : ContentExtensionRule} (hne : r.isIgnore ≠ rule.isIgnore)
    (hat : RuleAt (rls ++ [rule]) (locs ++ [loc]) i r l) : RuleAt rls locs i r l := by
  rcases (ruleAt_concat hn loc i r l).mp hat with hd | ⟨-, rfl, -⟩
  · exact hd
  · exact absurd rfl hne

/-- An `ignore-previous-rules` rule. -/
theorem SerializeInvariant.ignore (h : SerializeInvariant rls st) (hru : rule.isIgnore = true)
    (hs : serializeRule order st rule = some st') : SerializeInvariant (rls ++ [rule]) st' := by
  have hty : rule.action.type = .ignorePreviousRules := by
    simpa [ContentExtensionRule.isIgnore] using hru
  have hg : rule.isMergeable = false := by
    simp [ContentExtensionRule.isMergeable, hty]
  obtain ⟨cleared, hcr, hpl⟩ := Option.bind_eq_some_iff.mp hs
  rw [hty] at hcr
  obtain ⟨hfl, hcs, hmp⟩ := clearMaps_ignore hcr
  obtain ⟨⟨wr, hwr⟩, hk, hpc⟩ := h.placed.resolve h.pending (order.perm _ _) hfl
  have hsh : ∀ flags l, (flags, l) ∈ cleared.actionMap .ignorePreviousRules →
      EntryAt cleared.actions l .ignorePreviousRules [] ∧
        ∀ i r l', RuleAt rls cleared.actionLocations i r l' → r.isIgnore = false → l' < l := by
    intro flags l hm
    rw [hmp, if_pos rfl] at hm
    obtain ⟨hno, hlt⟩ := h.sharedIgnore flags l hm
    refine ⟨?_, fun i r l' hat hr => ?_⟩
    · rw [hwr]
      exact (h.shared _ flags l hm).append wr
    · exact hlt i r l' ⟨hat.1, by rw [← hk i (hno i)]; exact hat.2⟩ hr
  obtain ⟨loc, hp⟩ := places_of_not_mergeable hg
    (fun flags l hm => by rw [hty] at hm ⊢; exact (hsh flags l hm).1) hpl
  obtain ⟨more, hmr⟩ := hp.actions
  have hbh : ∀ i r l, RuleAt rls cleared.actionLocations i r l → r.isIgnore = false →
      l < loc := by
    intro i r l hat hr
    rcases hp.fresh with rfl | ⟨flags, hm⟩
    · exact hpc.lt_length hat id
    · rw [hty] at hm
      exact (hsh flags loc hm).2 i r l hat hr
  have he := hp.entry
  rw [← expectedCharacters_of_not_mergeable (rls ++ [rule]) rls.length hg, hmr] at he
  refine ⟨?_, ?_, ?_, ?_, ?_, ?_⟩
  · rcases hp.fits with hsm | hft
    · rw [hsm]
      exact length_of_foldlM_resolveSlot h.fits hfl
    · exact hft
  · rw [hmr, hp.locations]
    refine (hpc.concat more he (fun _ hf => hf.elim) ?_ (fun _ => ⟨fun _ => id, hbh⟩)
      ?_).congr_waits fun i => iff_of_false id (not_pendingAt_concat_ignore hru i)
    · intro i r hi _
      exact expectedCharacters_concat (List.getElem?_eq_some_iff.mp hi).1 (.inl hru)
    · intro hfa
      rw [hru] at hfa
      cases hfa
  · rw [hp.pending, hcs]
    exact PendingSlots.nil_of_ignore hru
  · intro type flags l hm
    rcases hp.maps type flags l hm with hd | ⟨rfl, rfl, how⟩
    · rw [hmp] at hd
      split_ifs at hd with hig
      · subst hig
        rw [hmr]
        exact ((hsh flags l (by rw [hmp, if_pos rfl]; exact hd)).1).append more
      · cases hd
    · rw [← how]
      exact hp.entry
  · intro flags l hm
    refine ⟨not_pendingAt_concat_ignore hru, fun i r l' hat hr => ?_⟩
    rw [hp.locations] at hat
    have hd := ruleAt_old_of_ignore_ne hpc.length (by rw [hr, hru]; exact Bool.false_ne_true)
      hat
    rcases hp.maps _ flags l hm with hm | ⟨-, rfl, -⟩
    · exact (hsh flags l hm).2 i r l' hd hr
    · exact hbh i r l' hd hr
  · intro type flags l hne hm
    rcases hp.maps type flags l hm with hd | ⟨rfl, -, -⟩
    · rw [hmp, if_neg hne] at hd
      cases hd
    · exact absurd hty hne

theorem expectedCharacters_of_not_pending {i r} (hr : rls[i]? = some r) (hi : ¬ PendingAt rls i) :
    expectedCharacters (rls ++ [rule]) i r = expectedCharacters rls i r := by
  apply expectedCharacters_concat (List.getElem?_eq_some_iff.mp hr).1
  right
  by_contra hop
  rw [not_or, Bool.not_eq_false, not_exists] at hop
  refine hi ⟨r, hr, hop.1, fun r' hr' => ?_⟩
  have := hop.2 r'
  rw [not_and, Bool.not_eq_true] at this
  exact this hr'

theorem SerializeInvariant.lt_length_of_isIgnore
    (h : SerializeInvariant rls st) {i l} {r : ContentExtensionRule}
    (hat : RuleAt rls st.actionLocations i r l) (hr : r.isIgnore = true) :
    l < st.actions.length := by
  refine h.placed.lt_length hat fun hi => ?_
  rw [(h.placed.waitsLast i r hi hat.1).1] at hr
  cases hr

/-- A rule of another kind whose action is not merged. -/
theorem SerializeInvariant.other (h : SerializeInvariant rls st) (hru : rule.isIgnore = false)
    (hg : rule.isMergeable = false) (hs : serializeRule order st rule = some st') :
    SerializeInvariant (rls ++ [rule]) st' := by
  have hty : rule.action.type ≠ .ignorePreviousRules := by
    simpa [ContentExtensionRule.isIgnore] using hru
  rw [serializeRule, clearMaps_other hty, Option.bind_some] at hs
  set cleared : SerializeState := { st with ignorePreviousRuleActionsMap := [] } with hclr
  have hmp (type) (hne : type ≠ .ignorePreviousRules) :
      cleared.actionMap type = st.actionMap type := by
    cases type <;> first | rfl | exact absurd rfl hne
  have hsh : ∀ flags l, (flags, l) ∈ cleared.actionMap rule.action.type →
      EntryAt cleared.actions l rule.action.type [] := by
    intro flags l hm
    rw [hmp _ hty] at hm
    exact h.shared _ flags l hm
  obtain ⟨loc, hp⟩ := places_of_not_mergeable hg hsh hs
  obtain ⟨more, hmr⟩ := hp.actions
  have hbh : ∀ i r l, RuleAt rls st.actionLocations i r l → r.isIgnore = true → l < loc := by
    intro i r l hat hr
    rcases hp.fresh with rfl | ⟨flags, hm⟩
    · exact h.lt_length_of_isIgnore hat hr
    · rw [hmp _ hty] at hm
      exact h.sharedOther _ flags loc hty hm i r l hat hr
  have he := hp.entry
  rw [← expectedCharacters_of_not_mergeable (rls ++ [rule]) rls.length hg, hmr] at he
  refine ⟨?_, ?_, ?_, ?_, ?_, ?_⟩
  · rcases hp.fits with hsm | hft
    · rw [hsm]
      exact h.fits
    · exact hft
  · rw [hmr, hp.locations]
    refine (h.placed.concat more he (fun _ hi => hi.lt)
      (fun i r hr hi => expectedCharacters_of_not_pending hr hi) ?_ (fun _ => hbh)).congr_waits
      fun i => ?_
    · intro htr
      rw [hru] at htr
      cases htr
    · rw [pendingAt_concat hru, hg]
      simp
  · rw [hp.pending]
    exact h.pending.concat hru hg
  · intro type flags l hm
    rcases hp.maps type flags l hm with hd | ⟨rfl, rfl, how⟩
    · have hne : type ≠ .ignorePreviousRules := by
        rintro rfl
        cases hd
      rw [hmr]
      exact (h.shared type flags l (by rwa [hmp type hne] at hd)).append more
    · rw [← how]
      exact hp.entry
  · intro flags l hm
    rcases hp.maps _ flags l hm with hd | ⟨hig, -, -⟩
    · cases hd
    · exact absurd hig.symm hty
  · intro type flags l hne hm i r l' hat hr
    rw [hp.locations] at hat
    have hd := ruleAt_old_of_ignore_ne h.placed.length
      (by rw [hr, hru]; exact Bool.false_ne_true.symm) hat
    rcases hp.maps type flags l hm with hm | ⟨-, rfl, -⟩
    · exact h.sharedOther type flags l hne (by rwa [hmp type hne] at hm) i r l' hd hr
    · exact hbh i r l' hd hr

/-- A selector that will be merged. -/
theorem SerializeInvariant.mergeable (h : SerializeInvariant rls st) (hg : rule.isMergeable = true)
    (hs : serializeRule order st rule = some st') : SerializeInvariant (rls ++ [rule]) st' := by
  have hru := ContentExtensionRule.isIgnore_eq_false_of_isMergeable hg
  simp only [ContentExtensionRule.isMergeable, Bool.and_eq_true, decide_eq_true_eq,
    List.isEmpty_iff] at hg
  rw [serializeRule, clearMaps_other (by rw [hg.1]; decide), Option.bind_some,
    if_neg (not_not.mpr hg.2), placeAction, hg.1] at hs
  obtain rfl := Option.some.inj hs
  have hg : rule.isMergeable = true := by
    simp [ContentExtensionRule.isMergeable, hg]
  have hmp (type : ActionType) (flags : ResourceFlags) (l : Nat)
      (hm : (flags, l) ∈ (addPendingSelector { st with ignorePreviousRuleActionsMap := [] }
        rule).actionMap type) :
      type ≠ .ignorePreviousRules ∧ (flags, l) ∈ st.actionMap type := by
    cases type <;> first | exact ⟨by decide, hm⟩ | cases hm
  refine ⟨h.fits, ?_, ?_, ?_, ?_, ?_⟩
  · refine (h.placed.concat_waits maxUnsigned hru
      (fun i r hr hi => expectedCharacters_of_not_pending hr hi) fun _ hi => hi.lt).congr_waits
      fun i => ?_
    rw [pendingAt_concat hru, and_iff_left hg]
  · have had := h.pending.add hg
    rwa [← h.placed.length] at had
  · intro type flags l hm
    exact h.shared type flags l (hmp type flags l hm).2
  · intro flags l hm
    exact absurd rfl (hmp _ flags l hm).1
  · intro type flags l hne hm i r l' hat hr
    have hd := ruleAt_old_of_ignore_ne h.placed.length
      (by rw [hr, hru]; exact Bool.false_ne_true.symm) hat
    exact h.sharedOther type flags l hne (hmp type flags l hm).2 i r l' hd hr

/-- The invariant holds after every rule. -/
theorem SerializeInvariant.step
    (h : SerializeInvariant rls st) (hs : serializeRule order st rule = some st') :
    SerializeInvariant (rls ++ [rule]) st' := by
  cases hru : rule.isIgnore with
  | true => exact h.ignore hru hs
  | false =>
    cases hg : rule.isMergeable with
    | true => exact h.mergeable hg hs
    | false => exact h.other hru hg hs

theorem serializeInvariant_foldlM
    (h : rls.foldlM (serializeRule order) SerializeState.initial = some st) :
    SerializeInvariant rls st := by
  induction rls using reverseRecOn generalizing st with
  | nil =>
    obtain rfl := Option.some.inj h
    exact serializeInvariant_initial
  | append_singleton rls rule ih =>
    rw [foldlM_append] at h
    obtain ⟨pre, hb, hs⟩ := Option.bind_eq_some_iff.mp h
    rw [foldlM_cons] at hs
    obtain ⟨after, haf, hpu⟩ := Option.bind_eq_some_iff.mp hs
    obtain rfl := Option.some.inj hpu
    exact (ih hb).step haf

/-- Every rule of the list is placed in the end. -/
theorem placed_serializeActions {locs} {acts : List SerializedActionByte}
    (h : serializeActions order rls = some (locs, acts)) :
    acts.length ≤ maxUnsigned ∧ Placed rls acts locs fun _ => False := by
  rw [serializeActions, Option.map_eq_some_iff] at h
  obtain ⟨final, hfin, heq⟩ := h
  obtain ⟨st, hst, hrv⟩ := Option.bind_eq_some_iff.mp hfin
  rw [resolvePendingDisplayNoneActions, Option.map_eq_some_iff] at hrv
  obtain ⟨wr, hfl, rfl⟩ := hrv
  obtain ⟨rfl, rfl⟩ := Prod.mk.inj heq
  have hin := serializeInvariant_foldlM hst
  exact ⟨length_of_foldlM_resolveSlot hin.fits hfl,
    (hin.placed.resolve hin.pending (order.perm _ _) hfl).2.2⟩

end QtWebKit.ContentExtensions
