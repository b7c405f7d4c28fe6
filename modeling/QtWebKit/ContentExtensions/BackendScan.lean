import QtWebKit.ContentExtensions.SerializeActionsCorrect
import Mathlib.Algebra.BigOperators.Group.List.Basic
import Mathlib.Tactic.IntervalCases

/-!
# The backend's walk over serialized actions

The walk over the sorted locations of the rules that match a load collects the
actions of exactly those rules that follow the last matching
`ignore-previous-rules` rule.
-/

namespace QtWebKit.ContentExtensions

open List

/-! ### The walk -/

/-- The walk over descending locations collects what lies above every
`ignore-previous-rules` entry. -/
theorem scanActions_spec (ident : List UInt16) (acts : List SerializedActionByte)
    (act : Nat → Action) {locs : List Nat} (hs : locs.Pairwise (· ≥ ·))
    (hrd : ∀ l ∈ locs, Action.deserialize acts l = some (act l)) :
    ∃ out saw, scanActions ident acts locs = some (out, saw) ∧
      (saw = true ↔ ∃ l ∈ locs, (act l).type = .ignorePreviousRules) ∧
      ∀ a, a ∈ out ↔ ∃ l ∈ locs,
        (∀ l' ∈ locs, (act l').type = .ignorePreviousRules → l' < l) ∧
          a = (act l).setExtensionIdentifier ident := by
  induction locs with
  | nil => exact ⟨[], false, rfl, by simp, by simp⟩
  | cons l rest ih =>
    rw [pairwise_cons] at hs
    rw [forall_mem_cons] at hrd
    rw [scanActions, hrd.1]
    by_cases ht : (act l).type = .ignorePreviousRules
    · refine ⟨[], true, if_pos ht, ?_, fun a => ?_⟩
      · exact iff_of_true rfl ⟨l, mem_cons_self, ht⟩
      · refine iff_of_false not_mem_nil ?_
        rintro ⟨l', hl', hab, -⟩
        have hlt := hab l mem_cons_self ht
        rcases mem_cons.mp hl' with rfl | hr
        · exact lt_irrefl _ hlt
        · exact absurd (hs.1 l' hr) (not_le.mpr hlt)
    · obtain ⟨out, saw, hsc, hsw, hot⟩ := ih hs.2 hrd.2
      refine ⟨(act l).setExtensionIdentifier ident :: out, saw, ?_, ?_, fun a => ?_⟩
      · dsimp only
        rw [if_neg ht, hsc]
        rfl
      · rw [hsw, exists_mem_cons_iff, or_iff_right ht]
      · have hcd (l') : (∀ l'' ∈ l :: rest, (act l'').type = .ignorePreviousRules →
              l'' < l') ↔ ∀ l'' ∈ rest, (act l'').type = .ignorePreviousRules → l'' < l' := by
          rw [forall_mem_cons, and_iff_right fun h => absurd h ht]
        have hhd : ∀ l'' ∈ rest, (act l'').type = .ignorePreviousRules → l'' < l := by
          intro l'' hl'' hig
          refine lt_of_le_of_ne (hs.1 l'' hl'') ?_
          rintro rfl
          exact ht hig
        rw [mem_cons, hot, exists_mem_cons_iff]
        simp only [hcd, and_iff_right hhd]

/-! ### The vector is written if it fits -/

/-- A bound on the bytes of an action. -/
def actionSize (action : Action) : Nat :=
  if action.type = .cssDisplayNoneSelector then
    headerLength + 2 * (action.stringArgument.characters.length + 1)
  else 1

/-- A bound on the bytes of a slot. -/
def slotSize (slot : Trigger × PendingDisplayNoneActions) : Nat :=
  headerLength + (slot.2.selectors.map fun selector => 2 * (selector.characters.length + 1)).sum

def pendingSize (slots : PendingDisplayNoneActionsMap) : Nat := (slots.map slotSize).sum

theorem length_selectorBytes_le (sel : WTFString) :
    (selectorBytes sel).length ≤ headerLength + 2 * sel.characters.length := by
  rw [length_selectorBytes, length_selectorBody]
  split_ifs <;> omega

theorem length_combinedSelectors (selectors : List WTFString) :
    2 * (combinedSelectors selectors).characters.length ≤
      (selectors.map fun sel => 2 * (sel.characters.length + 1)).sum := by
  cases selectors with
  | nil => exact Nat.zero_le _
  | cons first rest =>
    have hr : 2 * (rest.flatMap fun sel => 44 :: sel.characters).length =
        (rest.map fun sel => 2 * (sel.characters.length + 1)).sum := by
      induction rest with
      | nil => rfl
      | cons sel rest ih =>
        rw [flatMap_cons, length_append, length_cons, map_cons, sum_cons, ← ih]
        omega
    rw [combinedSelectors, characters_foldl_combine, length_append, Nat.mul_add, hr,
      map_cons, sum_cons, WTFString.characters_append, WTFString.empty, nil_append]
    omega

theorem length_slot_le (slot : Trigger × PendingDisplayNoneActions) :
    (selectorBytes (combinedSelectors slot.2.selectors)).length ≤ slotSize slot :=
  (length_selectorBytes_le _).trans
    (Nat.add_le_add_left (length_combinedSelectors slot.2.selectors) _)

theorem appendActions_isSome {acts bs : List SerializedActionByte}
    (h : acts.length + bs.length ≤ maxUnsigned) : appendActions acts bs = some (acts ++ bs) :=
  if_pos h

theorem foldlM_resolveSlot_isSome (slots : PendingDisplayNoneActionsMap)
    (wr : List SerializedActionByte × List Nat)
    (h : wr.1.length + pendingSize slots ≤ maxUnsigned) :
    ∃ wr', slots.foldlM resolveSlot wr = some wr' ∧
      wr'.1.length ≤ wr.1.length + pendingSize slots := by
  induction slots generalizing wr with
  | nil => exact ⟨wr, rfl, Nat.le_add_right _ _⟩
  | cons slot rest ih =>
    rw [pendingSize, map_cons, sum_cons, ← pendingSize] at h ⊢
    have hsl := length_slot_le slot
    obtain ⟨wr', hwr, hln⟩ := ih
      (wr.1 ++ selectorBytes (combinedSelectors slot.2.selectors),
        slot.2.clientLocations.foldl (fun locs client => locs.set client wr.1.length)
          wr.2) (by rw [length_append]; omega)
    refine ⟨wr', ?_, ?_⟩
    · rw [foldlM_cons, resolveSlot, serializeSelector, appendActions_isSome (by omega)]
      exact hwr
    · rw [length_append] at hln
      omega

theorem resolve_isSome (order : SlotOrder) (state : SerializeState)
    (h : state.actions.length + pendingSize state.cssDisplayNoneActionsMap ≤ maxUnsigned) :
    ∃ state', resolvePendingDisplayNoneActions order state = some state' ∧
      state'.actions.length ≤ state.actions.length + pendingSize state.cssDisplayNoneActionsMap ∧
      state'.cssDisplayNoneActionsMap = [] := by
  have hpr : pendingSize (order.visit state.actions state.cssDisplayNoneActionsMap) =
      pendingSize state.cssDisplayNoneActionsMap :=
    ((order.perm _ _).map slotSize).sum_eq
  obtain ⟨wr, hwr, hln⟩ := foldlM_resolveSlot_isSome
    (order.visit state.actions state.cssDisplayNoneActionsMap)
    (state.actions, state.actionLocations) (by rw [hpr]; exact h)
  rw [hpr] at hln
  refine ⟨{ state with
      actions := wr.1
      actionLocations := wr.2
      cssDisplayNoneActionsMap := [] }, ?_, hln, rfl⟩
  rw [resolvePendingDisplayNoneActions, hwr]
  rfl

theorem pendingSize_addPending (trig : Trigger) (sel : WTFString) (client : Nat)
    (slots : PendingDisplayNoneActionsMap) :
    pendingSize (addPending trig sel client slots) ≤
      pendingSize slots + (headerLength + 2 * (sel.characters.length + 1)) := by
  induction slots with
  | nil => simp [addPending, pendingSize, slotSize]
  | cons slot rest ih =>
    rw [addPending]
    split_ifs with hsl
    · simp only [pendingSize, slotSize, map_cons, sum_cons, map_append,
        sum_append, map_nil, sum_nil, headerLength]
      omega
    · simp only [pendingSize, map_cons, sum_cons] at ih ⊢
      omega

variable (state : SerializeState)

/-- The bytes in the vector and those that wait. -/
def stateSize : Nat :=
  state.actions.length + pendingSize state.cssDisplayNoneActionsMap

theorem clearMaps_isSome (order : SlotOrder) (state : SerializeState) (type : ActionType)
    (h : stateSize state ≤ maxUnsigned) :
    ∃ state', clearMaps order state type = some state' ∧ stateSize state' ≤ stateSize state := by
  rw [clearMaps]
  split_ifs
  · obtain ⟨state', hrs, hln, hc⟩ := resolve_isSome order state h
    rw [hrs]
    refine ⟨_, rfl, ?_⟩
    exact hln
  · exact ⟨_, rfl, le_rfl⟩

theorem pushAction_isSome (act : Action) (h : stateSize state + actionSize act ≤ maxUnsigned) :
    ∃ state', pushAction state act = some state' ∧
      stateSize state' ≤ stateSize state + actionSize act := by
  rw [stateSize] at h
  rw [pushAction]
  split_ifs with hc
  · have hbs := length_selectorBytes_le act.stringArgument
    rw [actionSize, if_pos hc] at h ⊢
    rw [serializeSelector, appendActions_isSome (by omega)]
    refine ⟨_, rfl, ?_⟩
    simp only [stateSize, length_append]
    omega
  · rw [actionSize, if_neg hc] at h ⊢
    rw [appendActions_isSome (by rw [length_singleton]; omega)]
    refine ⟨_, rfl, ?_⟩
    simp only [stateSize, length_append, length_singleton]
    omega

theorem findOrMakeActionLocation_isSome (type : ActionType)
    (flags : ResourceFlags) (h : stateSize state + 1 ≤ maxUnsigned) :
    ∃ state', findOrMakeActionLocation state type flags = some state' ∧
      stateSize state' ≤ stateSize state + 1 := by
  rw [findOrMakeActionLocation]
  cases (state.actionMap type).lookup flags with
  | some loc => exact ⟨_, rfl, Nat.le_add_right _ _⟩
  | none =>
    rw [stateSize] at h
    dsimp only
    rw [appendActions_isSome (by rw [length_singleton]; omega)]
    refine ⟨_, rfl, ?_⟩
    have hc : (state.setActionMap ((flags, state.actions.length) :: state.actionMap type)
        type).cssDisplayNoneActionsMap = state.cssDisplayNoneActionsMap := by
      cases type <;> rfl
    simp only [stateSize, length_append, length_singleton, hc]
    omega

theorem placeAction_isSome (rule : ContentExtensionRule)
    (hru : rule.action.type.isRuleAction = true)
    (h : stateSize state + actionSize rule.action ≤ maxUnsigned) :
    ∃ state', placeAction state rule = some state' ∧
      stateSize state' ≤ stateSize state + actionSize rule.action := by
  by_cases hc : rule.action.type = .cssDisplayNoneSelector
  · refine ⟨addPendingSelector state rule, by rw [placeAction, hc], ?_⟩
    have hpend := pendingSize_addPending rule.trigger rule.action.stringArgument
      state.actionLocations.length state.cssDisplayNoneActionsMap
    rw [actionSize, if_pos hc]
    simp only [stateSize, addPendingSelector]
    omega
  · rw [actionSize, if_neg hc] at h ⊢
    have hp : placeAction state rule =
        findOrMakeActionLocation state rule.action.type rule.trigger.flags := by
      rw [placeAction]
      cases ht : rule.action.type <;> rw [ht] at hru hc <;>
        first | exact absurd rfl hc | rfl | cases hru
    rw [hp]
    exact findOrMakeActionLocation_isSome state _ _ h

/-- One rule is placed if its bytes fit. -/
theorem serializeRule_isSome (order : SlotOrder) (state : SerializeState)
    (rule : ContentExtensionRule) (hru : rule.action.type.isRuleAction = true)
    (h : stateSize state + actionSize rule.action ≤ maxUnsigned) :
    ∃ state', serializeRule order state rule = some state' ∧
      stateSize state' ≤ stateSize state + actionSize rule.action := by
  obtain ⟨cleared, hcl, hsz⟩ := clearMaps_isSome order state rule.action.type (by omega)
  rw [serializeRule, hcl, Option.bind_some]
  split_ifs
  · obtain ⟨state', hps, hsz'⟩ := pushAction_isSome cleared rule.action (by omega)
    exact ⟨state', hps, by omega⟩
  · obtain ⟨state', hp, hsz'⟩ := placeAction_isSome cleared rule hru (by omega)
    exact ⟨state', hp, by omega⟩

/-- A bound on the bytes of a rule list. -/
def ruleListSize (rules : List ContentExtensionRule) : Nat :=
  (rules.map fun rule => actionSize rule.action).sum

theorem foldlM_serializeRule_isSome (order : SlotOrder) (rls : List ContentExtensionRule)
    (state : SerializeState) (hrl : ∀ rule ∈ rls, rule.action.type.isRuleAction = true)
    (h : stateSize state + ruleListSize rls ≤ maxUnsigned) :
    ∃ state', rls.foldlM (serializeRule order) state = some state' ∧
      stateSize state' ≤ stateSize state + ruleListSize rls := by
  induction rls generalizing state with
  | nil => exact ⟨state, rfl, Nat.le_add_right _ _⟩
  | cons rule rest ih =>
    rw [forall_mem_cons] at hrl
    rw [ruleListSize, map_cons, sum_cons, ← ruleListSize] at h ⊢
    obtain ⟨next, hnx, hsz⟩ := serializeRule_isSome order state rule hrl.1 (by omega)
    obtain ⟨final, hfn, hsz'⟩ := ih next hrl.2 (by omega)
    refine ⟨final, ?_, by omega⟩
    rw [foldlM_cons, hnx]
    exact hfn

theorem serializeActions_isSome (order : SlotOrder) (rls : List ContentExtensionRule)
    (hrl : ∀ rule ∈ rls, rule.action.type.isRuleAction = true)
    (h : ruleListSize rls ≤ maxUnsigned) : (serializeActions order rls).isSome = true := by
  have hinit : stateSize SerializeState.initial = 0 := rfl
  obtain ⟨state, hst, hsz⟩ :=
    foldlM_serializeRule_isSome order rls SerializeState.initial hrl (by omega)
  have hf : stateSize state ≤ maxUnsigned := by omega
  obtain ⟨final, hfn, -⟩ := resolve_isSome order state hf
  rw [serializeActions, hst, Option.bind_some, hfn]
  rfl

/-! ### The meaning of a rule list -/

/-- The type and the characters of an action. -/
def Action.content (action : Action) : ActionType × List UInt16 :=
  (action.type, action.stringArgument.characters)

/-- What a load with the given matching rules is due: the actions of the rules
behind the last matching `ignore-previous-rules` rule. -/
def dueActions (rules : List ContentExtensionRule) (isMatch : Nat → Bool) :
    Set (ActionType × List UInt16) :=
  { content | ∃ i rule, rules[i]? = some rule ∧ isMatch i = true ∧
    (∀ j rule', rules[j]? = some rule' → isMatch j = true → rule'.isIgnore = true → j < i) ∧
    content = (rule.action.type, expectedCharacters rules i rule) }

variable {rls : List ContentExtensionRule} {acts : List SerializedActionByte}
  {locs : List Nat}

/-- A location belongs to a rule that matches. -/
def IsMatchingLocation (rules : List ContentExtensionRule) (locations : List Nat)
    (isMatch : Nat → Bool) (location : Nat) : Prop :=
  ∃ i rule, RuleAt rules locations i rule location ∧ isMatch i = true

section

variable (h : Placed rls acts locs fun _ => False)
  (hrl : ∀ rule ∈ rls, rule.action.type.isRuleAction = true)
  (hln : acts.length ≤ maxUnsigned)
include h hrl hln

/-- The entry of a placed rule. -/
theorem Placed.deserialize {i l} {rule : ContentExtensionRule} (hat : RuleAt rls locs i rule l) :
    ∃ act, Action.deserialize acts l = some act ∧
      act.content = (rule.action.type, expectedCharacters rls i rule) := by
  obtain ⟨string, hstr, hrd⟩ := (h.entry i rule l hat id).deserialize
    (hrl rule (mem_of_getElem? hat.1)) hln
  exact ⟨_, hrd, by rw [Action.content, hstr]⟩

/-- The walk over the locations of the matching rules. -/
theorem Placed.scan (ident : List UInt16) (isMatch : Nat → Bool) {matching : List Nat}
    (hmc : ∀ l, l ∈ matching ↔ IsMatchingLocation rls locs isMatch l) :
    ∃ out saw, scanActions ident acts (matching.insertionSort (· ≤ ·)).reverse =
        some (out, saw) ∧
      (saw = true ↔ ∃ i rule, rls[i]? = some rule ∧ isMatch i = true ∧ rule.isIgnore = true) ∧
      { content | ∃ act ∈ out, content = act.content } = dueActions rls isMatch := by
  set walked := (matching.insertionSort (· ≤ ·)).reverse with hw
  have hm (l) : l ∈ walked ↔ IsMatchingLocation rls locs isMatch l := by
    rw [hw, mem_reverse, mem_insertionSort, hmc]
  have hs : walked.Pairwise (· ≥ ·) := by
    rw [hw, pairwise_reverse]
    exact pairwise_insertionSort (· ≤ ·) matching
  let act (l : Nat) : Action :=
    (Action.deserialize acts l).getD ⟨[], .invalidAction, maxUnsigned, WTFString.empty⟩
  have hrd {i l} {rule : ContentExtensionRule} (hat : RuleAt rls locs i rule l) :
      Action.deserialize acts l = some (act l) ∧
        (act l).content = (rule.action.type, expectedCharacters rls i rule) := by
    obtain ⟨a, ha, hcn⟩ := h.deserialize hrl hln hat
    have hac : act l = a := by simp only [act, ha, Option.getD_some]
    rw [hac]
    exact ⟨ha, hcn⟩
  have ht {i l} {rule : ContentExtensionRule} (hat : RuleAt rls locs i rule l) :
      (act l).type = .ignorePreviousRules ↔ rule.isIgnore = true := by
    have hcn := congrArg Prod.fst (hrd hat).2
    rw [ContentExtensionRule.isIgnore, decide_eq_true_eq, ← show _ = rule.action.type from hcn]
    rfl
  have hlc {i} {rule} (hru : rls[i]? = some rule) :
      ∃ l, RuleAt rls locs i rule l := by
    have hlt := (List.getElem?_eq_some_iff.mp hru).1
    rw [← h.length] at hlt
    exact ⟨locs[i], hru, List.getElem?_eq_getElem hlt⟩
  obtain ⟨out, saw, hsc, hsw, hot⟩ := scanActions_spec ident acts act hs
    fun l hl => by
      obtain ⟨i, rule, hat, -⟩ := (hm l).mp hl
      exact (hrd hat).1
  refine ⟨out, saw, hsc, ?_, ?_⟩
  · rw [hsw]
    constructor
    · rintro ⟨l, hl, hig⟩
      obtain ⟨i, rule, hat, hmt⟩ := (hm l).mp hl
      exact ⟨i, rule, hat.1, hmt, (ht hat).mp hig⟩
    · rintro ⟨i, rule, hru, hmt, hig⟩
      obtain ⟨l, hat⟩ := hlc hru
      exact ⟨l, (hm l).mpr ⟨i, rule, hat, hmt⟩, (ht hat).mpr hig⟩
  · ext content
    constructor
    · rintro ⟨a, ha, rfl⟩
      obtain ⟨l, hl, hab, rfl⟩ := (hot a).mp ha
      obtain ⟨i, rule, hat, hmt⟩ := (hm l).mp hl
      refine ⟨i, rule, hat.1, hmt, fun j rule' hru' hmt' hig => ?_, (hrd hat).2⟩
      obtain ⟨l', hat'⟩ := hlc hru'
      have hlt := hab l' ((hm l').mpr ⟨j, rule', hat', hmt'⟩) ((ht hat').mpr hig)
      have ho : rule.isIgnore = false := by
        rw [← Bool.not_eq_true]
        intro hsf
        exact lt_irrefl l (hab l hl ((ht hat).mpr hsf))
      have hsp := h.separated i rule l j rule' l' hat hat' id id ho hig
      rcases lt_trichotomy i j with hij | rfl | hji
      · exact absurd (hsp.1 hij) hlt.not_gt
      · rw [Option.some.inj (hat.1.symm.trans hru'), hig] at ho
        cases ho
      · exact hji
    · rintro ⟨i, rule, hru, hmt, hls, rfl⟩
      obtain ⟨l, hat⟩ := hlc hru
      have hl := (hm l).mpr ⟨i, rule, hat, hmt⟩
      refine ⟨_, (hot _).mpr ⟨l, hl, fun l' hl' hig => ?_, rfl⟩, (hrd hat).2.symm⟩
      obtain ⟨j, rule', hat', hmt'⟩ := (hm l').mp hl'
      have hig := (ht hat').mp hig
      have ho : rule.isIgnore = false := by
        rw [← Bool.not_eq_true]
        intro hsf
        exact lt_irrefl i (hls i rule hru hmt hsf)
      exact (h.separated i rule l j rule' l' hat hat' id id ho hig).2
        (hls j rule' hat'.1 hmt' hig)

end

/-- Serializing a rule list and walking the locations of the rules that match a
load gives the actions of the matching rules behind the last matching
`ignore-previous-rules` rule, whichever rules match and in whatever order and
multiplicity their locations are collected. -/
theorem scan_serializeActions (order : SlotOrder) (rules : List ContentExtensionRule)
    (hrules : ∀ rule ∈ rules, rule.action.type.isRuleAction = true) :
    (ruleListSize rules ≤ maxUnsigned → (serializeActions order rules).isSome = true) ∧
      ∀ locations actions, serializeActions order rules = some (locations, actions) →
        ∀ (identifier : List UInt16) (isMatch : Nat → Bool) (matching : List Nat),
          (∀ l, l ∈ matching ↔ IsMatchingLocation rules locations isMatch l) →
          ∃ out saw, scanActions identifier actions (matching.insertionSort (· ≤ ·)).reverse =
              some (out, saw) ∧
            (saw = true ↔
              ∃ i rule, rules[i]? = some rule ∧ isMatch i = true ∧ rule.isIgnore = true) ∧
            { content | ∃ action ∈ out, content = action.content } = dueActions rules isMatch := by
  refine ⟨serializeActions_isSome order rules hrules, ?_⟩
  intro locations actions hserialize identifier isMatch matching hmatching
  obtain ⟨hlen, hplc⟩ := placed_serializeActions hserialize
  exact hplc.scan hrules hlen identifier isMatch hmatching

/-- A rule without domains and flags for one url filter. -/
def plainRule (urlFilter : List UInt16) (type : ActionType) (selector : List UInt8) :
    ContentExtensionRule :=
  ⟨⟨urlFilter, false, 0, [], .none⟩, ⟨[], type, maxUnsigned, WTFString.ofLChars selector⟩⟩

/-- Two selectors for one trigger are merged and stay in front of the
`ignore-previous-rules` rule behind them. -/
theorem scan_serializeActions_merged :
    let rules := [plainRule [98] .blockLoad [], plainRule [97] .cssDisplayNoneSelector [120],
      plainRule [97] .cssDisplayNoneSelector [121], plainRule [99] .ignorePreviousRules [],
      plainRule [98] .blockLoad []]
    (serializeActions .insertion rules).isSome = true ∧
      ∃ out saw, scanActions [] [0, 2, 3, 0, 0, 0, 0, 120, 44, 121, 4, 0]
          (insertionSort (· ≤ ·) [0, 1, 1]).reverse = some (out, saw) ∧
        { content | ∃ action ∈ out, content = action.content } =
          dueActions rules fun i => i < 3 := by
  intro rules
  have hserialize : serializeActions .insertion rules =
      some ([0, 1, 1, 10, 11], [0, 2, 3, 0, 0, 0, 0, 120, 44, 121, 4, 0]) := by decide
  have hres := scan_serializeActions .insertion rules (by decide)
  refine ⟨hres.1 (by decide), ?_⟩
  have hmatching (l) : l ∈ [0, 1, 1] ↔
      IsMatchingLocation rules [0, 1, 1, 10, 11] (fun i => i < 3) l := by
    constructor
    · intro hl
      simp only [mem_cons, not_mem_nil, or_false, or_self] at hl
      rcases hl with rfl | rfl
      · exact ⟨0, _, ⟨rfl, rfl⟩, rfl⟩
      · exact ⟨1, _, ⟨rfl, rfl⟩, rfl⟩
    · rintro ⟨i, rule, ⟨-, hl⟩, hi⟩
      rw [decide_eq_true_eq] at hi
      interval_cases i <;> obtain rfl := Option.some.inj hl <;> decide
  obtain ⟨out, saw, hscan, -, hcont⟩ :=
    hres.2 _ _ hserialize [] (fun i => i < 3) [0, 1, 1] hmatching
  exact ⟨out, saw, hscan, hcont⟩

end QtWebKit.ContentExtensions
