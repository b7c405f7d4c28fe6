import QtWebKit.ContentExtensions.Term
import QtWebKit.ContentExtensions.SerializeActions

/-!
# Partitioning a rule list

`compileRuleList` sorts the url filters of a rule list into those of rules without
and with domains, keeps apart the rules whose filter matches everything, and adds
the domains of each rule to a third set of patterns under the same action word.

## Implementation notes

A set of combined filters is the list of its `addPattern` calls. The parser of url
filters is a parameter. A parse error is `none`.
-/

namespace QtWebKit.ContentExtensions

open List

/-- The calls of `addPattern` of a `CombinedURLFilters`. -/
abbrev Patterns : Type := List (ActionWord × List Term)

/-- The characters of a domain as they are read by the matcher. -/
def characterCodes (domain : List UInt16) : List Nat := domain.map UInt16.toNat

/-- The patterns that `addDomain` adds. -/
def domainPatterns (domain : List Nat) : List (List Term) :=
  match domain with
  | [] => [[Term.endOfLineAssertion]]
  | first :: rest =>
    if first = 42 then
      let characters := rest.map fun c => Term.ofCharacter c true
      [Term.universalTransition .zeroOrMore :: Term.ofCharacter 46 true ::
          (characters ++ [Term.endOfLineAssertion]),
        characters ++ [Term.endOfLineAssertion]]
    else
      [(first :: rest).map (fun c => Term.ofCharacter c true) ++ [Term.endOfLineAssertion]]

def addDomain (filters : Patterns) (action : ActionWord) (domain : List UInt16) : Patterns :=
  filters ++ (domainPatterns (characterCodes domain)).map fun pattern => (action, pattern)

inductive ParseStatus where
  | ok (pattern : List Term)
  | matchesEverything
  | error

structure PartitionedRules where
  universalActionsWithoutDomains : List ActionWord
  universalActionsWithDomains : List ActionWord
  filtersWithoutDomains : Patterns
  filtersWithDomains : Patterns
  domainFilters : Patterns

/-- `actionLocationAndFlags` of a rule at a location. -/
def actionWord (trigger : Trigger) (location : Nat) : ActionWord :=
  ⟨trigger.domains ≠ [] ∧ trigger.domainCondition = .ifDomain, trigger.flags, UInt32.ofNat location⟩

section

variable (parse : List UInt16 → Bool → ParseStatus)

/-- One round of the loop over the rules. -/
def partitionRule (partitioned : PartitionedRules) (rule : ContentExtensionRule × Nat) :
    Option PartitionedRules :=
  let trigger := rule.1.trigger
  let action := actionWord trigger rule.2
  if trigger.domains = [] then
    match parse trigger.urlFilter trigger.urlFilterIsCaseSensitive with
    | .ok pattern =>
      some { partitioned with
        filtersWithoutDomains := partitioned.filtersWithoutDomains ++ [(action, pattern)] }
    | .matchesEverything =>
      some { partitioned with
        universalActionsWithoutDomains := partitioned.universalActionsWithoutDomains.insert action }
    | .error => none
  else
    let domainFilters :=
      trigger.domains.foldl (fun filters domain => addDomain filters action domain)
      partitioned.domainFilters
    match parse trigger.urlFilter trigger.urlFilterIsCaseSensitive with
    | .ok pattern =>
      some { partitioned with
        filtersWithDomains := partitioned.filtersWithDomains ++ [(action, pattern)]
        domainFilters := domainFilters }
    | .matchesEverything =>
      some { partitioned with
        universalActionsWithDomains := partitioned.universalActionsWithDomains.insert action
        domainFilters := domainFilters }
    | .error => none

def partitionRules (rules : List ContentExtensionRule) (actionLocations : List Nat) :
    Option PartitionedRules :=
  (rules.zip actionLocations).foldlM (partitionRule parse) ⟨[], [], [], [], []⟩

end

/-! ### The patterns of a domain -/

section

variable {word : List Nat}

theorem mem_language_ofCharacter {c} (hc : c < 128) :
    word ∈ (Term.ofCharacter c true).language ↔ word = [c] := by
  have ha (c') :
      ((CharacterSet.empty false).set c).accepts c' = true ↔ c' = c := by
    rw [CharacterSet.accepts, if_neg (by exact Bool.false_ne_true), CharacterSet.get_set _ hc,
      Bool.and_eq_true, decide_eq_true_iff]
    simp only [CharacterSet.get, CharacterSet.empty, BitVec.ofNat_eq_ofNat, BitVec.getLsbD_zero,
      Bool.false_or, decide_eq_true_iff]
    exact ⟨And.right, fun h => ⟨h ▸ hc, h⟩⟩
  rw [Term.ofCharacter, Bool.true_or, if_pos rfl, Term.language, AtomQuantifier.language]
  constructor
  · rintro ⟨c', hc', rfl⟩
    rw [(ha c').mp hc']
  · rintro rfl
    exact ⟨c, (ha c).mpr rfl, rfl⟩

theorem mem_language_endOfLineAssertion : word ∈ Term.endOfLineAssertion.language ↔ word = [0] :=
  mem_language_ofCharacter (by decide)

theorem mem_patternLanguage_characters {cs : List Nat} (h : ∀ c ∈ cs, c < 128) {rest} :
    word ∈ Term.patternLanguage (cs.map (fun c => Term.ofCharacter c true) ++ rest) ↔
      ∃ suffix ∈ Term.patternLanguage rest, word = cs ++ suffix := by
  induction cs generalizing word with
  | nil => simp
  | cons c cs ih =>
    rw [forall_mem_cons] at h
    rw [map_cons, cons_append, Term.patternLanguage, Language.mem_mul]
    constructor
    · rintro ⟨first, hf, snd, hsn, rfl⟩
      obtain ⟨suffix, hs, rfl⟩ := (ih h.2).mp hsn
      rw [(mem_language_ofCharacter h.1).mp hf]
      exact ⟨suffix, hs, rfl⟩
    · rintro ⟨suffix, hs, rfl⟩
      exact ⟨[c], (mem_language_ofCharacter h.1).mpr rfl, cs ++ suffix,
        (ih h.2).mpr ⟨suffix, hs, rfl⟩, rfl⟩

theorem mem_patternLanguage_endOfLineAssertion :
    word ∈ Term.patternLanguage [Term.endOfLineAssertion] ↔ word = [0] := by
  rw [Term.patternLanguage, Term.patternLanguage, mul_one, mem_language_endOfLineAssertion]

theorem accepts_universalTransition (c : Nat) :
    (⟨false, ~~~ BitVec.twoPow 128 0⟩ : CharacterSet).accepts c = true ↔ c ≠ 0 ∧ c < 128 := by
  rw [CharacterSet.accepts, if_neg (by exact Bool.false_ne_true), CharacterSet.get,
    BitVec.getLsbD_not, BitVec.getLsbD_twoPow]
  simp only [Bool.and_eq_true, decide_eq_true_iff, Bool.not_eq_true', Bool.and_eq_false_iff,
    decide_eq_false_iff_not]
  omega

/-- Any characters before the end of the url. -/
theorem mem_language_universalTransition :
    word ∈ (Term.universalTransition .zeroOrMore).language ↔ ∀ c ∈ word, c ≠ 0 ∧ c < 128 := by
  rw [Term.universalTransition, Term.language, AtomQuantifier.language, Language.mem_kstar]
  constructor
  · rintro ⟨words, rfl, hw⟩ c hc
    obtain ⟨letter, hl, hm⟩ := mem_flatten.mp hc
    obtain ⟨c', ha, rfl⟩ := hw letter hl
    rw [mem_singleton.mp hm]
    exact (accepts_universalTransition c').mp ha
  · intro h
    refine ⟨word.map fun c => [c], ?_, fun letter hl => ?_⟩
    · rw [← flatMap_def, flatMap_singleton']
    · obtain ⟨c, hc, rfl⟩ := mem_map.mp hl
      exact ⟨c, (accepts_universalTransition c).mpr (h c hc), rfl⟩

end

/-- A domain of a rule matches a host: `*d` stands for `d` and its subdomains. -/
def DomainMatches (domain host : List Nat) : Prop :=
  if domain.head? = some 42 then host = domain.tail ∨ 46 :: domain.tail <:+ host
  else host = domain

/-- A word that ends with the end of the url can only be all of the input. -/
theorem prefix_end_iff {word ho} (hh : ∀ c ∈ ho, c ≠ 0) :
    word ++ [0] <+: ho ++ [0] ↔ ho = word := by
  constructor
  · rintro ⟨rest, hr⟩
    rcases eq_nil_or_concat rest with rfl | ⟨rest', last, rfl⟩
    · rw [append_nil] at hr
      exact (append_inj_left' hr rfl).symm
    · rw [concat_eq_append, ← append_assoc] at hr
      have hm : (0 : Nat) ∈ ho := by
        rw [← append_inj_left' hr rfl]
        simp
      exact absurd rfl (hh 0 hm)
  · rintro rfl
    exact prefix_rfl

/-- The patterns of a domain match a host exactly if the domain does. -/
theorem patternMatches_domainPatterns {domain ho} (hd : ∀ c ∈ domain, c < 128)
    (hh : ∀ c ∈ ho, c ≠ 0 ∧ c < 128) :
    (∃ pattern ∈ domainPatterns domain, Term.PatternMatches pattern (ho ++ [0])) ↔
      DomainMatches domain ho := by
  have hz : ∀ c ∈ ho, c ≠ 0 := fun c hc => (hh c hc).1
  have hcs {cs word : List Nat} (h : ∀ c ∈ cs, c < 128) :
      word ∈ Term.patternLanguage (cs.map (fun c => Term.ofCharacter c true) ++
        [Term.endOfLineAssertion]) ↔ word = cs ++ [0] := by
    rw [mem_patternLanguage_characters h]
    simp [mem_patternLanguage_endOfLineAssertion]
  have hpl (cs : List Nat) (h : ∀ c ∈ cs, c < 128) :
      Term.PatternMatches (cs.map (fun c => Term.ofCharacter c true) ++
        [Term.endOfLineAssertion]) (ho ++ [0]) ↔ ho = cs := by
    simp [Term.PatternMatches, hcs h, prefix_end_iff hz]
  cases domain with
  | nil =>
    rw [domainPatterns, DomainMatches, if_neg (by simp)]
    simp only [mem_singleton, exists_eq_left]
    exact hpl [] (by simp)
  | cons first rest =>
    rw [forall_mem_cons] at hd
    simp only [domainPatterns, DomainMatches, head?_cons, Option.some.injEq, tail_cons]
    split_ifs with hstar
    · have hdt : Term.PatternMatches (Term.universalTransition .zeroOrMore ::
          Term.ofCharacter 46 true :: (rest.map (fun c => Term.ofCharacter c true) ++
            [Term.endOfLineAssertion])) (ho ++ [0]) ↔ 46 :: rest <:+ ho := by
        have hch : ∀ c ∈ 46 :: rest, c < 128 := forall_mem_cons.mpr ⟨by decide, hd.2⟩
        constructor
        · rintro ⟨_, ⟨front, -, _, hwd, rfl⟩, hp⟩
          beta_reduce at hp
          rw [(hcs hch).mp hwd, ← append_assoc, prefix_end_iff hz] at hp
          exact ⟨front, hp.symm⟩
        · rintro ⟨front, rfl⟩
          refine ⟨_, ⟨front, mem_language_universalTransition.mpr fun c hc =>
            hh c (mem_append_left _ hc), _, (hcs hch).mpr rfl, rfl⟩, ?_⟩
          simp
      simp only [mem_cons, not_mem_nil, or_false, exists_eq_or_imp, exists_eq_left]
      rw [hdt, hpl rest hd.2, or_comm]
    · simp only [mem_singleton, exists_eq_left]
      exact hpl (first :: rest) (forall_mem_cons.mpr hd)

/-! ### The domains of a rule list -/

/-- The patterns of the domains of a rule, with its action. -/
def ruleDomains (rule : ContentExtensionRule × Nat) : Patterns :=
  rule.1.trigger.domains.flatMap fun domain =>
    (domainPatterns (characterCodes domain)).map fun pattern =>
      (actionWord rule.1.trigger rule.2, pattern)

theorem domainFilters_partitionRule {parse part part' rule}
    (h : partitionRule parse part rule = some part') :
    part'.domainFilters = part.domainFilters ++ ruleDomains rule := by
  simp only [partitionRule] at h
  split_ifs at h <;> split at h <;> cases h <;>
    simp_all [ruleDomains, addDomain, foldl_append_eq_append, flatMap]

/-- The domain filters of a rule list match a host under an action word exactly if a domain of
a rule with this word does. -/
theorem domainFilters_partitionRules {parse rules locations part host}
    (h : partitionRules parse rules locations = some part)
    (hascii : ∀ rule ∈ rules, ∀ domain ∈ rule.trigger.domains, ∀ c ∈ domain, c.toNat < 128)
    (hhost : ∀ c ∈ host, c ≠ 0 ∧ c < 128) (action : ActionWord) :
    (∃ pattern, (action, pattern) ∈ part.domainFilters ∧
        Term.PatternMatches pattern (host ++ [0])) ↔
      ∃ rule ∈ rules.zip locations, actionWord rule.1.trigger rule.2 = action ∧
        ∃ domain ∈ rule.1.trigger.domains, DomainMatches (characterCodes domain) host := by
  have hrun (placed : List (ContentExtensionRule × Nat)) (start)
      (hs : placed.foldlM (partitionRule parse) start = some part) :
      part.domainFilters = start.domainFilters ++ placed.flatMap ruleDomains := by
    induction placed generalizing start with
    | nil =>
      cases hs
      simp
    | cons rule placed ih =>
      obtain ⟨next, hnext, hrest⟩ := Option.bind_eq_some_iff.mp hs
      rw [ih next hrest, domainFilters_partitionRule hnext, flatMap_cons, append_assoc]
  have hdomain (rule) (hr : rule ∈ rules.zip locations) (domain)
      (hd : domain ∈ rule.1.trigger.domains) := patternMatches_domainPatterns
    (forall_mem_map.mpr (hascii rule.1 (of_mem_zip hr).1 domain hd)) hhost
  rw [hrun _ _ h]
  simp only [nil_append, mem_flatMap, ruleDomains, mem_map, Prod.mk.injEq]
  constructor
  · rintro ⟨_, ⟨rule, hr, domain, hd, pattern, hp, rfl, rfl⟩, hm⟩
    exact ⟨rule, hr, rfl, domain, hd, (hdomain rule hr domain hd).mp ⟨pattern, hp, hm⟩⟩
  · rintro ⟨rule, hr, rfl, domain, hd, hm⟩
    obtain ⟨pattern, hp, hm⟩ := (hdomain rule hr domain hd).mpr hm
    exact ⟨pattern, ⟨rule, hr, domain, hd, pattern, hp, rfl, rfl⟩, hm⟩

/-- A rule for the domain `*a` matches the host `b.a`. -/
theorem domainFilters_subdomain : ∃ pattern,
    (⟨true, 0, 0⟩, pattern) ∈ addDomain [] ⟨true, 0, 0⟩ [42, 97] ∧
      Term.PatternMatches pattern ([98, 46, 97] ++ [0]) := by
  apply (@domainFilters_partitionRules (fun _ _ => .matchesEverything)
    [⟨⟨[97], true, 0, [[42, 97]], .ifDomain⟩, ⟨[], .blockLoad, 0, .empty⟩⟩] [0] _ _ rfl
    (by simp) (by simp) _).mpr
  exact ⟨_, mem_cons_self, rfl, _, mem_cons_self, .inr ⟨[98], rfl⟩⟩

end QtWebKit.ContentExtensions
