import QtWebKit.ContentExtensions.CompileRuleList
import Mathlib

/-!
# The simplification of the terms of a url filter

A filter is searched anywhere in the url unless it is anchored, so the pattern parser adds
a leading `.*`, and it removes what does not change the urls that are found: repeated `.*`,
a trailing `.*$` and trailing terms that can be empty. The decisions rest on predicates of
terms that look at bits and quantifiers; here they are related to the languages.
-/

namespace QtWebKit.ContentExtensions

open scoped Computability

/-! ### Kinds of terms -/

def CharacterSet.bitCount (set : CharacterSet) : Nat := (List.range 128).countP set.get

namespace Term

def isEndOfLineAssertion : Term → Bool
  | characterSet set _ => set.bitCount = 1 && set.get 0
  | group _ _ => false

mutual

def matchesAtLeastOneCharacter : Term → Bool
  | characterSet set quantifier =>
    if quantifier = .zeroOrOne ∨ quantifier = .zeroOrMore then false
    else !(characterSet set quantifier).isEndOfLineAssertion
  | group terms quantifier =>
    if quantifier = .zeroOrOne ∨ quantifier = .zeroOrMore then false
    else someMatchesAtLeastOneCharacter terms

def someMatchesAtLeastOneCharacter : List Term → Bool
  | [] => false
  | term :: rest => term.matchesAtLeastOneCharacter || someMatchesAtLeastOneCharacter rest

end

/-- Exact for character sets and conservative for groups; the quantifiers are not looked at. -/
def isUniversalTransition : Term → Bool
  | characterSet set _ =>
    (set.inverted && set.bitCount = 0) || (!set.inverted && set.bitCount = 127 && !set.get 0)
  | group [first] _ => first.isUniversalTransition
  | group _ _ => false

/-- Only simple cases of the ways to match anything with groups. -/
def isKnownToMatchAnyString : Term → Bool
  | characterSet set quantifier =>
    (characterSet set quantifier).isUniversalTransition && quantifier = .zeroOrMore
  | group [first] quantifier =>
    first.isKnownToMatchAnyString || (first.isUniversalTransition &&
      (quantifier = .zeroOrMore || (quantifier = .zeroOrOne && first.quantifier = .oneOrMore) ||
        (quantifier = .oneOrMore && first.quantifier = .zeroOrOne)))
  | group _ _ => false

end Term

/-! ### The simplification -/

def canonicalDotStar : Term := Term.universalTransition .zeroOrMore

/-- Replace every `.*`-like term by the canonical version and remove any duplicate. -/
def canonicalize : Bool → List Term → List Term
  | _, [] => []
  | isAfterDotStar, term :: rest =>
    if term.isKnownToMatchAnyString then
      if isAfterDotStar then canonicalize true rest
      else canonicalDotStar :: canonicalize true rest
    else term :: canonicalize false rest

/-- Add a `.*` in front if needed. -/
def addDotStar (hasBeginningOfLineAssertion : Bool) (terms : List Term) : List Term :=
  if !hasBeginningOfLineAssertion && !terms.head?.any Term.isKnownToMatchAnyString then
    canonicalDotStar :: terms
  else terms

/-- Remove a trailing `.*$`. -/
def removeDotStarEnd (terms : List Term) : List Term :=
  if terms.length > 2 && terms.getLast?.any Term.isEndOfLineAssertion &&
      terms.dropLast.getLast?.any Term.isKnownToMatchAnyString then
    terms.dropLast.dropLast
  else terms

/-- Remove irrelevant terms that can match empty. -/
def removeOptionalTail (terms : List Term) : List Term :=
  if terms.getLast?.any Term.isEndOfLineAssertion then terms
  else terms.rdropWhile fun term => !term.matchesAtLeastOneCharacter

def simplifySunkTerms (hasBeginningOfLineAssertion : Bool) (sunkTerms : List Term) : List Term :=
  if sunkTerms.isEmpty then sunkTerms
  else
    removeOptionalTail (removeDotStarEnd (addDotStar hasBeginningOfLineAssertion
      (canonicalize false sunkTerms)))

/-! ### Languages of the kinds of terms -/

/-- The strings of one character; the end of the url is none. -/
def anyCharacter : Language Nat := CharacterSet.language ⟨false, ~~~ BitVec.twoPow 128 0⟩

theorem mem_anyCharacter {word} : word ∈ anyCharacter ↔ ∃ c, (c ≠ 0 ∧ c < 128) ∧ word = [c] :=
  exists_congr fun c => and_congr_left fun _ => accepts_universalTransition c

theorem mem_anyString {word} : word ∈ anyCharacter∗ ↔ ∀ c ∈ word, c ≠ 0 ∧ c < 128 :=
  mem_language_universalTransition

theorem language_canonicalDotStar : canonicalDotStar.language = anyCharacter∗ := rfl

theorem nil_mem_mul {first snd : Language Nat} : [] ∈ first * snd ↔ [] ∈ first ∧ [] ∈ snd := by
  rw [Language.mem_mul]
  constructor
  · rintro ⟨left, hlf, right, hrg, h⟩
    obtain ⟨rfl, rfl⟩ := List.append_eq_nil_iff.mp h
    exact ⟨hlf, hrg⟩
  · rintro ⟨hf, hs⟩
    exact ⟨[], hf, [], hs, rfl⟩

namespace AtomQuantifier

variable {atom : Language Nat}

theorem language_le_kstar (qt : AtomQuantifier) : qt.language atom ≤ atom∗ := by
  cases qt with
  | one => exact le_kstar
  | zeroOrOne => exact add_le one_le_kstar le_kstar
  | zeroOrMore => exact le_refl _
  | oneOrMore => exact mul_kstar_le_kstar

theorem le_language (qt : AtomQuantifier) : atom ≤ qt.language atom := by
  cases qt with
  | one => exact le_refl _
  | zeroOrOne => exact le_add_of_nonneg_left bot_le
  | zeroOrMore => exact le_kstar
  | oneOrMore =>
    calc
      atom = atom * 1 := (mul_one atom).symm
      _ ≤ atom * atom∗ := mul_le_mul_right one_le_kstar _

theorem nil_mem_language {qt : AtomQuantifier} :
    [] ∈ qt.language atom ↔
      (qt = .zeroOrOne ∨ qt = .zeroOrMore) ∨ [] ∈ atom := by
  cases qt with
  | one => simp [language]
  | zeroOrOne => exact ⟨fun _ => .inl (.inl rfl), fun _ => .inl Language.nil_mem_one⟩
  | zeroOrMore => simp [language, Language.nil_mem_kstar]
  | oneOrMore => simp [language, nil_mem_mul, Language.nil_mem_kstar]

end AtomQuantifier

/-! ### The predicates and the languages -/

theorem CharacterSet.get_eq_false_of_bitCount {set : CharacterSet} (h : set.bitCount = 0) {c}
    (hc : c < 128) : set.get c = false :=
  Bool.eq_false_iff.mpr (List.countP_eq_zero.mp h c (List.mem_range.mpr hc))

theorem CharacterSet.get_of_bitCount {set : CharacterSet} (h : set.bitCount = 127)
    (hz : set.get 0 = false) {c} (hc : c ≠ 0 ∧ c < 128) : set.get c = true := by
  have hr : (List.range' 1 127).countP set.get = (List.range' 1 127).length := by
    have hg : List.range 128 = 0 :: List.range' 1 127 := by decide
    rw [bitCount, hg, List.countP_cons_of_neg (by rw [hz]; exact Bool.false_ne_true)] at h
    rw [h, List.length_range']
  exact List.countP_eq_length.mp hr c (List.mem_range'_1.mpr (by omega))

namespace Term

mutual

/-- No set has the bit of the end of the url. -/
def avoidsEnd : Term → Bool
  | characterSet set _ => !set.get 0
  | group terms _ => allAvoidEnd terms

def allAvoidEnd : List Term → Bool
  | [] => true
  | term :: rest => term.avoidsEnd && allAvoidEnd rest

end

theorem allAvoidEnd_iff {ts} : allAvoidEnd ts = true ↔ ∀ term ∈ ts, term.avoidsEnd = true := by
  induction ts with
  | nil => simp [allAvoidEnd]
  | cons term rest ih => simp [allAvoidEnd, ih]

theorem isEndOfLineAssertion_of_avoidsEnd {term : Term} (h : term.avoidsEnd = true) :
    term.isEndOfLineAssertion = false := by
  cases term with
  | characterSet set qt =>
    rw [avoidsEnd, Bool.not_eq_true'] at h
    rw [isEndOfLineAssertion, h, Bool.and_false]
  | group ts qt => rfl

theorem language_characterSet_le {set : CharacterSet} (h : set.get 0 = false) :
    set.language ≤ anyCharacter := by
  rintro word ⟨c, hac, rfl⟩
  refine mem_anyCharacter.mpr ⟨c, ?_, rfl⟩
  unfold CharacterSet.accepts at hac
  split at hac
  · simp only [Bool.and_eq_true, decide_eq_true_iff] at hac
    omega
  · simp only [Bool.and_eq_true, decide_eq_true_iff] at hac
    refine ⟨?_, hac.1⟩
    rintro rfl
    exact Bool.false_ne_true (h.symm.trans hac.2)

mutual

theorem language_le : (term : Term) → term.avoidsEnd = true → term.language ≤ anyCharacter∗
  | characterSet set qt, h =>
    (qt.language_le_kstar).trans
      (kstar_mono (language_characterSet_le (by rwa [avoidsEnd, Bool.not_eq_true'] at h)))
  | group ts qt, h =>
    calc
      qt.language (patternLanguage ts) ≤ (patternLanguage ts)∗ :=
        qt.language_le_kstar
      _ ≤ anyCharacter∗∗ := kstar_mono (patternLanguage_le ts h)
      _ = anyCharacter∗ := kstar_idem _

theorem patternLanguage_le :
    (ts : List Term) → allAvoidEnd ts = true → patternLanguage ts ≤ anyCharacter∗
  | [], _ => one_le_kstar
  | term :: rest, h => by
      rw [allAvoidEnd, Bool.and_eq_true] at h
      calc
        term.language * patternLanguage rest ≤ anyCharacter∗ * anyCharacter∗ :=
          mul_le_mul' (language_le term h.1) (patternLanguage_le rest h.2)
        _ = anyCharacter∗ := kstar_mul_kstar _

end

mutual

/-- The terms that must match a character are those that cannot be empty. -/
theorem matchesAtLeastOneCharacter_eq_false :
    (term : Term) → term.avoidsEnd = true →
      (term.matchesAtLeastOneCharacter = false ↔ [] ∈ term.language)
  | characterSet set qt, h => by
      have hn : [] ∉ set.language := by
        rintro ⟨c, _, hc⟩
        cases hc
      rw [matchesAtLeastOneCharacter, language, AtomQuantifier.nil_mem_language,
        isEndOfLineAssertion_of_avoidsEnd h, or_iff_left hn]
      split <;> simp_all
  | group ts qt, h => by
      rw [matchesAtLeastOneCharacter, language, AtomQuantifier.nil_mem_language,
        ← someMatchesAtLeastOneCharacter_eq_false ts h]
      split <;> simp_all

theorem someMatchesAtLeastOneCharacter_eq_false :
    (ts : List Term) → allAvoidEnd ts = true →
      (someMatchesAtLeastOneCharacter ts = false ↔ [] ∈ patternLanguage ts)
  | [], _ => by simp [someMatchesAtLeastOneCharacter, patternLanguage]
  | term :: rest, h => by
      rw [allAvoidEnd, Bool.and_eq_true] at h
      rw [someMatchesAtLeastOneCharacter, patternLanguage, nil_mem_mul, Bool.or_eq_false_iff,
        matchesAtLeastOneCharacter_eq_false term h.1,
        someMatchesAtLeastOneCharacter_eq_false rest h.2]

end

/-- The atom of a universal transition has every character, whatever the quantifier. -/
theorem language_of_isUniversalTransition :
    (term : Term) → term.isUniversalTransition = true →
      ∃ atom, anyCharacter ≤ atom ∧ term.language = term.quantifier.language atom
  | characterSet set qt, h => by
      refine ⟨set.language, ?_, rfl⟩
      intro word hwd
      obtain ⟨c, hc, rfl⟩ := mem_anyCharacter.mp hwd
      refine ⟨c, ?_, rfl⟩
      simp only [isUniversalTransition, Bool.or_eq_true, Bool.and_eq_true, Bool.not_eq_true',
        decide_eq_true_iff] at h
      obtain ⟨hi, hct⟩ | ⟨⟨hi, hct⟩, hz⟩ := h
      · simp [CharacterSet.accepts, hi, CharacterSet.get_eq_false_of_bitCount hct hc.2, hc.2,
          Nat.pos_of_ne_zero hc.1]
      · simp [CharacterSet.accepts, hi, CharacterSet.get_of_bitCount hct hz hc, hc.2]
  | group [first] qt, h => by
      obtain ⟨atom, hat, hf⟩ := language_of_isUniversalTransition first h
      refine ⟨first.language, ?_, ?_⟩
      · exact hat.trans (hf ▸ first.quantifier.le_language)
      · rw [language, patternLanguage, patternLanguage, mul_one]
        rfl
  | group [] _, h => absurd h Bool.false_ne_true
  | group (_ :: _ :: _) _, h => absurd h Bool.false_ne_true

theorem le_language_of_isKnownToMatchAnyString :
    (term : Term) → term.isKnownToMatchAnyString = true → anyCharacter∗ ≤ term.language
  | characterSet set qt, h => by
      rw [isKnownToMatchAnyString, Bool.and_eq_true, decide_eq_true_iff] at h
      obtain ⟨atom, hat, hln⟩ := language_of_isUniversalTransition _ h.1
      rw [hln, show (characterSet set qt).quantifier = .zeroOrMore from h.2]
      exact kstar_mono hat
  | group [first] qt, h => by
      rw [language, patternLanguage, patternLanguage, mul_one]
      simp only [isKnownToMatchAnyString, Bool.or_eq_true, Bool.and_eq_true,
        decide_eq_true_iff] at h
      obtain hf | ⟨hu, hq⟩ := h
      · exact (le_language_of_isKnownToMatchAnyString first hf).trans qt.le_language
      · obtain ⟨atom, hat, hln⟩ := language_of_isUniversalTransition first hu
        have hle := hat.trans (hln ▸ first.quantifier.le_language)
        obtain (rfl | ⟨rfl, hf⟩) | ⟨rfl, hf⟩ := hq
        · exact kstar_mono hle
        · rw [hln, hf]
          calc
            anyCharacter∗ = 1 + anyCharacter * anyCharacter∗ := one_add_mul_kstar.symm
            _ ≤ 1 + atom * atom∗ := add_le_add_right (mul_le_mul' hat (kstar_mono hat)) 1
        · have hon : 1 ≤ first.language := by
            rw [hln, hf]
            exact le_add_of_nonneg_right bot_le
          calc
            anyCharacter∗ = 1 * anyCharacter∗ := (one_mul _).symm
            _ ≤ first.language * first.language∗ := mul_le_mul' hon (kstar_mono hle)
  | group [] _, h => absurd h Bool.false_ne_true
  | group (_ :: _ :: _) _, h => absurd h Bool.false_ne_true

theorem language_of_isKnownToMatchAnyString {term : Term} (ha : term.avoidsEnd = true)
    (h : term.isKnownToMatchAnyString = true) : term.language = anyCharacter∗ :=
  le_antisymm (language_le term ha) (le_language_of_isKnownToMatchAnyString term h)

theorem patternLanguage_append (first snd : List Term) :
    patternLanguage (first ++ snd) = patternLanguage first * patternLanguage snd := by
  induction first with
  | nil => rw [List.nil_append, patternLanguage, one_mul]
  | cons term rest ih => rw [List.cons_append, patternLanguage, patternLanguage, ih, mul_assoc]

theorem avoidsEnd_canonicalDotStar : canonicalDotStar.avoidsEnd = true := by decide

theorem isKnownToMatchAnyString_endOfLineAssertion :
    endOfLineAssertion.isKnownToMatchAnyString = false := by decide

theorem isEndOfLineAssertion_endOfLineAssertion :
    endOfLineAssertion.isEndOfLineAssertion = true := by decide

end Term

open Term List

/-! ### The passes -/

theorem allAvoidEnd_canonicalize {isAfterDotStar ts}
    (h : allAvoidEnd ts = true) : allAvoidEnd (canonicalize isAfterDotStar ts) = true := by
  induction ts generalizing isAfterDotStar with
  | nil => exact h
  | cons term rest ih =>
    rw [allAvoidEnd, Bool.and_eq_true] at h
    unfold canonicalize
    split
    · split
      · exact ih h.2
      · rw [allAvoidEnd, avoidsEnd_canonicalDotStar, ih h.2, Bool.and_self]
    · rw [allAvoidEnd, h.1, ih h.2, Bool.and_self]

/-- After a `.*` another one adds nothing. -/
theorem patternLanguage_canonicalize {isAfterDotStar : Bool} {ts} (h : allAvoidEnd ts = true) :
    (if isAfterDotStar then anyCharacter∗ else 1) * patternLanguage
      (canonicalize isAfterDotStar ts) =
      (if isAfterDotStar then anyCharacter∗ else 1) * patternLanguage ts := by
  induction ts generalizing isAfterDotStar with
  | nil => rfl
  | cons term rest ih =>
    rw [allAvoidEnd, Bool.and_eq_true] at h
    have haf := @ih true h.2
    have hnt := @ih false h.2
    rw [if_pos rfl] at haf
    rw [if_neg Bool.false_ne_true, one_mul, one_mul] at hnt
    by_cases hk : term.isKnownToMatchAnyString = true
    · rw [canonicalize, if_pos hk, patternLanguage.eq_2,
        language_of_isKnownToMatchAnyString h.1 hk]
      cases isAfterDotStar with
      | true => rw [if_pos rfl, if_pos rfl, haf, ← mul_assoc, kstar_mul_kstar]
      | false =>
        rw [if_neg Bool.false_ne_true, if_neg Bool.false_ne_true, patternLanguage,
          language_canonicalDotStar, haf]
    · rw [canonicalize, if_neg hk, patternLanguage, patternLanguage, hnt]

theorem canonicalize_concat {isAfterDotStar ts} :
    canonicalize isAfterDotStar (ts ++ [endOfLineAssertion]) =
      canonicalize isAfterDotStar ts ++ [endOfLineAssertion] := by
  induction ts generalizing isAfterDotStar with
  | nil => simp [canonicalize, isKnownToMatchAnyString_endOfLineAssertion]
  | cons term rest ih =>
    rw [cons_append, canonicalize, canonicalize, ih, ih]
    split
    · split <;> rfl
    · rfl

section

variable {atBegin : Bool} {ts : List Term}

/-- The words before a match: a search starts anywhere unless it is anchored. -/
def searchStart (hasBeginningOfLineAssertion : Bool) : Language Nat :=
  if hasBeginningOfLineAssertion then 1 else anyCharacter∗

theorem allAvoidEnd_addDotStar (h : allAvoidEnd ts = true) :
    allAvoidEnd (addDotStar atBegin ts) = true := by
  unfold addDotStar
  split
  · rw [allAvoidEnd, avoidsEnd_canonicalDotStar, h, Bool.and_self]
  · exact h

theorem patternLanguage_addDotStar (h : allAvoidEnd ts = true) :
    patternLanguage (addDotStar atBegin ts) =
      searchStart atBegin * patternLanguage ts := by
  cases atBegin with
  | true => exact (one_mul _).symm
  | false =>
    cases ts with
    | nil => rfl
    | cons term rest =>
      rw [allAvoidEnd, Bool.and_eq_true] at h
      by_cases hk : term.isKnownToMatchAnyString = true
      · have hkp : addDotStar false (term :: rest) = term :: rest := by simp [addDotStar, hk]
        rw [hkp, patternLanguage, language_of_isKnownToMatchAnyString h.1 hk, ← mul_assoc]
        exact congrArg (· * _) (kstar_mul_kstar anyCharacter).symm
      · have had : addDotStar false (term :: rest) = canonicalDotStar :: term :: rest := by
          simp [addDotStar, hk]
        rw [had]
        rfl

theorem addDotStar_concat :
    addDotStar atBegin (ts ++ [endOfLineAssertion]) =
      addDotStar atBegin ts ++ [endOfLineAssertion] := by
  have hhd : (ts ++ [endOfLineAssertion]).head?.any isKnownToMatchAnyString =
      ts.head?.any isKnownToMatchAnyString := by
    cases ts with
    | nil => exact isKnownToMatchAnyString_endOfLineAssertion
    | cons term rest => rfl
  unfold addDotStar
  rw [hhd]
  split <;> rfl

end

section

variable {ts : List Term}

theorem someMatchesAtLeastOneCharacter_concat (term : Term) :
    someMatchesAtLeastOneCharacter (ts ++ [term]) =
      (someMatchesAtLeastOneCharacter ts || term.matchesAtLeastOneCharacter) := by
  induction ts with
  | nil => simp [someMatchesAtLeastOneCharacter]
  | cons first rest ih => simp [someMatchesAtLeastOneCharacter, ih, Bool.or_assoc]

theorem someMatchesAtLeastOneCharacter_rdropWhile :
    someMatchesAtLeastOneCharacter (ts.rdropWhile fun term => !term.matchesAtLeastOneCharacter) =
      someMatchesAtLeastOneCharacter ts := by
  induction ts using reverseRecOn with
  | nil => rw [rdropWhile_nil]
  | append_singleton rest last ih =>
    cases hl : last.matchesAtLeastOneCharacter with
    | true => rw [rdropWhile_concat_neg _ _ _ (by simp [hl])]
    | false =>
      rw [rdropWhile_concat_pos _ _ _ (by simp [hl]), ih,
        someMatchesAtLeastOneCharacter_concat, hl, Bool.or_false]

/-- Whatever is found with an optional tail is found without it. -/
theorem patternMatches_rdropWhile (h : allAvoidEnd ts = true) {input : List Nat} :
    PatternMatches (ts.rdropWhile fun term => !term.matchesAtLeastOneCharacter) input ↔
      PatternMatches ts input := by
  rw [allAvoidEnd_iff] at h
  induction ts using reverseRecOn with
  | nil => rw [rdropWhile_nil]
  | append_singleton rest last ih =>
    cases hl : last.matchesAtLeastOneCharacter with
    | true => rw [rdropWhile_concat_neg _ _ _ (by simp [hl])]
    | false =>
      have ha := h last (by simp)
      rw [rdropWhile_concat_pos _ _ _ (by simp [hl]),
        ih fun term ht => h term (mem_append_left _ ht)]
      unfold PatternMatches
      rw [patternLanguage_append]
      constructor
      · rintro ⟨word, hwd, hp⟩
        have hn := nil_mem_mul.mpr ⟨(matchesAtLeastOneCharacter_eq_false last ha).mp hl,
            Language.nil_mem_one⟩
        exact ⟨word, ⟨word, hwd, [], hn, append_nil word⟩, hp⟩
      · rintro ⟨word, ⟨front, hfr, tail, htl, rfl⟩, hp⟩
        exact ⟨front, hfr, (prefix_append front tail).trans hp⟩

end

/-! ### The simplified terms -/

variable {atBegin : Bool} {ts : List Term} {url : List Nat}

/-- The terms after the first two passes. -/
def searchTerms (hasBeginningOfLineAssertion : Bool) (terms : List Term) : List Term :=
  addDotStar hasBeginningOfLineAssertion (canonicalize false terms)

theorem allAvoidEnd_searchTerms (h : allAvoidEnd ts = true) :
    allAvoidEnd (searchTerms atBegin ts) = true :=
  allAvoidEnd_addDotStar (allAvoidEnd_canonicalize h)

theorem patternLanguage_searchTerms (h : allAvoidEnd ts = true) :
    patternLanguage (searchTerms atBegin ts) =
      searchStart atBegin * patternLanguage ts := by
  have hcn : patternLanguage (canonicalize false ts) = patternLanguage ts := by
    simpa using @patternLanguage_canonicalize false ts h
  rw [searchTerms, patternLanguage_addDotStar (allAvoidEnd_canonicalize h), hcn]

theorem getLast?_isEndOfLineAssertion (h : allAvoidEnd ts = true) :
    ts.getLast?.any isEndOfLineAssertion = false := by
  cases hl : ts.getLast? with
  | none => rfl
  | some last =>
    exact isEndOfLineAssertion_of_avoidsEnd (allAvoidEnd_iff.mp h last (mem_of_getLast? hl))

theorem simplifySunkTerms_eq (h : allAvoidEnd ts = true) :
    simplifySunkTerms atBegin ts =
      (searchTerms atBegin ts).rdropWhile
        fun term => !term.matchesAtLeastOneCharacter := by
  cases ts with
  | nil =>
    cases atBegin with
    | true => rfl
    | false =>
      have ho : canonicalDotStar.matchesAtLeastOneCharacter = false := by decide
      exact (rdropWhile_concat_pos _ [] canonicalDotStar (by simp [ho])).symm
  | cons term rest =>
    have hl := getLast?_isEndOfLineAssertion
      (@allAvoidEnd_searchTerms atBegin (term :: rest) h)
    have hkp : removeDotStarEnd (searchTerms atBegin (term :: rest)) =
        searchTerms atBegin (term :: rest) := by
      rw [removeDotStarEnd, hl, Bool.and_false, Bool.false_and, if_neg Bool.false_ne_true]
    rw [simplifySunkTerms, isEmpty_cons, if_neg Bool.false_ne_true, ← searchTerms, hkp,
      removeOptionalTail, hl, if_neg Bool.false_ne_true]

/-- With an end of line, either the end goes with a `.*` before it, or all terms stay. -/
theorem simplifySunkTerms_concat (h : allAvoidEnd ts = true) :
    (∃ front last, searchTerms atBegin ts = front ++ [last] ∧ last.isKnownToMatchAnyString = true ∧
      simplifySunkTerms atBegin (ts ++ [endOfLineAssertion]) =
        front.rdropWhile fun term => !term.matchesAtLeastOneCharacter) ∨
    simplifySunkTerms atBegin (ts ++ [endOfLineAssertion]) =
      searchTerms atBegin ts ++ [endOfLineAssertion] := by
  have hsr : addDotStar atBegin
      (canonicalize false (ts ++ [endOfLineAssertion])) =
        searchTerms atBegin ts ++ [endOfLineAssertion] := by
    rw [canonicalize_concat, addDotStar_concat, searchTerms]
  have ha := @allAvoidEnd_searchTerms atBegin ts h
  have hem : (ts ++ [endOfLineAssertion]).isEmpty = false := by simp
  rw [simplifySunkTerms, hem, if_neg Bool.false_ne_true, hsr, removeDotStarEnd]
  generalize searchTerms atBegin ts = srch at ha
  rw [dropLast_concat, getLast?_concat]
  split
  · rename_i hrm
    simp only [Bool.and_eq_true, Option.any_eq_true] at hrm
    obtain ⟨last, hl, hk⟩ := hrm.2
    obtain ⟨front, rfl⟩ := getLast?_eq_some_iff.mp hl
    refine .inl ⟨front, last, rfl, hk, ?_⟩
    have hfr := allAvoidEnd_iff.mpr fun term ht =>
        allAvoidEnd_iff.mp ha term (mem_append_left _ ht)
    rw [dropLast_concat, removeOptionalTail, getLast?_isEndOfLineAssertion hfr,
      if_neg Bool.false_ne_true]
  · right
    rw [removeOptionalTail, getLast?_concat]
    exact if_pos isEndOfLineAssertion_endOfLineAssertion

/-- The terms that are collected from a pattern. -/
def withEndOfLine (terms : List Term) (endOfLine : Bool) : List Term :=
  terms ++ if endOfLine then [endOfLineAssertion] else []

theorem nil_mem_searchStart_mul {language : Language Nat} :
    [] ∈ searchStart atBegin * language ↔ [] ∈ language := by
  rw [nil_mem_mul, and_iff_right_iff_imp]
  intro _
  cases atBegin with
  | true => exact Language.nil_mem_one
  | false => exact Language.nil_mem_kstar _

/-- No term is left that must match a character exactly if the pattern can be empty; the
end of line does not matter. -/
theorem someMatchesAtLeastOneCharacter_simplifySunkTerms (h : allAvoidEnd ts = true)
    (endOfLine : Bool) :
    someMatchesAtLeastOneCharacter
        (simplifySunkTerms atBegin (withEndOfLine ts endOfLine)) = false ↔
      [] ∈ patternLanguage ts := by
  have hsr := someMatchesAtLeastOneCharacter_eq_false _
    (@allAvoidEnd_searchTerms atBegin ts h)
  rw [patternLanguage_searchTerms h, nil_mem_searchStart_mul] at hsr
  rw [← hsr]
  cases endOfLine with
  | false =>
    rw [withEndOfLine, if_neg Bool.false_ne_true, append_nil, simplifySunkTerms_eq h,
      someMatchesAtLeastOneCharacter_rdropWhile]
  | true =>
    rw [withEndOfLine, if_pos rfl]
    obtain ⟨front, last, hfr, hk, hsm⟩ | hsm :=
      @simplifySunkTerms_concat atBegin ts h
    · have ha := allAvoidEnd_iff.mp (@allAvoidEnd_searchTerms atBegin ts h) last
          (by simp [hfr])
      have hl : last.matchesAtLeastOneCharacter = false := by
        rw [matchesAtLeastOneCharacter_eq_false last ha, language_of_isKnownToMatchAnyString ha hk]
        exact Language.nil_mem_kstar _
      rw [hsm, someMatchesAtLeastOneCharacter_rdropWhile, hfr,
        someMatchesAtLeastOneCharacter_concat, hl, Bool.or_false]
    · have he : endOfLineAssertion.matchesAtLeastOneCharacter = false := by decide
      rw [hsm, someMatchesAtLeastOneCharacter_concat, he, Bool.or_false]

theorem prefix_concat_end_iff {word} (hwd : word ∈ anyCharacter∗) :
    word <+: url ++ [0] ↔ word <+: url := by
  rw [prefix_concat_iff, or_iff_right]
  rintro rfl
  exact (mem_anyString.mp hwd 0 (by simp)).1 rfl

theorem patternMatches_concat_end_iff (h : allAvoidEnd ts = true) :
    PatternMatches ts (url ++ [0]) ↔ ∃ word ∈ patternLanguage ts, word <+: url :=
  exists_congr fun _ => and_congr_right fun hwd =>
    prefix_concat_end_iff (patternLanguage_le ts h hwd)

/-- The simplified terms match some front part of the url and its end exactly if the search
for the pattern succeeds. -/
theorem patternMatches_simplifySunkTerms (h : allAvoidEnd ts = true) (hur : url ∈ anyCharacter∗)
    (endOfLine : Bool) :
    PatternMatches (simplifySunkTerms atBegin (withEndOfLine ts endOfLine))
        (url ++ [0]) ↔
      ∃ word ∈ searchStart atBegin * patternLanguage ts,
        word <+: url ∧ (endOfLine = true → word = url) := by
  have ha := @allAvoidEnd_searchTerms atBegin ts h
  rw [← patternLanguage_searchTerms h]
  cases endOfLine with
  | false =>
    rw [withEndOfLine, if_neg Bool.false_ne_true, append_nil, simplifySunkTerms_eq h,
      patternMatches_rdropWhile ha, patternMatches_concat_end_iff ha]
    simp
  | true =>
    have hw : (∃ word ∈ patternLanguage (searchTerms atBegin ts),
        word <+: url ∧ (true = true → word = url)) ↔
          url ∈ patternLanguage (searchTerms atBegin ts) := by
      constructor
      · rintro ⟨word, hwd, _, heq⟩
        exact heq rfl ▸ hwd
      · intro hm
        exact ⟨url, hm, prefix_rfl, fun _ => rfl⟩
    rw [hw, withEndOfLine, if_pos rfl]
    obtain ⟨front, last, hfr, hk, hsm⟩ | hsm :=
      @simplifySunkTerms_concat atBegin ts h
    · rw [hfr, allAvoidEnd_iff] at ha
      have hl := language_of_isKnownToMatchAnyString (ha last (by simp)) hk
      have hr := allAvoidEnd_iff.mpr fun term ht => ha term (mem_append_left _ ht)
      rw [hsm, patternMatches_rdropWhile hr, patternMatches_concat_end_iff hr, hfr,
        patternLanguage_append, patternLanguage, patternLanguage, mul_one, hl]
      constructor
      · rintro ⟨word, hwd, rest, rfl⟩
        exact ⟨word, hwd, rest,
          mem_anyString.mpr fun c hc => mem_anyString.mp hur c (mem_append_right _ hc), rfl⟩
      · rintro ⟨word, hwd, rest, _, rfl⟩
        exact ⟨word, hwd, prefix_append word rest⟩
    · rw [hsm]
      unfold PatternMatches
      rw [patternLanguage_append]
      have he (word) : word ++ [0] <+: url ++ [0] ↔ url = word :=
        prefix_end_iff fun c hc => (mem_anyString.mp hur c hc).1
      constructor
      · rintro ⟨_, ⟨word, hwd, tail, htl, rfl⟩, hp⟩
        rw [mem_patternLanguage_endOfLineAssertion.mp htl] at hp
        exact (he word).mp hp ▸ hwd
      · intro hm
        exact ⟨url ++ [0], ⟨url, hm, [0], mem_patternLanguage_endOfLineAssertion.mpr rfl, rfl⟩,
          prefix_rfl⟩

end QtWebKit.ContentExtensions
