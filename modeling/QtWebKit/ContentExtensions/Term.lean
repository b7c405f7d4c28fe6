import QtWebKit.ContentExtensions.DFA
import Mathlib.Computability.Language

/-!
# Terms of url filters

A pattern is a list of terms; a term is a set of characters or a group of terms,
with a quantifier. The character `0` is the end of the url.

## Implementation notes

A term has no empty value, which is only the key of unused hash table slots. The
two words of a set of characters are one bit vector.
-/

namespace QtWebKit.ContentExtensions

open scoped Computability

inductive AtomQuantifier where
  | one
  | zeroOrOne
  | zeroOrMore
  | oneOrMore
  deriving DecidableEq, Repr

structure CharacterSet where
  inverted : Bool
  characters : BitVec 128
  deriving DecidableEq, Repr

namespace CharacterSet

def empty (inverted : Bool) : CharacterSet := ⟨inverted, 0⟩

variable (characterSet : CharacterSet)

def set (c : Nat) : CharacterSet :=
  { characterSet with characters := characterSet.characters ||| BitVec.twoPow 128 c }

def get (c : Nat) : Bool := characterSet.characters.getLsbD c

/-- The characters that a term with this set has transitions on. -/
def accepts (c : Nat) : Bool :=
  if characterSet.inverted then 0 < c && c < 128 && !characterSet.get c
  else c < 128 && characterSet.get c

theorem get_set {c} (hc : c < 128) (c' : Nat) :
    (characterSet.set c).get c' = (characterSet.get c' || c' = c) := by
  rw [get, set, get, BitVec.getLsbD_or, BitVec.getLsbD_twoPow]
  by_cases h : c = c'
  · subst h
    simp [hc]
  · simp [h, Ne.symm h]

theorem lt_of_get {characterSet : CharacterSet} {c} (h : characterSet.get c = true) : c < 128 :=
  BitVec.lt_of_getLsbD h

end CharacterSet

inductive Term where
  | characterSet (set : CharacterSet) (quantifier : AtomQuantifier)
  | group (terms : List Term) (quantifier : AtomQuantifier)

namespace Term

/-! ### Constructors -/

/-- `Term(character, isCaseSensitive)`. -/
def ofCharacter (c : Nat) (isCaseSensitive : Bool) : Term :=
  if isCaseSensitive || !((65 ≤ c && c ≤ 90) || (97 ≤ c && c ≤ 122)) then
    characterSet ((CharacterSet.empty false).set c) .one
  else
    let lower := toASCIILower c
    characterSet (((CharacterSet.empty false).set (lower - 32)).set lower) .one

/-- `Term(UniversalTransition)` with a quantifier. -/
def universalTransition (quantifier : AtomQuantifier) : Term :=
  characterSet ⟨false, ~~~ BitVec.twoPow 128 0⟩ quantifier

/-- `Term(EndOfLineAssertionTerm)`. -/
def endOfLineAssertion : Term := characterSet ((CharacterSet.empty false).set 0) .one

def quantifier : Term → AtomQuantifier
  | characterSet _ quantifier => quantifier
  | group _ quantifier => quantifier

end Term

/-! ### Languages -/

/-- Repetitions of the words of a language. -/
def AtomQuantifier.language (atom : Language Nat) : AtomQuantifier → Language Nat
  | one => atom
  | zeroOrOne => 1 + atom
  | zeroOrMore => atom∗
  | oneOrMore => atom * atom∗

def CharacterSet.language (characterSet : CharacterSet) : Language Nat :=
  {word | ∃ c, characterSet.accepts c = true ∧ word = [c]}

namespace Term

mutual

/-- The words that a term stands for. -/
def language : Term → Language Nat
  | characterSet set quantifier => quantifier.language set.language
  | group terms quantifier => quantifier.language (patternLanguage terms)

/-- The words that a list of terms stands for. -/
def patternLanguage : List Term → Language Nat
  | [] => 1
  | term :: rest => term.language * patternLanguage rest

end

/-- A pattern matches some front part of the input. -/
def PatternMatches (pattern : List Term) (input : List Nat) : Prop :=
  ∃ word ∈ patternLanguage pattern, word <+: input

end Term

end QtWebKit.ContentExtensions
